/-
Runs of file operations from a freshly formatted disk, on any device and under any failures. Each
call makes one `MemStep`, so what every step keeps holds after every run: no sector has two owners
(`Owned`). No run writes sector 0.
-/
import SpectreOS.Fs.Track
import SpectreOS.Fs.Boot
import SpectreOS.Fs.Sparing

namespace SpectreOS

open BlockIO Prog

section

variable {δ : Type} {D : Device δ Sector} {c : Conf FsMem δ}

/-- Every call of the run is made in a state where `ok` holds of it. -/
def EveryStep (ok : Call → Conf FsMem δ → Prop) (D : Device δ Sector) : List Call → Conf FsMem δ → Prop
  | [], _ => True
  | call :: calls, c => ok call c ∧ EveryStep ok D calls (call.prog.run D c).2

/-- Whatever the device answers, a call makes one step on the tables. -/
theorem call_memStep (D : Device δ Sector) (h : Owned c.mem) (call : Call) :
    MemStep c.mem call (call.prog.run D c).2.mem := by
  have hm : Models (tracked c.mem.superblock.totalSectors) D fun _ _ => True :=
    ⟨fun g d lba _ _ => ⟨g, rfl, trivial⟩, fun g d lba b _ _ => ⟨_, rfl, trivial⟩⟩
  have ht : Tracked c.mem.superblock.totalSectors Set.univ c.mem :=
    ⟨rfl, h, fun _ _ _ => trivial, fun _ _ _ _ => trivial⟩
  obtain ⟨-, ⟨-, -, hstep⟩, -⟩ := wp_sound hm call.prog (call_tracked ht call) trivial
  exact hstep

/-- What every permitted step keeps holds after every run of permitted steps. -/
theorem runCalls_invariant {ok : Call → Conf FsMem δ → Prop} {J : FsMem → Prop}
    (hJ : ∀ c call m', Owned c.mem → J c.mem → ok call c → MemStep c.mem call m' → J m') (calls : List Call)
    (c : Conf FsMem δ) (hO : Owned c.mem) (h0 : J c.mem) (hok : EveryStep ok D calls c) :
    Owned (runCalls D calls c).2.mem ∧ J (runCalls D calls c).2.mem := by
  induction calls generalizing c with
  | nil => exact ⟨hO, h0⟩
  | cons call calls ih =>
    have hstep := call_memStep D hO call
    exact ih _ (hstep.owned hO) (hJ _ _ _ hO h0 hok.1 hstep) hok.2

theorem everyStep_append {ok : Call → Conf FsMem δ → Prop} (calls calls' : List Call) (c : Conf FsMem δ) :
    EveryStep ok D (calls ++ calls') c ↔ EveryStep ok D calls c ∧ EveryStep ok D calls' (runCalls D calls c).2 := by
  induction calls generalizing c with
  | nil => simp [EveryStep, runCalls]
  | cons call calls ih => simp only [List.cons_append, EveryStep, runCalls, ih, and_assoc]

theorem everyStep_true (calls : List Call) (c : Conf FsMem δ) : EveryStep (fun _ _ => True) D calls c := by
  induction calls generalizing c with
  | nil => trivial
  | cons call calls ih => exact ⟨trivial, ih _⟩

end

theorem Fresh.owned {N : Nat} {d : Nat → Sector} {m : FsMem} (h : Fresh N d m) : Owned m := by
  have hr : Rooted m 32 m := ⟨rfl, rfl, h.root, h.empty, h.bits, fun _ _ => rfl⟩
  exact hr.owned le_rfl (by rw [h.total]; exact h.lo) (by rw [h.total]; exact h.hi)

section

variable (cp : Primitives) (material : Nat → Byte) (c : Conf FsMem Machine)

/-- Whatever the drive does, no run of calls gives a sector two owners, an owner to a sector that
is marked free, or loses count of an inode's sectors. -/
theorem fsFormat_runCalls_owned (hreg : Registry c.dev) (h : (fsFormat (current cp) material c).1 = true)
    (calls : List Call) : Owned (runCalls (fsDisk cp) calls (fsFormat (current cp) material c).2).2.mem := by
  obtain ⟨-, -, -, -, slot, -, -, -, hfresh⟩ := fsFormat_current hreg h rfl
  exact (runCalls_invariant (J := fun _ => True) (fun _ _ _ _ _ _ _ => trivial) calls _ hfresh.owned trivial
    (everyStep_true calls _)).1

/-- A run with a write through the handle of a deleted file. -/
theorem fsFormat_runCalls_owned_boot :
    (fsFormat (current nullPrimitives) (fun _ => 0) (bootConf (blankDrive 200))).1 = true ∧
      Owned (runCalls (fsDisk nullPrimitives) [.create nameA, .open nameA, .delete nameA, .write 0 (some [0x78])]
        (fsFormat (current nullPrimitives) (fun _ => 0) (bootConf (blankDrive 200))).2).2.mem := by
  have h := fsFormat_boot nullPrimitives (fun _ => 0) (a := blankDrive 200) rfl (by decide) fun _ => rfl
  exact ⟨h, fsFormat_runCalls_owned _ _ _ (Registry.boot _) h _⟩

end

/-! ## Sector 0 -/

/-- The requests of a run that went on from `log`. -/
def Extends (log log' : List Request) (P : Request → Prop) : Prop := ∃ reqs, log' = log ++ reqs ∧ ∀ q ∈ reqs, P q

theorem Extends.refl (log : List Request) (P : Request → Prop) : Extends log log P := ⟨[], by simp, by simp⟩

theorem Extends.snoc {log log' : List Request} {P : Request → Prop} (h : Extends log log' P) {q : Request} (hq : P q) :
    Extends log (log' ++ [q]) P := by
  obtain ⟨reqs, rfl, hr⟩ := h
  refine ⟨reqs ++ [q], by simp, fun x hx => ?_⟩
  rcases List.mem_append.1 hx with hx | hx
  · exact hr x hx
  · rw [List.mem_singleton.1 hx]; exact hq

theorem Extends.trans {log log' log'' : List Request} {P : Request → Prop} (h : Extends log log' P)
    (h' : Extends log' log'' P) : Extends log log'' P := by
  obtain ⟨reqs, rfl, hr⟩ := h
  obtain ⟨reqs', rfl, hr'⟩ := h'
  exact ⟨reqs ++ reqs', by simp, fun q hq => (List.mem_append.1 hq).elim (hr q) (hr' q)⟩

/-- Neither sector 0 nor a request to write it. -/
def SparesZero (a a' : Ata) : Prop :=
  a'.disk 0 = a.disk 0 ∧ Extends a.log a'.log fun q => q.isWrite = true → q.lba ≠ 0

theorem SparesZero.refl (a : Ata) : SparesZero a a := ⟨rfl, .refl _ _⟩

theorem SparesZero.trans {a a' a'' : Ata} (h : SparesZero a a') (h' : SparesZero a' a'') : SparesZero a a'' :=
  ⟨h'.1.trans h.1, h.2.trans h'.2⟩

theorem sparing_sparesZero (a : Ata) : Models sparing ata fun _ a' => SparesZero a a' := by
  constructor
  · rintro g a' lba ⟨h1, h2⟩ -
    refine ⟨g, trivial, ?_⟩
    simp only [ata, ataReadSector]
    split
    · split
      · exact ⟨h1, h2.snoc (by simp [Request.isWrite])⟩
      · exact ⟨h1, h2.snoc (by simp [Request.isWrite])⟩
    · exact ⟨h1, h2⟩
  · rintro g a' lba b ⟨h1, h2⟩ hlba
    refine ⟨g, trivial, ?_⟩
    simp only [ata, ataWriteSector]
    split
    · split
      · exact ⟨h1, h2.snoc fun _ => hlba⟩
      · refine ⟨?_, h2.snoc fun _ => hlba⟩
        simp only
        rw [Function.update_of_ne (Ne.symm hlba)]
        exact h1
    · exact ⟨h1, h2⟩

theorem Sparing.run {α : Type} {p : FsM α} (h : Sparing p) (c : Conf FsMem Ata) :
    SparesZero c.dev (p.run ata c).2.dev := by
  obtain ⟨-, -, hzero⟩ := wp_sound (sparing_sparesZero c.dev) p (h.zero c.mem) (.refl c.dev)
  exact hzero

/-- No run of calls writes sector 0, whatever fails. -/
theorem runCalls_sparesZero (calls : List Call) (c : Conf FsMem Ata) :
    SparesZero c.dev (runCalls ata calls c).2.dev := by
  induction calls generalizing c with
  | nil => exact .refl _
  | cons call calls ih => exact ((call_sparing call).run c).trans (ih _)

theorem runCalls_sameDrive (calls : List Call) (c : Conf FsMem Ata) :
    SameDrive c.dev (runCalls ata calls c).2.dev := by
  induction calls generalizing c with
  | nil => exact ⟨rfl, rfl, rfl⟩
  | cons call calls ih => exact (run_sameDrive call.prog c).trans (ih _)

end SpectreOS
