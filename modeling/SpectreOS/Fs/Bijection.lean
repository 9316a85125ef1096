/-
The directory under failing requests. The directory pairs names with files (`Bijective`) as long as
no `fs_create` overlooks the entry of its name because the request for it failed, and no `fs_delete`
that has found its entry fails to save what it changed: it frees the inode in memory first, and
leaves it so when a save fails.
-/
import SpectreOS.Fs.Contract
import SpectreOS.Fs.Counted
import SpectreOS.Fs.Faults

namespace SpectreOS

open BlockIO Prog

/-- Every used entry has a name and a file's inode of its own. -/
structure Bijective (d : Nat → Sector) (m : FsMem) : Prop extends Paired d m where
  range : ∀ slot < slotCount, (entryAt d slot).used ≠ 0 → 1 ≤ (entryAt d slot).inode ∧ (entryAt d slot).inode < 128

/-- The requests of a call that have to succeed, numbered from `n` on. `fs_create` must be able to
read the entry its name has. `fs_delete` must not be able to, or else save the bitmap (32 requests)
and the inode (2), and then read the entry again and clear it (3). -/
def Undisturbed (f : Nat → Bool) (n : Nat) (d : Nat → Sector) : Call → Prop
  | .create name => ∀ slot < slotCount, (entryAt d slot).hasName name → f (n + slot) = false
  | .delete name => ∀ slot < slotCount, (entryAt d slot).hasName name → f (n + slot) = true ∨
      (∀ k < 34, f (n + slot + 1 + k) = false) ∧ ∀ k < 3, f (n + 2 * slot + 35 + k) = false
  | _ => True

section

variable {N : Nat} {cp : Primitives} {r w : Bool}

/-- A program that meets its specification under the fault pattern meets it on the machine. -/
theorem Live.exec_counted {s : Conf FsMem Machine} (h : Live cp N r w s) {α : Type} {p : FsM α}
    {Q : α → Nat × (Nat → Sector) → FsMem → Prop}
    (hp : p.wp (counted (· < N) s.dev.ata.faults) Q (requests s, logicalDisk cp s.dev) s.mem) :
    ∃ n, Q (p.run (fsDisk cp) s).1 (n, logicalDisk cp (p.run (fsDisk cp) s).2.dev) (p.run (fsDisk cp) s).2.mem := by
  obtain ⟨slot, hsealed, hserves, -⟩ := h
  obtain ⟨e1, e2, e3, e4⟩ := run_hom (sealed_hom cp slot) p s hsealed
  have hcounts : Counts (· < N) s.dev.ata.faults (requests s, logicalDisk cp s.dev) (unsealed cp slot s.dev.ata) := by
    refine ⟨by simp [unsealed, requests], hserves.disk, rfl, fun lba hlba => ?_⟩
    have h1 := hserves.size
    have h2 := hserves.addressable
    unfold Ata.accepts
    rw [hserves.ready]
    simp only [Bool.true_and, Bool.and_eq_true, decide_eq_true_eq]
    omega
  obtain ⟨⟨n, d'⟩, hq, hc⟩ := wp_sound (counted_models _ _) p (c := ⟨s.mem, unsealed cp slot s.dev.ata⟩) hp hcounts
  rw [← e1, ← e2] at hq
  rw [← e3] at hc
  rw [(e4.logicalDisk_eq cp).trans hc.disk]
  exact ⟨n, hq⟩

variable {d d' : Nat → Sector} {m m' : FsMem}

variable {f : Nat → Bool} {n : Nat} {name : CStr} {res : Int}

theorem CreatedAt.paired (h : Paired d m) (hok : Undisturbed f n d (.create name))
    (hc : CreatedAt f n d m name res d' m') :
    Paired d' m' := by
  -- an inode is claimed only when no entry has the name
  have hno : ∀ slot i, Claims f n d m name slot i → ∀ j < slotCount, ¬ (entryAt d j).hasName name := by
    intro slot i hclaims j hj hn
    have hf := firstServed_none.1 hclaims.absent j hj (decide_eq_true hn)
    rw [hok j hj hn] at hf
    cases hf
  have hmodes : ∀ slot i (inode : Inode), Claims f n d m name slot i → ∀ j < slotCount, (entryAt d j).used ≠ 0 →
      ((setInode m i inode).inode (entryAt d j).inode).mode = (m.inode (entryAt d j).inode).mode := by
    intro slot i inode hclaims j hj hu
    rw [inode_setInode, if_neg fun hc => h.firstFreeInode_ne hclaims.inode hj hu hc.1]
  cases hc with
  | refused => exact h
  | unsaved slot i hclaims => exact h.congr (fun _ _ => rfl) (hmodes slot i _ hclaims)
  | undone slot i d' hclaims _ _ hd =>
    exact h.congr (fun j hj => entryAt_congr (hd _ (by omega))) (hmodes slot i _ hclaims)
  | done slot i hclaims => exact h.created hclaims.valid (hno slot i hclaims) hclaims.inode

theorem DeletedAt.paired (hS : Sound N d m) (h : Paired d m) (hok : Undisturbed f n d (.delete name))
    (hc : DeletedAt f n d m name res d' m') : Paired d' m' := by
  cases hc with
  | refused => exact h
  | unsaved k d' _ _ hfound hfail =>
    obtain ⟨hk, hn, hf⟩ := firstServed_some hfound
    obtain ⟨hsaves, -⟩ := (hok k hk (of_decide_eq_true hn)).resolve_left (by simp [hf])
    obtain ⟨q, hq, hfq⟩ := hfail
    rw [hsaves q hq] at hfq
    cases hfq
  | saved k d' _ _ hfound _ hd =>
    obtain ⟨hk, hn, hf⟩ := firstServed_some hfound
    have hn := of_decide_eq_true hn
    obtain ⟨-, hclear⟩ := (hok k hk hn).resolve_left (by simp [hf])
    have hentry : ∀ j, entryAt d' j = entryAt d j := fun j => entryAt_congr (hd _ (by omega))
    -- the entry that was found is the only one with its inode
    have hfirst : firstServed f (n + k + 35) (refersTo d' (entryAt d k).inode) = some k := by
      rw [firstServed_unique hk, if_neg]
      · rw [show n + k + 35 + k = n + 2 * k + 35 + 0 by omega, hclear 0 (by omega)]
        simp
      · rw [refersTo, hentry]
        exact decide_eq_true ⟨hn.1, rfl⟩
      · intro j hj href
        rw [refersTo, hentry] at href
        obtain ⟨hu, hi⟩ := of_decide_eq_true href
        exact h.once j hj k hk hu hn.1 hi
    rw [clearedAt, hfirst]
    dsimp only
    rw [if_pos ⟨by rw [show n + k + 35 + k + 1 = n + 2 * k + 35 + 1 by omega]; exact hclear 1 (by omega),
      by rw [show n + k + 35 + k + 2 = n + 2 * k + 35 + 2 by omega]; exact hclear 2 (by omega)⟩]
    refine h.cleared hS hk hn.1 (entryAt_withEntry _ k (by simp [Dirent.zero]) (by simp [Dirent.zero])) fun j hj => ?_
    rw [entryAt_withEntry_of_ne _ hj, hentry]

/-- The calls other than `fs_create` and `fs_delete` leave the directory and the modes alone. -/
theorem CallEffect.paired {call : Call} {ret : Ret} (hS : Sound N d m) (h : Paired d m)
    (hcreate : ∀ name, call ≠ .create name) (hdelete : ∀ name, call ≠ .delete name)
    (hc : CallEffect r w d m call ret d' m') : Paired d' m' := by
  cases call with
  | create name => exact absurd rfl (hcreate name)
  | delete name => exact absurd rfl (hdelete name)
  | exist name => obtain ⟨rfl, rfl, -⟩ := hc; exact h
  | «open» name =>
    obtain ⟨rfl, -, hc⟩ := hc
    generalize ret.val = v at hc
    cases hc with
    | refused => exact h
    | done => exact h.congr (fun _ _ => rfl) fun _ _ _ => rfl
  | close fd =>
    obtain ⟨rfl, -, hc⟩ := hc
    split at hc
    · rw [hc.2]; exact h.congr (fun _ _ => rfl) fun _ _ _ => rfl
    · rw [hc.2]; exact h
  | read fd buffer size =>
    obtain ⟨rfl, hc⟩ := hc
    exact h.congr (fun _ _ => rfl) fun j _ _ => by rw [hc.frame.1]
  | write fd buffer =>
    obtain ⟨h1, h2, -⟩ := hc.2.frame hS
    exact h.congr h1 fun _ _ _ => h2 _
  | list buffer size => obtain ⟨rfl, rfl⟩ := hc; exact h

/-! ## Runs -/

/-- What `fs_create` does, by the requests that fail. -/
theorem Live.create_counted {s : Conf FsMem Machine} (h : Live cp N r w s) (name : CStr) :
    CreatedAt s.dev.ata.faults (requests s) (logicalDisk cp s.dev) s.mem name ((fsCreate name).run (fsDisk cp) s).1
      (logicalDisk cp ((fsCreate name).run (fsDisk cp) s).2.dev) ((fsCreate name).run (fsDisk cp) s).2.mem := by
  obtain ⟨n, hc⟩ := h.exec_counted (fsCreate_counted name h.sound fun _ h => h)
  exact hc

theorem Live.delete_counted {s : Conf FsMem Machine} (h : Live cp N r w s) (name : CStr) :
    DeletedAt s.dev.ata.faults (requests s) (logicalDisk cp s.dev) s.mem name ((fsDelete name).run (fsDisk cp) s).1
      (logicalDisk cp ((fsDelete name).run (fsDisk cp) s).2.dev) ((fsDelete name).run (fsDisk cp) s).2.mem := by
  obtain ⟨n, hc⟩ := h.exec_counted (fsDelete_counted name h.sound fun _ h => h)
  exact hc

theorem Call.create_run {δ : Type} (D : Device δ Sector) (name : CStr) (s : Conf FsMem δ) :
    ((Call.create name).prog.run D s).2 = ((fsCreate name).run D s).2 := by
  rw [Call.prog, run_bind]
  rfl

theorem Call.delete_run {δ : Type} (D : Device δ Sector) (name : CStr) (s : Conf FsMem δ) :
    ((Call.delete name).prog.run D s).2 = ((fsDelete name).run D s).2 := by
  rw [Call.prog, run_bind]
  rfl

theorem Live.withFaults {s : Conf FsMem Machine} (h : Live cp N r w s) (f : Nat → Bool) :
    Live cp N true true (withFaults s f) := by
  obtain ⟨slot, hsealed, hserves, hsound⟩ := h
  refine ⟨slot, hsealed.withAta _, ⟨hserves.disk, hserves.ready, hserves.size, hserves.addressable, .inl ⟨rfl, rfl⟩⟩,
    hsound⟩

/-- Nothing fails any more. -/
theorem Live.healed {s : Conf FsMem Machine} (h : Live cp N r w s) :
    Live cp N false false (SpectreOS.withFaults s fun _ => false) := by
  obtain ⟨slot, hsealed, hserves, hsound⟩ := h
  exact ⟨slot, hsealed.withAta _, ⟨hserves.disk, hserves.ready, hserves.size, hserves.addressable, .inr fun _ => rfl⟩,
    hsound⟩

/-- A program whose requests are all served meets its specification, whatever has failed before. -/
theorem Live.exec_served {s : Conf FsMem Machine} (h : Live cp N r w s) {α : Type} {p : FsM α}
    {Q : α → (Nat → Sector) → FsMem → Prop} (hp : p.wp (exact N false false) Q (logicalDisk cp s.dev) s.mem)
    (hQ : ∀ a d m, Q a d m → Sound N d m)
    (hf : ∀ n, requests s ≤ n → n < requests (p.run (fsDisk cp) s).2 → s.dev.ata.faults n = false) :
    Q (p.run (fsDisk cp) s).1 (logicalDisk cp (p.run (fsDisk cp) s).2.dev) (p.run (fsDisk cp) s).2.mem := by
  have hrun := @run_withFaults cp s (fun _ => false) α p fun n h1 h2 => (hf n h1 h2).symm
  obtain ⟨hq, -⟩ := h.healed.exec hp hQ
  rw [hrun] at hq
  exact hq

/-- A well-formed filesystem stays one in every run of calls, whatever fails. -/
theorem Reached.live_calls {s₀ : Conf FsMem Machine} {a : Files} (h : Reached cp N s₀ a) (f : Nat → Bool)
    (calls : List Call) : Live cp N true true (SpectreOS.runCalls (fsDisk cp) calls (SpectreOS.withFaults s₀ f)).2 :=
  ((h.running.live.withFaults f).runCalls_all (J := fun _ _ => True) (fun _ _ _ _ _ _ _ _ _ => trivial) calls trivial).1

/-- An undisturbed call keeps the directory paired. -/
theorem Live.call_paired {s : Conf FsMem Machine} (h : Live cp N r w s) (hP : Paired (logicalDisk cp s.dev) s.mem)
    {call : Call} (hok : Undisturbed s.dev.ata.faults (requests s) (logicalDisk cp s.dev) call) :
    Paired (logicalDisk cp (call.prog.run (fsDisk cp) s).2.dev) (call.prog.run (fsDisk cp) s).2.mem := by
  have heff := (h.call call).1
  cases call with
  | create name =>
    rw [Call.create_run]
    exact (h.create_counted name).paired hP hok
  | delete name =>
    rw [Call.delete_run]
    exact (h.delete_counted name).paired h.sound hP hok
  | exist name => exact heff.paired h.sound hP (by simp) (by simp)
  | «open» name => exact heff.paired h.sound hP (by simp) (by simp)
  | close fd => exact heff.paired h.sound hP (by simp) (by simp)
  | read fd buffer size => exact heff.paired h.sound hP (by simp) (by simp)
  | write fd buffer => exact heff.paired h.sound hP (by simp) (by simp)
  | list buffer size => exact heff.paired h.sound hP (by simp) (by simp)

/-- Every call of the run is undisturbed. -/
def UndisturbedRun (cp : Primitives) (calls : List Call) (s : Conf FsMem Machine) : Prop :=
  EveryStep (fun call s => Undisturbed s.dev.ata.faults (requests s) (logicalDisk cp s.dev) call) (fsDisk cp) calls s

theorem Live.runCalls_paired (calls : List Call) {s : Conf FsMem Machine} (h : Live cp N r w s)
    (hP : Paired (logicalDisk cp s.dev) s.mem) (hok : UndisturbedRun cp calls s) :
    Live cp N r w (SpectreOS.runCalls (fsDisk cp) calls s).2 ∧
      Paired (logicalDisk cp (SpectreOS.runCalls (fsDisk cp) calls s).2.dev)
        (SpectreOS.runCalls (fsDisk cp) calls s).2.mem := by
  induction calls generalizing s with
  | nil => exact ⟨h, hP⟩
  | cons call calls ih => exact ih (h.call call).2 (h.call_paired hP hok.1) hok.2

/-- In every run of undisturbed calls the directory is paired with the files, whatever other
requests fail. -/
theorem directory_bijective {s₀ : Conf FsMem Machine} {a : Files} (h : Reached cp N s₀ a) (f : Nat → Bool)
    (calls : List Call) (hok : UndisturbedRun cp calls (withFaults s₀ f)) :
    let s := (runCalls (fsDisk cp) calls (withFaults s₀ f)).2
    Bijective (logicalDisk cp s.dev) s.mem := by
  have hrun := h.running
  obtain ⟨hlive', hpaired⟩ := (hrun.live.withFaults f).runCalls_paired calls hrun.refines.linked.toPaired hok
  exact ⟨hpaired, hlive'.sound.entries⟩

/-! ## Fault patterns -/

/-- Where nothing fails, no call is disturbed. -/
theorem undisturbed_healthy {s : Conf FsMem Machine} (hf : ∀ n, s.dev.ata.faults n = false) (calls : List Call) :
    UndisturbedRun cp calls s := by
  induction calls generalizing s with
  | nil => trivial
  | cons call calls ih =>
    refine ⟨?_, ih fun n => by rw [(run_requests cp call.prog s).1]; exact hf n⟩
    cases call with
    | create name => exact fun slot _ _ => hf _
    | delete name => exact fun slot _ _ => .inr ⟨fun k _ => hf _, fun k _ => hf _⟩
    | _ => trivial

/-- A machine on which the file "a" is the only one. -/
structure OnlyFile (s : Conf FsMem Machine) (slot : Nat) : Prop where
  live : Live nullPrimitives 200 true true s
  ready : s.mem.filesystemReady = true
  slot_lt : slot < slotCount
  entry : entryAt (logicalDisk nullPrimitives s.dev) slot = newEntry nameA 1
  others : ∀ j < slotCount, j ≠ slot → (entryAt (logicalDisk nullPrimitives s.dev) j).used = 0
  inode : s.mem.inode 1 = .fresh

theorem Fresh.onlyFile {s : Conf FsMem Machine} (hlive : Live nullPrimitives 200 false false s)
    (hfresh : Fresh 200 (logicalDisk nullPrimitives s.dev) s.mem) :
    ∃ slot, OnlyFile (runCalls (fsDisk nullPrimitives) [.create nameA] s).2 slot := by
  obtain ⟨⟨-, heff⟩, hlive'⟩ := hlive.call (.create nameA)
  obtain ⟨hm, slot, hs, he, ho⟩ := hfresh.vacant.create (by decide) heff
  refine ⟨slot, hlive'.withFaults _, ?_, hs, he, ho, ?_⟩
  · show ((Call.create nameA).prog.run (fsDisk nullPrimitives) s).2.mem.filesystemReady = true
    rw [hm]
    exact hfresh.ready
  · show ((Call.create nameA).prog.run (fsDisk nullPrimitives) s).2.mem.inode 1 = .fresh
    rw [hm, inode_setInode, if_pos ⟨rfl, by omega⟩]

/-- Formatting a disk and creating "a", under a pattern that is healthy until then. -/
theorem onlyFile_boot : ∃ s slot, OnlyFile s slot ∧ ∀ f : Nat → Bool, (∀ n < requests s, f n = false) →
    ∃ s₀, fsFormat (current nullPrimitives) (fun _ => 0) (withFaults (bootConf (blankDrive 200)) f) = (true, s₀) ∧
      (runCalls (fsDisk nullPrimitives) [.create nameA] s₀).2 = withFaults s f := by
  have h := fsFormat_boot nullPrimitives (fun _ => 0) (a := blankDrive 200) rfl (by decide) fun _ => rfl
  obtain ⟨hlive, hfresh⟩ := @fsFormat_live nullPrimitives _ 200 false false _ (Registry.boot _)
    (.inr fun _ => rfl) h rfl
  obtain ⟨slot, honly⟩ := Fresh.onlyFile hlive hfresh
  refine ⟨_, slot, honly, fun f hf => ?_⟩
  obtain ⟨h1, h2⟩ := history_withFaults (Registry.boot _) h (fun _ => rfl) [.create nameA] hf
  exact ⟨_, h1, congrArg Prod.snd h2⟩

theorem OnlyFile.hasName {s : Conf FsMem Machine} {slot : Nat} (h : OnlyFile s slot) :
    (entryAt (logicalDisk nullPrimitives s.dev) slot).hasName nameA := by
  rw [h.entry]
  exact (hasName_newEntry (by decide) 1).2 rfl

/-- The first request after the scan of `fs_delete` fails: the file loses its inode and keeps its
entry. -/
theorem OnlyFile.delete_fails {s : Conf FsMem Machine} {slot : Nat} (h : OnlyFile s slot) {f : Nat → Bool}
    (h0 : f (requests s + slot) = false) (h1 : f (requests s + slot + 1) = true) :
    let r := (fsDelete nameA).run (fsDisk nullPrimitives) (SpectreOS.withFaults s f)
    r.1 = 0 ∧ r.2.mem = releaseInode s.mem 1 ∧
      ∀ j, entryAt (logicalDisk nullPrimitives r.2.dev) j = entryAt (logicalDisk nullPrimitives s.dev) j := by
  intro r
  have hc : DeletedAt f (requests s) (logicalDisk nullPrimitives s.dev) s.mem nameA r.1
      (logicalDisk nullPrimitives r.2.dev) r.2.mem := (h.live.withFaults f).delete_counted nameA
  have hfound : firstServed f (requests s) (named (logicalDisk nullPrimitives s.dev) nameA) = some slot := by
    rw [firstServed_unique h.slot_lt (decide_eq_true h.hasName), if_neg (by simp [h0])]
    intro j hj hn
    by_contra hne
    exact (of_decide_eq_true hn).1 (h.others j hj hne)
  generalize r.1 = res at hc ⊢
  generalize logicalDisk nullPrimitives r.2.dev = d' at hc ⊢
  generalize r.2.mem = m' at hc ⊢
  cases hc with
  | refused hwhy =>
    rw [hwhy h.ready (by decide)] at hfound
    cases hfound
  | unsaved k d' _ _ hk _ hd =>
    obtain rfl : k = slot := Option.some.inj (hk.symm.trans hfound)
    refine ⟨rfl, by rw [h.entry]; rfl, fun j => entryAt_congr (hd _ (by omega))⟩
  | saved k d' _ _ hk hsaves =>
    obtain rfl : k = slot := Option.some.inj (hk.symm.trans hfound)
    have := hsaves 0 (by omega)
    rw [Nat.add_zero, h1] at this
    cases this

/-- A run in which every third request fails. -/
theorem directory_bijective_boot :
    ∃ s₀, fsFormat (current nullPrimitives) (fun _ => 0) (bootConf (blankDrive 200)) = (true, s₀) ∧
      let s := (runCalls (fsDisk nullPrimitives) [.create nameA, .open nameA, .write 0 (some [0x78])]
        (withFaults s₀ fun n => n % 3 == 2)).2
      Bijective (logicalDisk nullPrimitives s.dev) s.mem := by
  obtain ⟨s₀, hs₀, hreach⟩ := reached_boot nullPrimitives
  refine ⟨s₀, hs₀, directory_bijective hreach _ _ ⟨fun slot hslot hname => ?_, trivial, trivial, trivial⟩⟩
  have h := fsFormat_boot nullPrimitives (fun _ => 0) (a := blankDrive 200) rfl (by decide) fun _ => rfl
  have hlive := fsFormat_live (r := false) (w := false) (Registry.boot _) (.inr fun _ => rfl) h rfl
  rw [hs₀] at hlive
  have hfresh := hlive.2
  -- no entry has the name yet
  exact absurd (hfresh.vacant.entries slot hslot) hname.1

/-- A failed save in `fs_delete` leaves an entry whose inode is free. -/
theorem directory_dangling_boot :
    ∃ f s₀, fsFormat (current nullPrimitives) (fun _ => 0) (withFaults (bootConf (blankDrive 200)) f) = (true, s₀) ∧
      let s := (runCalls (fsDisk nullPrimitives) [.create nameA, .delete nameA] s₀).2
      ¬ Bijective (logicalDisk nullPrimitives s.dev) s.mem := by
  obtain ⟨s, slot, honly, hhistory⟩ := onlyFile_boot
  obtain ⟨f, hf⟩ : ∃ f : Nat → Bool, ∀ n, f n = decide (n = requests s + slot + 1) := ⟨_, fun _ => rfl⟩
  obtain ⟨s₀, hformat, hcreate⟩ := hhistory f fun n hn => by
    rw [hf, decide_eq_false (by omega)]
  refine ⟨f, s₀, hformat, ?_⟩
  have hrun : (runCalls (fsDisk nullPrimitives) [.create nameA, .delete nameA] s₀).2 =
      ((fsDelete nameA).run (fsDisk nullPrimitives) (SpectreOS.withFaults s f)).2 := by
    rw [← hcreate, ← Call.delete_run]
    rfl
  intro s' hb
  obtain ⟨-, hmem, hentries⟩ := honly.delete_fails (f := f) (by rw [hf, decide_eq_false (by omega)])
    (by rw [hf, decide_eq_true rfl])
  rw [← hrun] at hmem hentries
  have hfile := hb.file slot honly.slot_lt (by rw [hentries, honly.entry]; simp [newEntry])
  rw [hentries, honly.entry, hmem, (releaseInode_spec _ _ honly.live.sound.owned.totalHi).1,
    if_pos ⟨rfl, by omega⟩] at hfile
  cases hfile

end

end SpectreOS
