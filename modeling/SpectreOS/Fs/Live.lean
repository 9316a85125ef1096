/-
A mounted, encrypted filesystem at work: the crypto slot over a drive that serves the sectors, and
a well-formed filesystem on the disk it shows (`Live`). A successful format leads to it, every call
keeps it and has its effect on the logical disk, and so does every run of calls.
-/
import SpectreOS.Fs.Effects
import SpectreOS.Fs.Runs

namespace SpectreOS

open BlockIO Prog

/-- A mounted filesystem over a crypto slot; unless both reads and writes may fail, none does. -/
def Live (cp : Primitives) (N : Nat) (r w : Bool) (s : Conf FsMem Machine) : Prop :=
  ∃ slot, Sealed slot s.dev ∧ Serves N r w (logicalDisk cp s.dev) (unsealed cp slot s.dev.ata) ∧
    Sound N (logicalDisk cp s.dev) s.mem

section

variable {cp : Primitives} {material : Nat → Byte} {N : Nat} {r w : Bool}

theorem Live.sound {s : Conf FsMem Machine} (h : Live cp N r w s) : Sound N (logicalDisk cp s.dev) s.mem := by
  obtain ⟨-, -, -, hS⟩ := h
  exact hS

/-- A program that meets its specification on the logical disk meets it on the machine. -/
theorem Live.exec {s : Conf FsMem Machine} (h : Live cp N r w s) {α : Type} {p : FsM α}
    {Q : α → (Nat → Sector) → FsMem → Prop} (hp : p.wp (exact N r w) Q (logicalDisk cp s.dev) s.mem)
    (hQ : ∀ a d m, Q a d m → Sound N d m) :
    Q (p.run (fsDisk cp) s).1 (logicalDisk cp (p.run (fsDisk cp) s).2.dev) (p.run (fsDisk cp) s).2.mem ∧
      Live cp N r w (p.run (fsDisk cp) s).2 := by
  obtain ⟨slot, hsealed, hserves, -⟩ := h
  obtain ⟨e1, e2, e3, e4⟩ := run_hom (sealed_hom cp slot) p s hsealed
  obtain ⟨d', hq, hs'⟩ := wp_sound (Serves.models N r w) p (c := ⟨s.mem, unsealed cp slot s.dev.ata⟩) hp hserves
  rw [← e1, ← e2] at hq
  rw [← e3] at hs'
  have hd : logicalDisk cp (p.run (fsDisk cp) s).2.dev = d' := (e4.logicalDisk_eq cp).trans hs'.disk
  rw [hd]
  exact ⟨hq, slot, e4, by rw [hd]; exact hs', by rw [hd]; exact hQ _ _ _ hq⟩

/-- What one call does to a mounted filesystem. -/
theorem Live.call {s : Conf FsMem Machine} (h : Live cp N r w s) (call : Call) :
    CallEffect r w (logicalDisk cp s.dev) s.mem call (call.prog.run (fsDisk cp) s).1
        (logicalDisk cp (call.prog.run (fsDisk cp) s).2.dev) (call.prog.run (fsDisk cp) s).2.mem ∧
      Live cp N r w (call.prog.run (fsDisk cp) s).2 :=
  h.exec (call_exact h.sound call) fun _ _ _ hc => hc.sound h.sound

/-- What every call keeps holds after every run. -/
theorem Live.runCalls {ok : Call → Conf FsMem Machine → Prop} {J : (Nat → Sector) → FsMem → Prop}
    (hJ : ∀ s call ret d' m', Sound N (logicalDisk cp s.dev) s.mem → J (logicalDisk cp s.dev) s.mem → ok call s →
      CallEffect r w (logicalDisk cp s.dev) s.mem call ret d' m' → J d' m')
    (calls : List Call) {s : Conf FsMem Machine} (h : Live cp N r w s) (h0 : J (logicalDisk cp s.dev) s.mem)
    (hok : EveryStep ok (fsDisk cp) calls s) :
    Live cp N r w (runCalls (fsDisk cp) calls s).2 ∧
      J (logicalDisk cp (runCalls (fsDisk cp) calls s).2.dev) (runCalls (fsDisk cp) calls s).2.mem := by
  induction calls generalizing s with
  | nil => exact ⟨h, h0⟩
  | cons call calls ih =>
    obtain ⟨heff, hlive⟩ := h.call call
    exact ih hlive (hJ s call _ _ _ h.sound h0 hok.1 heff) hok.2

theorem Live.runCalls_all {J : (Nat → Sector) → FsMem → Prop}
    (hJ : ∀ d m call ret d' m', Sound N d m → J d m → CallEffect r w d m call ret d' m' → J d' m')
    (calls : List Call) {s : Conf FsMem Machine} (h : Live cp N r w s) (h0 : J (logicalDisk cp s.dev) s.mem) :
    Live cp N r w (SpectreOS.runCalls (fsDisk cp) calls s).2 ∧
      J (logicalDisk cp (SpectreOS.runCalls (fsDisk cp) calls s).2.dev)
        (SpectreOS.runCalls (fsDisk cp) calls s).2.mem :=
  h.runCalls (fun _ _ _ _ _ hS h0 _ hc => hJ _ _ _ _ _ _ hS h0 hc) calls h0 (everyStep_true calls s)

/-- No run changes the crypto slot, the superblock or sector 0, which the superblock is on. -/
theorem Sealed.runCalls_frame {slot : CryptoSlot} {s : Conf FsMem Machine} (h : Sealed slot s.dev)
    (cp : Primitives) (hO : Owned s.mem) (calls : List Call) :
    let s' := (SpectreOS.runCalls (fsDisk cp) calls s).2
    Sealed slot s'.dev ∧ s'.dev.ata.disk 0 = s.dev.ata.disk 0 ∧ s'.mem.superblock = s.mem.superblock ∧
      SameDrive s.dev.ata s'.dev.ata := by
  intro s'
  obtain ⟨-, -, e3, e4⟩ := runCalls_hom (sealed_hom cp slot) calls s h
  obtain ⟨hzero, -⟩ := runCalls_sparesZero calls ⟨s.mem, unsealed cp slot s.dev.ata⟩
  have hdrive := runCalls_sameDrive calls ⟨s.mem, unsealed cp slot s.dev.ata⟩
  rw [← e3] at hzero hdrive
  refine ⟨e4, ?_, ?_, hdrive.1, hdrive.2.1, hdrive.2.2⟩
  · -- unsealing sector 0 is injective
    have hinj := congrArg (cryptoXorSector cp slot 0) hzero
    simpa only [unsealed, cryptoXorSector_involutive] using hinj
  · exact (runCalls_invariant (D := fsDisk cp) (J := fun m => m.superblock = s.mem.superblock)
      (fun m call m' hO hJ _ hm => (hm.superblock hO).trans hJ) calls s hO rfl (everyStep_true calls _)).2

/-- A successful format mounts a fresh filesystem. -/
theorem fsFormat_live {c : Conf FsMem Machine} (hreg : Registry c.dev)
    (hf : r = true ∧ w = true ∨ ∀ n, c.dev.ata.faults n = false) (h : (fsFormat (current cp) material c).1 = true)
    (hN : min c.dev.ata.diskSectors 131072 = N) :
    Live cp N r w (fsFormat (current cp) material c).2 ∧
      Fresh N (logicalDisk cp (fsFormat (current cp) material c).2.dev) (fsFormat (current cp) material c).2.mem := by
  obtain ⟨-, -, hsame, -, slot, -, -, hsealed, hfresh⟩ := fsFormat_current hreg h hN
  have hready : (fsFormat (current cp) material c).2.dev.ata.diskReady = true := by
    obtain ⟨b, d, c₁, c₂, hp, -⟩ := fsFormat_ok h
    exact hsame.1.trans hp
  generalize (fsFormat (current cp) material c).2 = s at *
  rw [hsealed.logicalDisk_eq cp]
  refine ⟨⟨slot, hsealed, ?_, ?_⟩, hfresh⟩
  · rw [hsealed.logicalDisk_eq cp]
    exact ⟨rfl, hready, le_of_le_of_eq (by omega) hsame.2.1.symm, hfresh.hi,
      hf.imp_right fun hf n => (congrFun hsame.2.2 n).trans (hf n)⟩
  · rw [hsealed.logicalDisk_eq cp]
    exact hfresh.sound hfresh.owned

end

end SpectreOS
