/-
Fault patterns: a request fails by its number, so a run is not affected by the pattern beyond the
requests it makes, and two patterns that agree on these give the same run.
-/
import SpectreOS.Disk.Blockdev

namespace SpectreOS

open BlockIO Prog

/-- The drive with another fault pattern. -/
def Ata.withFaults (a : Ata) (f : Nat → Bool) : Ata := { a with faults := f }

def Machine.withFaults (m : Machine) (f : Nat → Bool) : Machine := { m with ata := m.ata.withFaults f }

section Drive

variable {a : Ata} {f : Nat → Bool}

theorem ataReadSector_counts (a : Ata) (lba : Nat) :
    (ataReadSector a lba).2.faults = a.faults ∧ a.log.length ≤ (ataReadSector a lba).2.log.length := by
  unfold ataReadSector
  split_ifs <;> simp [Ata.record]

theorem ataWriteSector_counts (a : Ata) (lba : Nat) (s : Sector) :
    (ataWriteSector a lba s).2.faults = a.faults ∧ a.log.length ≤ (ataWriteSector a lba s).2.log.length := by
  unfold ataWriteSector
  split_ifs <;> simp [Ata.record]

theorem ataReadSector_withFaults {lba : Nat}
    (h : a.log.length < (ataReadSector a lba).2.log.length → f a.log.length = a.faults a.log.length) :
    ataReadSector (a.withFaults f) lba = ((ataReadSector a lba).1, (ataReadSector a lba).2.withFaults f) := by
  have hacc : (a.withFaults f).accepts lba = a.accepts lba := rfl
  unfold ataReadSector at h ⊢
  rw [hacc]
  by_cases ha : a.accepts lba = true
  · have hf : (a.withFaults f).faults (a.withFaults f).log.length = a.faults a.log.length := by
      apply h
      rw [if_pos ha]
      split <;> simp [Ata.record]
    rw [if_pos ha, if_pos ha, hf]
    split <;> rfl
  · rw [if_neg ha, if_neg ha]

theorem ataWriteSector_withFaults {lba : Nat} {s : Sector}
    (h : a.log.length < (ataWriteSector a lba s).2.log.length → f a.log.length = a.faults a.log.length) :
    ataWriteSector (a.withFaults f) lba s = ((ataWriteSector a lba s).1, (ataWriteSector a lba s).2.withFaults f) := by
  have hacc : (a.withFaults f).accepts lba = a.accepts lba := rfl
  unfold ataWriteSector at h ⊢
  rw [hacc]
  by_cases ha : a.accepts lba = true
  · have hf : (a.withFaults f).faults (a.withFaults f).log.length = a.faults a.log.length := by
      apply h
      rw [if_pos ha]
      split <;> simp [Ata.record]
    rw [if_pos ha, if_pos ha, hf]
    split <;> rfl
  · rw [if_neg ha, if_neg ha]

end Drive

/-! ## Through the registry -/

section Registry

variable {cp : Primitives} {f : Nat → Bool}

theorem blockdevReadSector_counts (cp : Primitives) (depth : Nat) (m : Machine) (id lba : Nat) :
    (blockdevReadSector cp depth m id lba).2.ata.faults = m.ata.faults ∧
      m.ata.log.length ≤ (blockdevReadSector cp depth m id lba).2.ata.log.length := by
  induction depth generalizing id with
  | zero => exact ⟨rfl, le_rfl⟩
  | succ depth ih =>
    unfold blockdevReadSector
    split
    · exact ⟨rfl, le_rfl⟩
    · split
      · exact ataReadSector_counts m.ata lba
      · exact ⟨rfl, le_rfl⟩
      · rename_i slot _
        unfold cryptoReadSector
        split
        · exact ⟨rfl, le_rfl⟩
        · have := ih (m.slots slot).backingDeviceId
          split <;> simp_all

theorem blockdevReadSector_withFaults (depth : Nat) (m : Machine) (id lba : Nat)
    (h : m.ata.log.length < (blockdevReadSector cp depth m id lba).2.ata.log.length →
      f m.ata.log.length = m.ata.faults m.ata.log.length) :
    blockdevReadSector cp depth (m.withFaults f) id lba =
      ((blockdevReadSector cp depth m id lba).1, (blockdevReadSector cp depth m id lba).2.withFaults f) := by
  induction depth generalizing id with
  | zero => rfl
  | succ depth ih =>
    have hget : blockdevGet (m.withFaults f) id = blockdevGet m id := rfl
    unfold blockdevReadSector at h ⊢
    rw [hget]
    cases hdev : blockdevGet m id with
    | none => rfl
    | some device =>
      simp only [hdev] at h ⊢
      cases hdrv : device.driver with
      | ata =>
        simp only [hdrv] at h ⊢
        have hr := ataReadSector_withFaults h
        simp only [Machine.withFaults, hr]
      | ramdisk => rfl
      | crypto slot =>
        simp only [hdrv] at h ⊢
        unfold cryptoReadSector at h ⊢
        have hslots : (m.withFaults f).slots = m.slots := rfl
        rw [hslots]
        by_cases hu : (!(m.slots slot).inUse) = true
        · rw [if_pos hu, if_pos hu]
        · rw [if_neg hu] at h
          rw [if_neg hu, if_neg hu, ih (m.slots slot).backingDeviceId]
          · rcases blockdevReadSector cp depth m (m.slots slot).backingDeviceId lba with ⟨_ | cipher, m'⟩ <;> rfl
          · intro hlt
            apply h
            rcases hrun : blockdevReadSector cp depth m (m.slots slot).backingDeviceId lba with ⟨_ | cipher, m'⟩ <;>
              rw [hrun] at hlt <;> exact hlt

theorem blockdevWriteSector_counts (cp : Primitives) (depth : Nat) (m : Machine) (id lba : Nat) (s : Sector) :
    (blockdevWriteSector cp depth m id lba s).2.ata.faults = m.ata.faults ∧
      m.ata.log.length ≤ (blockdevWriteSector cp depth m id lba s).2.ata.log.length := by
  induction depth generalizing id s with
  | zero => exact ⟨rfl, le_rfl⟩
  | succ depth ih =>
    unfold blockdevWriteSector
    split
    · exact ⟨rfl, le_rfl⟩
    · split
      · exact ataWriteSector_counts m.ata lba s
      · unfold ramdiskWriteSector
        split <;> exact ⟨rfl, le_rfl⟩
      · unfold cryptoWriteSector
        split
        · exact ⟨rfl, le_rfl⟩
        · exact ih _ _

theorem blockdevWriteSector_withFaults (depth : Nat) (m : Machine) (id lba : Nat) (s : Sector)
    (h : m.ata.log.length < (blockdevWriteSector cp depth m id lba s).2.ata.log.length →
      f m.ata.log.length = m.ata.faults m.ata.log.length) :
    blockdevWriteSector cp depth (m.withFaults f) id lba s =
      ((blockdevWriteSector cp depth m id lba s).1, (blockdevWriteSector cp depth m id lba s).2.withFaults f) := by
  induction depth generalizing id s with
  | zero => rfl
  | succ depth ih =>
    have hget : blockdevGet (m.withFaults f) id = blockdevGet m id := rfl
    unfold blockdevWriteSector at h ⊢
    rw [hget]
    cases hdev : blockdevGet m id with
    | none => rfl
    | some device =>
      simp only [hdev] at h ⊢
      cases hdrv : device.driver with
      | ata =>
        simp only [hdrv] at h ⊢
        have hr := ataWriteSector_withFaults h
        simp only [Machine.withFaults, hr]
      | ramdisk =>
        simp only [ramdiskWriteSector]
        have hready : (m.withFaults f).ramdiskReady = m.ramdiskReady := rfl
        rw [hready]
        split <;> rfl
      | crypto slot =>
        simp only [hdrv] at h ⊢
        unfold cryptoWriteSector at h ⊢
        have hslots : (m.withFaults f).slots = m.slots := rfl
        rw [hslots]
        by_cases hu : (!(m.slots slot).inUse) = true
        · rw [if_pos hu, if_pos hu]
        · rw [if_neg hu] at h
          rw [if_neg hu, if_neg hu]
          exact ih _ _ h

/-- A run through the filesystem's device is affected by the faults of its own requests only. -/
theorem fsDisk_numbered (cp : Primitives) (F f : Nat → Bool) :
    Numbered (fsDisk cp) (fun m => m.ata.log.length) (fun m => m.ata.faults = F) (·.withFaults f)
      fun n => f n = F n := by
  refine ⟨fun m lba hm h => ?_, fun m lba s hm h => ?_, fun m lba hm => ?_, fun m lba s hm => ?_⟩
  · subst hm
    exact blockdevReadSector_withFaults _ m _ lba h
  · subst hm
    exact blockdevWriteSector_withFaults _ m _ lba s h
  · obtain ⟨h1, h2⟩ := blockdevReadSector_counts cp (cryptoDiskMaxSlots + 1) m m.fsDiskDeviceId lba
    exact ⟨h1.trans hm, h2⟩
  · obtain ⟨h1, h2⟩ := blockdevWriteSector_counts cp (cryptoDiskMaxSlots + 1) m m.fsDiskDeviceId lba s
    exact ⟨h1.trans hm, h2⟩

theorem rawDisk_numbered (F f : Nat → Bool) :
    Numbered rawDisk (fun m => m.ata.log.length) (fun m => m.ata.faults = F) (·.withFaults f) fun n => f n = F n := by
  refine ⟨fun m lba hm h => ?_, fun m lba s hm h => ?_, fun m lba hm => ?_, fun m lba s hm => ?_⟩
  · subst hm
    have hr := ataReadSector_withFaults h
    simp only [rawDisk, Machine.withFaults, hr]
  · subst hm
    have hr := ataWriteSector_withFaults h
    simp only [rawDisk, Machine.withFaults, hr]
  · obtain ⟨h1, h2⟩ := ataReadSector_counts m.ata lba
    exact ⟨h1.trans hm, h2⟩
  · obtain ⟨h1, h2⟩ := ataWriteSector_counts m.ata lba s
    exact ⟨h1.trans hm, h2⟩

end Registry

end SpectreOS
