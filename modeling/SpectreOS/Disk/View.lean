/-
The disk the filesystem sees. With an unencrypted superblock it is the drive itself; with an
encrypted one it is the drive with every sector XORed with its keystream. In both cases a run
through the registry and the crypto layer is a run on a plain drive (`onAta_hom`, `sealed_hom`).
-/
import SpectreOS.Disk.Blockdev

namespace SpectreOS

open BlockIO Prog

/-! ## The registry -/

abbrev ata0 : List Char := ['a', 't', 'a', '0']

/-- The registry as `blockdev_init` and the registrations at boot build it: the devices in use are
the registered ones, and the name `ata0` is the drive's. -/
structure Registry (m : Machine) : Prop where
  used : ∀ i, (m.devices i).inUse = decide (i < m.deviceCount)
  count : m.deviceCount ≤ blockdevMax
  ata0 : ∀ i < m.deviceCount, (m.devices i).name = ata0 → (m.devices i).driver = .ata

theorem Registry.init {m : Machine} (h : ∀ i, blockdevMax ≤ i → (m.devices i).inUse = false) :
    Registry (blockdevInit m) := by
  refine ⟨fun i => ?_, by simp [blockdevInit], by simp [blockdevInit]⟩
  simp only [blockdevInit]
  split
  · simp
  · rename_i hi
    rw [h i (by omega)]; simp

theorem Registry.register {m : Machine} (h : Registry m) (name : List Char) (driver : Driver)
    (hn : name.take (blockdevNameMax - 1) = SpectreOS.ata0 → driver = .ata) :
    Registry (blockdevRegister m name driver).2 := by
  unfold blockdevRegister
  split
  · exact h
  · rename_i hc
    refine ⟨fun i => ?_, by simp only; omega, fun i hi => ?_⟩
    · by_cases e : i = m.deviceCount
      · simp [e]
      · simp only [Function.update_of_ne e, h.used]
        rw [decide_eq_decide]; omega
    · by_cases e : i = m.deviceCount
      · simp only [e, Function.update_self]; exact hn
      · simp only [Function.update_of_ne e]
        exact h.ata0 i (by simp only at hi; omega)

theorem Registry.get_ata {m : Machine} (h : Registry m) {id : Nat}
    (hf : blockdevFindByName m SpectreOS.ata0 = some id) :
    ∃ dev, blockdevGet m id = some dev ∧ dev.driver = .ata ∧ id < m.deviceCount := by
  have h1 := List.find?_some hf
  have h2 := List.mem_of_find?_eq_some hf
  simp only [Bool.and_eq_true, beq_iff_eq, List.mem_range] at h1 h2
  have hlt : id < m.deviceCount := by simpa [h.used] using h1.1
  refine ⟨m.devices id, ?_, h.ata0 id hlt h1.2, hlt⟩
  unfold blockdevGet
  simp [h1.1, h2]

theorem Registry.boot (a : Ata) : Registry (bootMachine a) := by
  unfold bootMachine
  exact (Registry.init fun _ _ => rfl).register _ _ fun _ => rfl

/-- The sectors as the filesystem's device shows them. -/
def logicalDisk (cp : Primitives) (m : Machine) : Nat → Sector :=
  match (blockdevGet m m.fsDiskDeviceId).map BlockDevice.driver with
  | some (.crypto k) => fun lba => cryptoXorSector cp (m.slots k) lba (m.ata.disk lba)
  | _ => m.ata.disk

/-! ## The drive itself -/

/-- The filesystem's device is the drive. -/
def OnAta (m : Machine) : Prop := ∃ dev, blockdevGet m m.fsDiskDeviceId = some dev ∧ dev.driver = .ata

theorem OnAta.read_eq {m : Machine} (h : OnAta m) (cp : Primitives) (lba : Nat) : (fsDisk cp).read m lba =
    ((ataReadSector m.ata lba).1, { m with ata := (ataReadSector m.ata lba).2 }) := by
  obtain ⟨dev, h1, h2⟩ := h
  simp [fsDisk, blockdevReadSector, h1, h2]

theorem OnAta.write_eq {m : Machine} (h : OnAta m) (cp : Primitives) (lba : Nat) (b : Sector) :
    (fsDisk cp).write m lba b = ((ataWriteSector m.ata lba b).1, { m with ata := (ataWriteSector m.ata lba b).2 }) := by
  obtain ⟨dev, h1, h2⟩ := h
  simp [fsDisk, blockdevWriteSector, h1, h2]

/-- A run on the filesystem's device is then a run on the drive. -/
theorem onAta_hom (cp : Primitives) : Hom (fsDisk cp) ata OnAta Machine.ata := by
  constructor
  · intro m lba h
    rw [h.read_eq cp lba]
    exact ⟨rfl, rfl, h⟩
  · intro m lba b h
    rw [h.write_eq cp lba b]
    exact ⟨rfl, rfl, h⟩

theorem OnAta.logicalDisk_eq {m : Machine} (h : OnAta m) (cp : Primitives) : logicalDisk cp m = m.ata.disk := by
  obtain ⟨dev, h1, h2⟩ := h
  simp [logicalDisk, h1, h2]

/-! ## The encrypted drive -/

/-- The filesystem's device is the crypto slot `slot` over the drive. -/
structure Sealed (slot : CryptoSlot) (m : Machine) : Prop where
  inUse : slot.inUse = true
  device : ∃ dev k, blockdevGet m m.fsDiskDeviceId = some dev ∧ dev.driver = .crypto k ∧ m.slots k = slot
  backing : ∃ dev, blockdevGet m slot.backingDeviceId = some dev ∧ dev.driver = .ata

/-- A request as the filesystem sees it. -/
def Request.unsealed (cp : Primitives) (slot : CryptoSlot) : Request → Request
  | read lba ok => .read lba ok
  | write lba data ok => .write lba (cryptoXorSector cp slot lba data) ok

/-- The drive as the filesystem sees it. -/
def unsealed (cp : Primitives) (slot : CryptoSlot) (a : Ata) : Ata :=
  { a with
    disk := fun lba => cryptoXorSector cp slot lba (a.disk lba)
    log := a.log.map (·.unsealed cp slot) }

/-- Counter mode is its own inverse. -/
theorem cryptoXorSector_involutive (cp : Primitives) (slot : CryptoSlot) (lba : Nat) (s : Sector) :
    cryptoXorSector cp slot lba (cryptoXorSector cp slot lba s) = s := by
  funext i
  unfold cryptoXorSector
  rw [BitVec.xor_assoc, BitVec.xor_self, BitVec.xor_zero]

theorem unsealed_read (cp : Primitives) (slot : CryptoSlot) (a : Ata) (lba : Nat) :
    ((ataReadSector a lba).1.map (cryptoXorSector cp slot lba)) = (ataReadSector (unsealed cp slot a) lba).1 ∧
      unsealed cp slot (ataReadSector a lba).2 = (ataReadSector (unsealed cp slot a) lba).2 := by
  have hacc : (unsealed cp slot a).accepts lba = a.accepts lba := rfl
  have hf : (unsealed cp slot a).faults (unsealed cp slot a).log.length = a.faults a.log.length := by
    simp [unsealed]
  unfold ataReadSector
  rw [hacc, hf]
  split
  · split
    · exact ⟨rfl, by simp [unsealed, Ata.record, Request.unsealed]⟩
    · exact ⟨rfl, by simp [unsealed, Ata.record, Request.unsealed]⟩
  · exact ⟨rfl, rfl⟩

theorem unsealed_write (cp : Primitives) (slot : CryptoSlot) (a : Ata) (lba : Nat) (s : Sector) :
    (ataWriteSector a lba (cryptoXorSector cp slot lba s)).1 = (ataWriteSector (unsealed cp slot a) lba s).1 ∧
      unsealed cp slot (ataWriteSector a lba (cryptoXorSector cp slot lba s)).2 =
        (ataWriteSector (unsealed cp slot a) lba s).2 := by
  have hacc : (unsealed cp slot a).accepts lba = a.accepts lba := rfl
  have hf : (unsealed cp slot a).faults (unsealed cp slot a).log.length = a.faults a.log.length := by
    simp [unsealed]
  unfold ataWriteSector
  rw [hacc, hf]
  split
  · split
    · exact ⟨rfl, by simp [unsealed, Ata.record, Request.unsealed, cryptoXorSector_involutive]⟩
    · refine ⟨rfl, ?_⟩
      simp only [unsealed, Ata.record, List.map_append, List.map_cons, List.map_nil, Request.unsealed,
        cryptoXorSector_involutive, Ata.mk.injEq, and_true, true_and]
      funext l
      by_cases e : l = lba
      · subst e; simp [cryptoXorSector_involutive]
      · simp [e]
  · exact ⟨rfl, rfl⟩

namespace Sealed

variable {slot : CryptoSlot} {m : Machine}

theorem read_eq (h : Sealed slot m) (cp : Primitives) (lba : Nat) : (fsDisk cp).read m lba =
    ((ataReadSector m.ata lba).1.map (cryptoXorSector cp slot lba), { m with ata := (ataReadSector m.ata lba).2 }) := by
  obtain ⟨h0, ⟨dev, k, h1, h2, rfl⟩, back, h3, h4⟩ := h
  simp only [fsDisk, blockdevReadSector, h1, h2, cryptoReadSector, h0, h3, h4]
  cases hread : (ataReadSector m.ata lba).1 <;> simp

theorem write_eq (h : Sealed slot m) (cp : Primitives) (lba : Nat) (b : Sector) : (fsDisk cp).write m lba b =
    ((ataWriteSector m.ata lba (cryptoXorSector cp slot lba b)).1,
      { m with ata := (ataWriteSector m.ata lba (cryptoXorSector cp slot lba b)).2 }) := by
  obtain ⟨h0, ⟨dev, k, h1, h2, rfl⟩, back, h3, h4⟩ := h
  simp [fsDisk, blockdevWriteSector, h1, h2, cryptoWriteSector, h0, h3, h4]

theorem logicalDisk_eq (h : Sealed slot m) (cp : Primitives) : logicalDisk cp m = (unsealed cp slot m.ata).disk := by
  obtain ⟨-, ⟨dev, k, h1, h2, rfl⟩, -⟩ := h
  simp [logicalDisk, h1, h2, unsealed]

/-- Only the registry and the slots matter. -/
theorem withAta (h : Sealed slot m) (a : Ata) : Sealed slot { m with ata := a } := ⟨h.inUse, h.device, h.backing⟩

end Sealed

/-- A run on the encrypted drive is a run on the unsealed one. -/
theorem sealed_hom (cp : Primitives) (slot : CryptoSlot) :
    Hom (fsDisk cp) ata (Sealed slot) fun m => unsealed cp slot m.ata := by
  constructor
  · intro m lba h
    rw [h.read_eq cp lba]
    obtain ⟨u1, u2⟩ := unsealed_read cp slot m.ata lba
    exact ⟨u1, u2, h.withAta _⟩
  · intro m lba b h
    rw [h.write_eq cp lba b]
    obtain ⟨u1, u2⟩ := unsealed_write cp slot m.ata lba b
    exact ⟨u1, u2, h.withAta _⟩

end SpectreOS
