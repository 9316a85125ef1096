/-
Formatting at boot, on the drive of the legacy code and through the registry and the crypto layer
of the current code: a successful `fs_format` leaves a `Fresh` filesystem on the disk it sees, and
without faults `fs_format` succeeds whenever the disk is large enough and a crypto slot is free.
-/
import SpectreOS.Fs.Format
import SpectreOS.Disk.View

namespace SpectreOS

open BlockIO Prog

/-! ## The drive keeps to the exact interface -/

/-- The drive has the contents `d` and serves the first `N` sectors; unless both reads and writes
may fail it has no faults. -/
structure Serves (N : Nat) (r w : Bool) (d : Nat → Sector) (a : Ata) : Prop where
  disk : a.disk = d
  ready : a.diskReady = true
  size : N ≤ a.diskSectors
  addressable : N ≤ 131072
  faultless : r = true ∧ w = true ∨ ∀ n, a.faults n = false

namespace Serves

variable {N : Nat} {r w : Bool} {d : Nat → Sector} {a : Ata}

theorem accepts (h : Serves N r w d a) {lba : Nat} (hl : lba < N) : a.accepts lba = true := by
  have h1 := h.size
  have h2 := h.addressable
  simp only [Ata.accepts, h.ready, Bool.true_and, Bool.and_eq_true, decide_eq_true_eq]
  omega

theorem models (N : Nat) (r w : Bool) : Models (exact N r w) ata (Serves N r w) := by
  constructor
  · rintro d a lba h hl
    have hacc := h.accepts hl
    show ∃ g', _ ∧ Serves N r w g' (ataReadSector a lba).2
    simp only [ata, ataReadSector, hacc, ↓reduceIte]
    split
    · rename_i hf
      refine ⟨d, ⟨rfl, .inr ⟨rfl, ?_⟩⟩, h.disk, h.ready, h.size, h.addressable, h.faultless⟩
      rcases h.faultless with ⟨hr, -⟩ | hn
      · exact hr
      · rw [hn] at hf; cases hf
    · exact ⟨d, ⟨rfl, .inl (by rw [h.disk])⟩, h.disk, h.ready, h.size, h.addressable, h.faultless⟩
  · rintro d a lba b h hl
    have hacc := h.accepts hl
    show ∃ g', _ ∧ Serves N r w g' (ataWriteSector a lba b).2
    simp only [ata, ataWriteSector, hacc, ↓reduceIte]
    split
    · rename_i hf
      refine ⟨d, ⟨by simp, fun _ => ?_⟩, h.disk, h.ready, h.size, h.addressable, h.faultless⟩
      rcases h.faultless with ⟨-, hw⟩ | hn
      · exact hw
      · rw [hn] at hf; cases hf
    · refine ⟨Function.update d lba b, ⟨by simp, by simp⟩, ?_, h.ready, h.size, h.addressable, h.faultless⟩
      simp only [h.disk]

end Serves

/-! ## Formatting -/

/-- A freshly formatted, mounted filesystem on a disk with the contents `d`. -/
structure Fresh (N : Nat) (d : Nat → Sector) (m : FsMem) : Prop where
  lo : 129 < N
  hi : N ≤ 131072
  total : m.superblock.totalSectors = N
  root : m.inode 0 = rootInode 32
  empty : ∀ i, 0 < i → m.inode i = .zero
  bits : ∀ t < 131072, (bitSet m t = true ↔ t < 129)
  closed : ∀ fd < 16, m.handles fd = .closed
  ready : m.filesystemReady = true
  synced : Synced d m
  zeroed : ∀ k < 32, d (97 + k) = fun _ => 0

theorem Synced.congr {d : Nat → Sector} {m m' : FsMem} (h : Synced d m) (hb : m'.bitmap = m.bitmap)
    (hi : ∀ i, m'.inode i = m.inode i) : Synced d m' := by
  refine ⟨fun i hi' => (h.bitmap i hi').trans ?_, fun i hi' => (h.inodes i hi').trans (hi i).symm⟩
  unfold bitmapSector; rw [hb]

/-- The sectors a synced disk holds its tables in. -/
theorem Synced.congr_disk {d d' : Nat → Sector} {m : FsMem} (h : Synced d m)
    (hd : ∀ l, 1 ≤ l → l < 97 → d' l = d l) : Synced d' m := by
  refine ⟨fun i hi => (hd _ (by omega) (by omega)).trans (h.bitmap i hi), fun i hi => ?_⟩
  rw [storedInode_congr (hd _ (by omega) (by omega))]
  exact h.inodes i hi

section

variable {δ : Type} {P : Platform δ} {material : Nat → Byte} {c : Conf FsMem δ}

/-- What has happened when `fs_format` succeeds. -/
theorem fsFormat_ok (h : (fsFormat P material c).1 = true) :
    ∃ b d c₁ c₂, P.present c.dev = true ∧ 129 < P.sectorCount c.dev ∧
      P.setup true material (freshSuperblock (min (P.sectorCount c.dev) 131072)) c.dev = (true, b, d) ∧
      formatTables.run P.disk ⟨{ c.mem with superblock := b }, d⟩ = (true, c₁) ∧
      saveSuperblock.run P.raw c₁ = (true, c₂) ∧
      (fsFormat P material c).2 = { c₂ with mem := mounted c₂.mem } := by
  unfold fsFormat at h ⊢
  by_cases hp : P.present c.dev = true
  · by_cases hs : P.sectorCount c.dev ≤ fsDataStart + fsDirectBlocks
    · simp [hp, hs] at h
    · simp only [hp, hs, Bool.not_true, Bool.false_eq_true, ↓reduceIte] at h ⊢
      have hmin : min (P.sectorCount c.dev) (fsBitmapSectors * 4096) = min (P.sectorCount c.dev) 131072 := rfl
      rw [hmin] at h ⊢
      rcases hset : P.setup true material (freshSuperblock (min (P.sectorCount c.dev) 131072)) c.dev with ⟨_ | _, b, d⟩
      · simp [hset] at h
      · rcases htab : formatTables.run P.disk ⟨{ c.mem with superblock := b }, d⟩ with ⟨_ | _, c₁⟩
        · simp [hset, htab] at h
        · rcases hsb : saveSuperblock.run P.raw c₁ with ⟨_ | _, c₂⟩
          · simp [hset, htab, hsb] at h
          · refine ⟨b, d, c₁, c₂, trivial, ?_, rfl, htab, hsb, ?_⟩
            · simp only [fsDataStart, fsDirectBlocks] at hs; omega
            · simp [htab, hsb]
  · simp [hp] at h

theorem fsFormat_of {b : Superblock} {d : δ} {c₁ c₂ : Conf FsMem δ} (h1 : P.present c.dev = true)
    (h2 : 129 < P.sectorCount c.dev)
    (h3 : P.setup true material (freshSuperblock (min (P.sectorCount c.dev) 131072)) c.dev = (true, b, d))
    (h4 : formatTables.run P.disk ⟨{ c.mem with superblock := b }, d⟩ = (true, c₁))
    (h5 : saveSuperblock.run P.raw c₁ = (true, c₂)) :
    fsFormat P material c = (true, { c₂ with mem := mounted c₂.mem }) := by
  unfold fsFormat
  have hs : ¬ P.sectorCount c.dev ≤ fsDataStart + fsDirectBlocks := by
    simp only [fsDataStart, fsDirectBlocks]; omega
  have hmin : min (P.sectorCount c.dev) (fsBitmapSectors * 4096) = min (P.sectorCount c.dev) 131072 := rfl
  simp only [h1, hs, hmin, h3, h4, h5, Bool.not_true, Bool.false_eq_true, ↓reduceIte]

/-- The tables `m` have been formatted from `m₀`, for `N` sectors, and are on the disk. -/
structure Laid (N : Nat) (m₀ : FsMem) (d : Nat → Sector) (m : FsMem) : Prop where
  lo : 129 < N
  hi : N ≤ 131072
  total : m₀.superblock.totalSectors = N
  tables : Formatted m₀ m
  synced : Synced d m
  slots : ∀ i < 128, SlotSaved d i (m.inode i)
  zeroed : ∀ k < 32, d (97 + k) = fun _ => 0

/-- Sector 0 is not part of them. -/
theorem Laid.congr_disk {N : Nat} {m₀ m : FsMem} {d d' : Nat → Sector} (h : Laid N m₀ d m)
    (hd : ∀ l, 1 ≤ l → d' l = d l) :
    Laid N m₀ d' m :=
  ⟨h.lo, h.hi, h.total, h.tables, h.synced.congr_disk fun l h1 _ => hd l h1,
    fun i hi => (h.slots i hi).congr (hd _ (by omega)), fun k hk => (hd _ (by omega)).trans (h.zeroed k hk)⟩

/-- A successful format, once the handles are closed. -/
theorem Laid.fresh {N : Nat} {d : Nat → Sector} {m₀ m : FsMem} (h : Laid N m₀ d m) : Fresh N d (mounted m) where
  lo := h.lo
  hi := h.hi
  total := by rw [← h.total, ← h.tables.superblock]; rfl
  root := h.tables.root
  empty := h.tables.empty
  bits := h.tables.bits
  closed fd hfd := if_pos hfd
  ready := rfl
  synced := h.synced.congr rfl fun _ => rfl
  zeroed := h.zeroed

end

/-! ## The drive behind a device -/

/-- What stays as it is while a program runs on the drive. -/
def SameDrive (a a' : Ata) : Prop :=
  a'.diskReady = a.diskReady ∧ a'.diskSectors = a.diskSectors ∧ a'.faults = a.faults

theorem SameDrive.trans {a a' a'' : Ata} (h : SameDrive a a') (h' : SameDrive a' a'') : SameDrive a a'' :=
  ⟨h'.1.trans h.1, h'.2.1.trans h.2.1, h'.2.2.trans h.2.2⟩

theorem ataReadSector_sameDrive (a : Ata) (lba : Nat) : SameDrive a (ataReadSector a lba).2 := by
  unfold ataReadSector
  split
  · split <;> exact ⟨rfl, rfl, rfl⟩
  · exact ⟨rfl, rfl, rfl⟩

theorem ataWriteSector_sameDrive (a : Ata) (lba : Nat) (s : Sector) : SameDrive a (ataWriteSector a lba s).2 := by
  unfold ataWriteSector
  split
  · split <;> exact ⟨rfl, rfl, rfl⟩
  · exact ⟨rfl, rfl, rfl⟩

theorem run_sameDrive {σ α : Type} (p : Prog σ Sector α) (c : Conf σ Ata) :
    SameDrive c.dev (run ata p c).2.dev := by
  have h : Hom ata ata (SameDrive c.dev) id :=
    ⟨fun a lba ha => ⟨rfl, rfl, ha.trans (ataReadSector_sameDrive a lba)⟩,
      fun a lba b ha => ⟨rfl, rfl, ha.trans (ataWriteSector_sameDrive a lba b)⟩⟩
  exact (run_hom h p c ⟨rfl, rfl, rfl⟩).2.2.2

/-- The sector `save_superblock` writes. -/
def superblockSector (b : Superblock) : Sector := Block.patch (fun _ => 0) 0 76 b.image

/-- The superblock write: the drive's sector 0 and nothing else. -/
theorem saveSuperblock_ata {c : Conf FsMem Ata} (h : (saveSuperblock.run ata c).1 = true) :
    (saveSuperblock.run ata c).2.mem = c.mem ∧
      (saveSuperblock.run ata c).2.dev.disk = Function.update c.dev.disk 0 (superblockSector c.mem.superblock) := by
  simp only [saveSuperblock, run_bind, run_load, run_writeBlock] at h ⊢
  refine ⟨trivial, ?_⟩
  simp only [ata, ataWriteSector] at h ⊢
  split at h
  · split at h
    · cases h
    · rename_i h1 h2
      simp only [h1, h2, ↓reduceIte, Bool.false_eq_true]
      rfl
  · cases h

theorem saveSuperblock_ok {c : Conf FsMem Ata} (hready : c.dev.diskReady = true) (hsize : 0 < c.dev.diskSectors)
    (hf : ∀ n, c.dev.faults n = false) : (saveSuperblock.run ata c).1 = true := by
  have hacc : c.dev.accepts 0 = true := by
    simp only [Ata.accepts, hready, Bool.true_and, Bool.and_eq_true, decide_eq_true_eq]; omega
  simp [saveSuperblock, ata, ataWriteSector, hacc, hf]

section

variable {δ : Type} {D : Device δ Sector} {P : δ → Prop} {v : δ → Ata} {N : Nat} {m : FsMem} {dev : δ}

/-- The tables and the disk after a successful `formatTables`, on any device that answers like a
drive. -/
theorem formatTables_run (hom : Hom D ata P v) (hP : P dev) (hready : (v dev).diskReady = true)
    (hsize : N ≤ (v dev).diskSectors) (h1 : 129 < N) (h2 : N ≤ 131072) (hN : m.superblock.totalSectors = N)
    {c₁ : Conf FsMem δ} (hrun : formatTables.run D ⟨m, dev⟩ = (true, c₁)) :
    Laid N m (v c₁.dev).disk c₁.mem ∧ SameDrive (v dev) (v c₁.dev) ∧ P c₁.dev := by
  obtain ⟨e1, e2, e3, e4⟩ := run_hom hom formatTables ⟨m, dev⟩ hP
  rw [hrun] at e1 e2 e3 e4
  have hsound := wp_sound (Serves.models N true true) formatTables (c := ⟨m, v dev⟩)
    (formatTables_exact (d := (v dev).disk) hN h1 h2) ⟨rfl, hready, hsize, h2, .inl ⟨rfl, rfl⟩⟩
  obtain ⟨d', ⟨hok, -⟩, hd'⟩ := hsound
  have hsame := run_sameDrive formatTables ⟨m, v dev⟩
  simp only at e1 e2 e3 e4
  rw [← e2] at hok
  rw [← e3] at hd' hsame
  obtain ⟨hf, hs, hslot, -, hz⟩ := hok e1.symm
  rw [← hd'.disk] at hs hslot hz
  exact ⟨⟨h1, h2, hN, hf, hs, hslot, hz⟩, hsame, e4⟩

/-- Without faults `formatTables` succeeds. -/
theorem formatTables_run_ok (hom : Hom D ata P v) (hP : P dev) (hready : (v dev).diskReady = true)
    (hsize : N ≤ (v dev).diskSectors) (h1 : 129 < N) (h2 : N ≤ 131072) (hN : m.superblock.totalSectors = N)
    (hf : ∀ n, (v dev).faults n = false) : (formatTables.run D ⟨m, dev⟩).1 = true := by
  have hsound := wp_sound (Serves.models N false false) formatTables (c := ⟨m, v dev⟩)
    (formatTables_exact (d := (v dev).disk) hN h1 h2) ⟨rfl, hready, hsize, h2, .inr hf⟩
  obtain ⟨d', ⟨-, hfail⟩, -⟩ := hsound
  rw [(run_hom hom formatTables ⟨m, dev⟩ hP).1]
  by_contra hne
  simpa using hfail (by simpa using hne)

end

/-! ## The legacy code -/

section

variable {material : Nat → Byte} {c : Conf FsMem Ata} {N : Nat}

theorem ata_hom : Hom ata ata (fun _ => True) id :=
  ⟨fun _ _ _ => ⟨rfl, rfl, trivial⟩, fun _ _ _ _ => ⟨rfl, rfl, trivial⟩⟩

/-- A successful legacy format. -/
theorem fsFormat_legacy (h : (fsFormat legacy material c).1 = true) (hN : min c.dev.diskSectors 131072 = N) :
    ∃ m₁, (fsFormat legacy material c).2.mem = mounted m₁ ∧
      Laid N { c.mem with superblock := freshSuperblock N } (fsFormat legacy material c).2.dev.disk m₁ ∧
      (fsFormat legacy material c).2.dev.disk 0 = superblockSector (freshSuperblock N) ∧
      SameDrive c.dev (fsFormat legacy material c).2.dev := by
  obtain ⟨b, d, c₁, c₂, hp, hc, hset, htab, hsb, he⟩ := fsFormat_ok h
  have hc' : 129 < c.dev.diskSectors := hc
  obtain ⟨rfl, rfl⟩ : freshSuperblock N = b ∧ c.dev = d := by
    simpa [legacy, hN] using hset
  obtain ⟨hlaid, hsame, -⟩ := formatTables_run ata_hom trivial (N := N) hp
    (show N ≤ c.dev.diskSectors by omega) (by omega) (by omega) rfl htab
  have hsave : run ata saveSuperblock c₁ = (true, c₂) := hsb
  obtain ⟨hm₂, hd₂⟩ := saveSuperblock_ata (c := c₁) (by rw [hsave])
  have hsame₂ := run_sameDrive saveSuperblock c₁
  rw [hsave] at hm₂ hd₂ hsame₂
  simp only at hm₂ hd₂ hsame₂
  rw [he]
  refine ⟨c₁.mem, congrArg mounted hm₂, hlaid.congr_disk fun l hl => ?_, ?_, hsame.trans hsame₂⟩
  · simp only
    rw [hd₂, Function.update_of_ne (by omega)]
    rfl
  · simp only
    rw [hd₂, Function.update_self, hlaid.tables.superblock]

/-- Without faults the legacy format succeeds on every disk that is large enough. -/
theorem fsFormat_legacy_ok (hready : c.dev.diskReady = true) (hsize : 129 < c.dev.diskSectors)
    (hf : ∀ n, c.dev.faults n = false) : (fsFormat legacy material c).1 = true := by
  obtain ⟨N, hN⟩ : ∃ N, min c.dev.diskSectors 131072 = N := ⟨_, rfl⟩
  have htab := formatTables_run_ok (m := { c.mem with superblock := freshSuperblock N }) ata_hom trivial (N := N) hready
    (show N ≤ c.dev.diskSectors by omega) (by omega) (by omega) rfl hf
  rcases hrun : run ata formatTables ⟨{ c.mem with superblock := freshSuperblock N }, c.dev⟩ with ⟨ok, c₁⟩
  rw [hrun] at htab
  obtain rfl : ok = true := htab
  obtain ⟨-, hsame, -⟩ := formatTables_run ata_hom trivial (N := N) hready
    (show N ≤ c.dev.diskSectors by omega) (by omega) (by omega) rfl hrun
  have hs : c₁.dev.diskSectors = c.dev.diskSectors := hsame.2.1
  have hsave := saveSuperblock_ok (c := c₁) (hsame.1.trans hready) (by omega) fun n =>
    (congrFun hsame.2.2 n).trans (hf n)
  rcases hrun₂ : run ata saveSuperblock c₁ with ⟨ok, c₂⟩
  rw [hrun₂] at hsave
  obtain rfl : ok = true := hsave
  have hset : legacy.setup true material (freshSuperblock (min (legacy.sectorCount c.dev) 131072)) c.dev =
      (true, freshSuperblock N, c.dev) := by
    rw [show min (legacy.sectorCount c.dev) 131072 = N from hN]; rfl
  rw [fsFormat_of (P := legacy) hready hsize hset hrun hrun₂]

end

/-! ## The current code -/

/-- `crypto_disk_create_with_nonce` over a registered drive. -/
theorem cryptoDiskCreate_sealed {m m' : Machine} {name : List Char} {ataId id : Nat} {key : Block 32}
    {nonce : Block 8} {dev : BlockDevice} (hget : blockdevGet m ataId = some dev)
    (hdrv : dev.driver = .ata) (hlt : ataId < m.deviceCount)
    (h : cryptoDiskCreateWithNonce m name ataId key nonce = (some id, m')) :
    Sealed ⟨key, ataId, nonce, true⟩ { m' with fsDiskDeviceId := id, fsEncrypted := true } ∧ m'.ata = m.ata := by
  unfold cryptoDiskCreateWithNonce at h
  split at h
  · cases h
  · rename_i slot _
    unfold blockdevRegister at h
    split at h
    · cases h
    · rename_i hc
      simp only [ge_iff_le, not_le, blockdevMax] at hc
      simp only [Prod.mk.injEq, Option.some.injEq] at h
      obtain ⟨rfl, rfl⟩ := h
      refine ⟨⟨rfl, ⟨⟨name.take (blockdevNameMax - 1), .crypto slot, true⟩, slot, ?_, rfl, Function.update_self ..⟩,
        dev, ?_, hdrv⟩, rfl⟩
      · unfold blockdevGet
        simp [hc]
      · rw [← hget]
        unfold blockdevGet
        have hne : ataId ≠ m.deviceCount := by omega
        simp [hne]

section

variable {cp : Primitives} {formatting : Bool} {material : Nat → Byte} {b b' : Superblock} {m m' : Machine}

theorem fsSetup_superblock (h : fsSetupDiskDevice cp formatting material b m = (true, b', m')) :
    b' = if formatting then { b with reserved := sealedReserved material b.reserved } else b := by
  unfold fsSetupDiskDevice at h
  cases hf : blockdevFindByName m ['a', 't', 'a', '0'] with
  | none => simp [hf] at h
  | some ataId =>
    simp only [hf] at h
    generalize (if formatting then { b with reserved := sealedReserved material b.reserved } else b) = b₁ at h ⊢
    split at h
    · simp only [Prod.mk.injEq, true_and] at h
      exact h.1.symm
    · split at h
      · cases h
      · simp only [Prod.mk.injEq, true_and] at h
        exact h.1.symm

/-- A successful set-up over an encrypted superblock. -/
theorem fsSetup_sealed (hreg : Registry m) (h : fsSetupDiskDevice cp formatting material b m = (true, b', m'))
    (hmagic : b'.reserved 0 = fsEncryptionMagic) : m'.ata = m.ata ∧
      ∃ slot, slot.key = superblockKey cp b' ∧ slot.nonce = superblockNonce b' ∧ Sealed slot m' := by
  unfold fsSetupDiskDevice at h
  cases hf : blockdevFindByName m ['a', 't', 'a', '0'] with
  | none => simp [hf] at h
  | some ataId =>
    obtain ⟨dev, hget, hdrv, hlt⟩ := hreg.get_ata hf
    simp only [hf] at h
    generalize (if formatting then { b with reserved := sealedReserved material b.reserved } else b) = b₁ at h
    split at h
    · rename_i hne
      simp only [Prod.mk.injEq, true_and] at h
      rw [h.1] at hne
      exact absurd hmagic hne
    · rcases hcr : cryptoDiskCreateWithNonce m ['f', 's', 'e', 'n', 'c', '0'] ataId (superblockKey cp b₁)
          (superblockNonce b₁) with ⟨_ | id, m₁⟩
      · simp [hcr] at h
      · simp only [hcr, Prod.mk.injEq, true_and] at h
        obtain ⟨rfl, rfl⟩ := h
        obtain ⟨hs, ha⟩ := cryptoDiskCreate_sealed hget hdrv hlt hcr
        exact ⟨ha, _, rfl, rfl, hs⟩

/-- The set-up of an encrypted disk succeeds with a drive, a free crypto slot and room in the
registry. -/
theorem fsSetup_ok (cp : Primitives) (material : Nat → Byte)
    (hmagic : formatting = false → b.reserved 0 = fsEncryptionMagic) (ha : (blockdevFindByName m ata0).isSome)
    (hslot : ∃ s < 2, (m.slots s).inUse = false) (hroom : m.deviceCount < 8) :
    (fsSetupDiskDevice cp formatting material b m).1 = true := by
  obtain ⟨ataId, hf⟩ := Option.isSome_iff_exists.1 ha
  obtain ⟨s, hs, hfree⟩ := hslot
  have hfind : ∃ k, ((List.range cryptoDiskMaxSlots).find? fun i => !(m.slots i).inUse) = some k := by
    rw [← Option.isSome_iff_exists, List.find?_isSome]
    exact ⟨s, by simpa using hs, by simp [hfree]⟩
  obtain ⟨k, hk⟩ := hfind
  have hroom' : ¬ m.deviceCount ≥ blockdevMax := by simp only [blockdevMax]; omega
  cases formatting with
  | true => simp [fsSetupDiskDevice, hf, sealedReserved, cryptoDiskCreateWithNonce, hk, blockdevRegister, hroom']
  | false => simp [fsSetupDiskDevice, hf, hmagic, cryptoDiskCreateWithNonce, hk, blockdevRegister, hroom']

end

/-- Only the drive differs. -/
def SameLayer (m m' : Machine) : Prop := m' = { m with ata := m'.ata }

theorem Sealed.congr {slot : CryptoSlot} {m m' : Machine} (h : Sealed slot m) (hs : SameLayer m m') :
    Sealed slot m' := by
  rw [hs]; exact ⟨h.inUse, h.device, h.backing⟩

theorem rawDisk_hom (m₀ : Machine) : Hom rawDisk ata (SameLayer m₀) Machine.ata := by
  constructor
  · intro m lba h
    refine ⟨rfl, rfl, ?_⟩
    show _ = _
    rw [h]; rfl
  · intro m lba b h
    refine ⟨rfl, rfl, ?_⟩
    show _ = _
    rw [h]; rfl

section

variable {cp : Primitives} {material : Nat → Byte} {c : Conf FsMem Machine} {N : Nat}

/-- The superblock of a disk the current code has formatted. -/
def sealedSuperblock (material : Nat → Byte) (N : Nat) : Superblock :=
  { freshSuperblock N with reserved := sealedReserved material fun _ => 0 }

/-- A successful format by the current code: the tables on the unsealed disk, and the plain superblock
on sector 0. -/
theorem fsFormat_laid (hreg : Registry c.dev) (h : (fsFormat (current cp) material c).1 = true)
    (hN : min c.dev.ata.diskSectors 131072 = N) :
    (fsFormat (current cp) material c).2.dev.ata.disk 0 = superblockSector (sealedSuperblock material N) ∧
      SameDrive c.dev.ata (fsFormat (current cp) material c).2.dev.ata ∧
      ∃ slot m₁, slot.key = superblockKey cp (sealedSuperblock material N) ∧
        slot.nonce = superblockNonce (sealedSuperblock material N) ∧
        Sealed slot (fsFormat (current cp) material c).2.dev ∧
        (fsFormat (current cp) material c).2.mem = mounted m₁ ∧
        Laid N { c.mem with superblock := sealedSuperblock material N }
          (unsealed cp slot (fsFormat (current cp) material c).2.dev.ata).disk m₁ := by
  obtain ⟨b, d, c₁, c₂, hp, hc, hset, htab, hsb, he⟩ := fsFormat_ok h
  have hc' : 129 < c.dev.ata.diskSectors := hc
  have hset' : fsSetupDiskDevice cp true material (freshSuperblock N) c.dev = (true, b, d) := by
    rw [← hset, ← hN]; rfl
  obtain rfl : b = sealedSuperblock material N := fsSetup_superblock hset'
  obtain ⟨hata, slot, hk, hn, hsealed⟩ := fsSetup_sealed hreg hset' rfl
  obtain ⟨hlaid, hsame, hsealed₁⟩ := formatTables_run (sealed_hom cp slot) hsealed (N := N)
    (show d.ata.diskReady = true by rw [hata]; exact hp) (show N ≤ d.ata.diskSectors by rw [hata]; omega)
    (by omega) (by omega) rfl htab
  obtain ⟨e1, e2, e3, e4⟩ := run_hom (rawDisk_hom c₁.dev) saveSuperblock c₁ rfl
  have hsave : run rawDisk saveSuperblock c₁ = (true, c₂) := hsb
  rw [hsave] at e1 e2 e3 e4
  obtain ⟨hm₂, hd₂⟩ := saveSuperblock_ata (c := ⟨c₁.mem, c₁.dev.ata⟩) e1.symm
  have hsame₂ := run_sameDrive saveSuperblock ⟨c₁.mem, c₁.dev.ata⟩
  rw [← e2] at hm₂
  rw [← e3] at hd₂ hsame₂
  simp only at hm₂ hd₂ hsame₂ e4
  rw [he]
  refine ⟨?_, ?_, slot, c₁.mem, hk, hn, hsealed₁.congr e4, congrArg mounted hm₂, hlaid.congr_disk fun l hl => ?_⟩
  · simp only
    rw [hd₂, Function.update_self, hlaid.tables.superblock]
  · rw [← hata]
    exact @SameDrive.trans _ c₁.dev.ata _ ⟨hsame.1, hsame.2.1, hsame.2.2⟩ hsame₂
  · simp only [unsealed]
    rw [hd₂, Function.update_of_ne (by omega)]

/-- The freshly formatted filesystem. -/
theorem fsFormat_current (hreg : Registry c.dev) (h : (fsFormat (current cp) material c).1 = true)
    (hN : min c.dev.ata.diskSectors 131072 = N) :
    (fsFormat (current cp) material c).2.mem.superblock = sealedSuperblock material N ∧
      (fsFormat (current cp) material c).2.dev.ata.disk 0 = superblockSector (sealedSuperblock material N) ∧
      SameDrive c.dev.ata (fsFormat (current cp) material c).2.dev.ata ∧
      (∀ k ≥ 16384, (fsFormat (current cp) material c).2.mem.bitmap k = c.mem.bitmap k) ∧
      ∃ slot, slot.key = superblockKey cp (sealedSuperblock material N) ∧
        slot.nonce = superblockNonce (sealedSuperblock material N) ∧
        Sealed slot (fsFormat (current cp) material c).2.dev ∧
        Fresh N (unsealed cp slot (fsFormat (current cp) material c).2.dev.ata).disk
          (fsFormat (current cp) material c).2.mem := by
  obtain ⟨hd0, hsame, slot, m₁, hk, hn, hsealed, hm₁, hlaid⟩ := fsFormat_laid hreg h hN
  rw [hm₁]
  exact ⟨hlaid.tables.superblock, hd0, hsame, hlaid.tables.beyond, slot, hk, hn, hsealed, hlaid.fresh⟩

/-- Without faults the format succeeds on every disk that is large enough. -/
theorem fsFormat_current_ok (hreg : Registry c.dev) (hready : c.dev.ata.diskReady = true)
    (hsize : 129 < c.dev.ata.diskSectors) (hf : ∀ n, c.dev.ata.faults n = false)
    (ha : (blockdevFindByName c.dev ata0).isSome) (hslot : ∃ s < 2, (c.dev.slots s).inUse = false)
    (hroom : c.dev.deviceCount < 8) : (fsFormat (current cp) material c).1 = true := by
  obtain ⟨N, hN⟩ : ∃ N, min c.dev.ata.diskSectors 131072 = N := ⟨_, rfl⟩
  rcases hset : fsSetupDiskDevice cp true material (freshSuperblock N) c.dev with ⟨ok, b, d⟩
  obtain rfl : ok = true := by
    have hs : (fsSetupDiskDevice cp true material (freshSuperblock N) c.dev).1 = true :=
      fsSetup_ok cp material (by simp) ha hslot hroom
    rwa [hset] at hs
  obtain rfl : b = sealedSuperblock material N := fsSetup_superblock hset
  obtain ⟨hata, slot, -, -, hsealed⟩ := fsSetup_sealed hreg hset rfl
  have htab := formatTables_run_ok (m := { c.mem with superblock := sealedSuperblock material N })
    (sealed_hom cp slot) hsealed (N := N) (show d.ata.diskReady = true by rw [hata]; exact hready)
    (show N ≤ d.ata.diskSectors by rw [hata]; omega) (by omega) (by omega) rfl
    (show ∀ n, d.ata.faults n = false by rw [hata]; exact hf)
  rcases hrun : run (fsDisk cp) formatTables ⟨{ c.mem with superblock := sealedSuperblock material N }, d⟩ with ⟨ok, c₁⟩
  rw [hrun] at htab
  obtain rfl : ok = true := htab
  obtain ⟨-, hsame, -⟩ := formatTables_run (sealed_hom cp slot) hsealed (N := N)
    (show d.ata.diskReady = true by rw [hata]; exact hready) (show N ≤ d.ata.diskSectors by rw [hata]; omega)
    (by omega) (by omega) rfl hrun
  have hs1 : c₁.dev.ata.diskReady = true := hsame.1.trans (by rw [← hready, ← hata]; rfl)
  have hs2 : c₁.dev.ata.diskSectors = c.dev.ata.diskSectors := hsame.2.1.trans (by rw [← hata]; rfl)
  have hs3 : c₁.dev.ata.faults = c.dev.ata.faults := hsame.2.2.trans (by rw [← hata]; rfl)
  rcases hsave : run rawDisk saveSuperblock c₁ with ⟨ok, c₂⟩
  obtain rfl : ok = true := by
    rw [← show (run rawDisk saveSuperblock c₁).1 = ok by rw [hsave],
      (run_hom (rawDisk_hom c₁.dev) saveSuperblock c₁ rfl).1]
    exact saveSuperblock_ok (c := ⟨c₁.mem, c₁.dev.ata⟩) hs1 (show 0 < c₁.dev.ata.diskSectors by omega) fun n =>
      (congrFun hs3 n).trans (hf n)
  have hset' : (current cp).setup true material (freshSuperblock (min ((current cp).sectorCount c.dev) 131072)) c.dev =
      (true, sealedSuperblock material N, d) := by
    rw [show min ((current cp).sectorCount c.dev) 131072 = N from hN]; exact hset
  rw [fsFormat_of (P := current cp) hready hsize hset' hrun hsave]

end

/-! ## A blank disk -/

/-- A drive of zeros on which no request fails. -/
def blankDrive (sectors : Nat) : Ata := ⟨true, sectors, fun _ _ => 0, fun _ => false, []⟩

/-- The kernel at the point where it mounts its disk. -/
def bootConf (a : Ata) : Conf FsMem Machine := ⟨FsMem.boot, bootMachine a⟩

/-- The simplest instance of the cryptographic functions: the examples below do not depend on
them. -/
def nullPrimitives : Primitives := ⟨fun _ block => block, fun _ _ => 0⟩

theorem fsFormat_boot (cp : Primitives) (material : Nat → Byte) {a : Ata} (hready : a.diskReady = true)
    (hsize : 129 < a.diskSectors) (hf : ∀ n, a.faults n = false) :
    (fsFormat (current cp) material (bootConf a)).1 = true := by
  refine fsFormat_current_ok (Registry.boot a) hready hsize hf ?_ ⟨0, by omega, ?_⟩ ?_
  · rfl
  · rfl
  · show 1 < 8
    omega

/-- The file names "a" and "b". -/
def nameA : CStr := ⟨[0x61], by decide⟩

def nameB : CStr := ⟨[0x62], by decide⟩

end SpectreOS
