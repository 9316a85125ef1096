/-
When mounting a disk that holds a filesystem writes to it: `fs_init` takes every failure of
`load_superblock` for a blank disk, also a failed read of sector 0. With sector 0 read, mounting
only reads; with sector 0 unreadable and a disk that can be formatted, it is formatted.
-/
import SpectreOS.Fs.Persist

namespace SpectreOS

open BlockIO Prog

section

variable {cp : Primitives} {formatting : Bool} {material : Nat → Byte} {b : Superblock} {m : Machine}

/-! ## The set-up touches no sector -/

theorem blockdevRegister_ata (m : Machine) (name : List Char) (driver : Driver) :
    (blockdevRegister m name driver).2.ata = m.ata := by
  unfold blockdevRegister; split <;> rfl

theorem cryptoDiskCreate_ata (m : Machine) (name : List Char) (id : Nat) (key : Block 32) (nonce : Block 8) :
    (cryptoDiskCreateWithNonce m name id key nonce).2.ata = m.ata := by
  unfold cryptoDiskCreateWithNonce
  split
  · rfl
  · rw [blockdevRegister_ata]

theorem fsSetup_ata : (fsSetupDiskDevice cp formatting material b m).2.2.ata = m.ata := by
  unfold fsSetupDiskDevice
  split
  · rfl
  · rename_i ataId _
    dsimp only
    generalize (if formatting then { b with reserved := sealedReserved material b.reserved } else b) = b₁
    split
    · rfl
    · rcases hc : cryptoDiskCreateWithNonce m ['f', 's', 'e', 'n', 'c', '0'] ataId (superblockKey cp b₁)
          (superblockNonce b₁) with ⟨_ | id, m₁⟩
      all_goals
        have := cryptoDiskCreate_ata m ['f', 's', 'e', 'n', 'c', '0'] ataId (superblockKey cp b₁) (superblockNonce b₁)
        rw [hc] at this
        exact this

/-- A set-up device is the drive or a crypto slot over it. -/
theorem fsSetup_device (hreg : Registry m) {b' : Superblock} {m' : Machine}
    (h : fsSetupDiskDevice cp formatting material b m = (true, b', m')) : OnAta m' ∨ ∃ slot, Sealed slot m' := by
  by_cases hmagic : b'.reserved 0 = fsEncryptionMagic
  · obtain ⟨-, slot, -, -, hs⟩ := fsSetup_sealed hreg h hmagic
    exact .inr ⟨slot, hs⟩
  · left
    unfold fsSetupDiskDevice at h
    cases hf : blockdevFindByName m ['a', 't', 'a', '0'] with
    | none => simp [hf] at h
    | some ataId =>
      obtain ⟨dev, hget, hdrv, -⟩ := hreg.get_ata hf
      simp only [hf] at h
      generalize (if formatting then { b with reserved := sealedReserved material b.reserved } else b) = b₁ at h
      split at h
      · simp only [Prod.mk.injEq, true_and] at h
        obtain ⟨-, rfl⟩ := h
        exact ⟨dev, hget, hdrv⟩
      · rename_i hm
        split at h
        · cases h
        · simp only [Prod.mk.injEq, true_and] at h
          exact absurd (h.1 ▸ not_not.1 hm) hmagic

theorem readOnly_run (cp : Primitives) {m : Machine} (hdev : OnAta m ∨ ∃ slot, Sealed slot m) (mem : FsMem) :
    OnlyRead m.ata (loadTables.run (fsDisk cp) ⟨mem, m⟩).2.dev.ata := by
  have hrefl : OnlyRead m.ata m.ata := ⟨rfl, ⟨rfl, rfl, rfl⟩, .refl _ _⟩
  rcases hdev with hdev | ⟨slot, hdev⟩
  · have hm : Models readOnly (fsDisk cp) fun _ m' => OnAta m' ∧ OnlyRead m.ata m'.ata := by
      constructor
      · rintro g m' lba ⟨h1, h2⟩ -
        refine ⟨g, trivial, ?_⟩
        rw [h1.read_eq cp lba]
        exact ⟨h1, h2.read lba⟩
      · rintro g m' lba b - hno
        exact hno.elim
    obtain ⟨-, -, -, h⟩ := wp_sound hm loadTables (c := ⟨mem, m⟩) (loadTables_readOnly mem) ⟨hdev, hrefl⟩
    exact h
  · obtain ⟨-, -, -, h⟩ := wp_sound (readOnly_models cp m) loadTables (c := ⟨mem, m⟩) (loadTables_readOnly mem)
      ⟨hdev, hrefl⟩
    exact h

end

/-! ## Formatting writes -/

/-- The ghost state says whether a sector below `N` has been written to. -/
def writes (N : Nat) : Iface Bool Sector where
  readPre _ _ := True
  readPost g _ _ g' := g' = g
  writePre _ _ _ := True
  writePost g lba _ _ g' := g' = (g || decide (lba < N))

theorem wp_writes_true {N : Nat} {α : Type} (p : FsM α) (m : FsMem) :
    p.wp (writes N) (fun _ g _ => g = true) true m := by
  induction p generalizing m with
  | ret a => rfl
  | get k ih => exact ih _ m
  | put s k ih => exact ih s
  | read lba k ih =>
    refine ⟨trivial, ?_⟩
    rintro r g rfl
    exact ih r m
  | write lba b k ih =>
    refine ⟨trivial, ?_⟩
    rintro ok g rfl
    exact ih ok m

theorem wp_writes_seq {N : Nat} {α α' : Type} {p : FsM α} {f : α → FsM α'} {m : FsMem}
    (h : p.wp (writes N) (fun _ g _ => g = true) false m) :
    (p >>= f).wp (writes N) (fun _ g _ => g = true) false m := by
  refine h.seq ?_
  rintro a g m' rfl
  exact wp_writes_true _ _

theorem saveBitmap_writes {N : Nat} (hN : 1 < N) (m : FsMem) :
    saveBitmap.wp (writes N) (fun _ g _ => g = true) false m := by
  unfold saveBitmap
  rw [show List.range fsBitmapSectors = 0 :: (List.range 31).map (· + 1) from List.range_succ_eq_map, List.allM]
  refine wp_writes_seq ?_
  rw [wp_bind, wp_load, wp_writeBlock]
  refine ⟨trivial, ?_⟩
  rintro ok g rfl
  simp [fsBitmapStart, hN]

/-- Formatting begins with a write. -/
theorem formatTables_writes {N : Nat} {m : FsMem} (h1 : 129 < m.superblock.totalSectors)
    (h2 : m.superblock.totalSectors ≤ 131072) (hN : 1 < N) :
    formatTables.wp (writes N) (fun _ g _ => g = true) false m := by
  unfold formatTables
  rw [wp_bind, wp_modify]
  have hm := resetTables_rooted m
  generalize resetTables m = m₁ at hm ⊢
  refine wp_writes_seq ?_
  rw [List.finRange_succ, List.allM]
  refine wp_writes_seq (wp_writes_seq ?_)
  unfold allocateSector
  rw [wp_bind, wp_load, hm.firstFree (by omega) h1 h2]
  dsimp only
  rw [wp_bind, wp_modify]
  exact wp_writes_seq (saveBitmap_writes hN _)

/-- Since `a` the drive's log has only grown, by a write request if `g`. -/
def WroteSince (a : Ata) (g : Bool) (a' : Ata) : Prop :=
  SameDrive a a' ∧ a.log <+: a'.log ∧ (g = true → ¬ Extends a.log a'.log fun q => q.isWrite = false)

namespace WroteSince

variable {a a' : Ata} {g : Bool}

theorem snoc (h : WroteSince a g a') (q : Request) :
    a.log <+: a'.log ++ [q] ∧ (g = true → ¬ Extends a.log (a'.log ++ [q]) fun q => q.isWrite = false) := by
  obtain ⟨-, ⟨t, ht⟩, h3⟩ := h
  refine ⟨⟨t ++ [q], by rw [← ht, List.append_assoc]⟩, ?_⟩
  rintro hg ⟨reqs, he, hr⟩
  rw [← ht, List.append_assoc, List.append_cancel_left_eq] at he
  exact h3 hg ⟨t, ht.symm, fun x hx => hr x (by rw [← he]; exact List.mem_append_left _ hx)⟩

theorem read (h : WroteSince a g a') (lba : Nat) : WroteSince a g (ataReadSector a' lba).2 := by
  refine ⟨h.1.trans (ataReadSector_sameDrive a' lba), ?_⟩
  simp only [ataReadSector]
  split
  · split <;> exact h.snoc _
  · exact h.2

theorem write {N : Nat} (h : WroteSince a g a') (hready : a.diskReady = true) (hsize : N ≤ a.diskSectors)
    (hN : N ≤ 131072) (lba : Nat) (s : Sector) :
    WroteSince a (g || decide (lba < N)) (ataWriteSector a' lba s).2 := by
  refine ⟨h.1.trans (ataWriteSector_sameDrive a' lba s), ?_⟩
  have hnew : ∀ ok, ¬ Extends a.log (a'.log ++ [.write lba s ok]) fun q => q.isWrite = false := by
    rintro ok ⟨reqs, he, hr⟩
    obtain ⟨t, ht⟩ := h.2.1
    rw [← ht, List.append_assoc, List.append_cancel_left_eq] at he
    have := hr (.write lba s ok) (by rw [← he]; simp)
    simp [Request.isWrite] at this
  simp only [ataWriteSector]
  split
  · split
    · exact ⟨(h.snoc _).1, fun _ => hnew _⟩
    · exact ⟨(h.snoc _).1, fun _ => hnew _⟩
  · rename_i hacc
    refine ⟨h.2.1, fun hg => ?_⟩
    rw [Bool.or_eq_true, decide_eq_true_eq] at hg
    -- a sector below `N` would have been accepted
    refine h.2.2 (hg.resolve_right fun hlt => hacc ?_)
    simp only [Ata.accepts, h.1.1, hready, h.1.2.1, Bool.true_and, Bool.and_eq_true, decide_eq_true_eq]
    omega

theorem models (cp : Primitives) (slot : CryptoSlot) {N : Nat} (hready : a.diskReady = true)
    (hsize : N ≤ a.diskSectors) (hN : N ≤ 131072) :
    Models (writes N) (fsDisk cp) fun g m => Sealed slot m ∧ WroteSince a g m.ata := by
  constructor
  · rintro g m lba ⟨h1, h2⟩ -
    refine ⟨g, rfl, ?_⟩
    rw [h1.read_eq cp lba]
    exact ⟨h1.withAta _, h2.read lba⟩
  · rintro g m lba b ⟨h1, h2⟩ -
    refine ⟨_, rfl, ?_⟩
    rw [h1.write_eq cp lba b]
    exact ⟨h1.withAta _, h2.write hready hsize hN lba _⟩

end WroteSince

/-! ## Mounting a disk that holds a filesystem -/

theorem Extends.of_prefix {log log' log'' : List Request} {P : Request → Prop} (h : Extends log log'' P)
    (h1 : log <+: log') (h2 : log' <+: log'') : Extends log' log'' P := by
  obtain ⟨reqs, rfl, hr⟩ := h
  obtain ⟨t, rfl⟩ := h1
  obtain ⟨u, hu⟩ := h2
  rw [List.append_assoc, List.append_cancel_left_eq] at hu
  exact ⟨u, by rw [← hu, List.append_assoc], fun q hq => hr q (by rw [← hu]; exact List.mem_append_right _ hq)⟩

theorem ataWriteSector_log (a : Ata) (lba : Nat) (s : Sector) : a.log <+: (ataWriteSector a lba s).2.log := by
  unfold ataWriteSector
  split
  · split <;> exact List.prefix_append _ _
  · exact List.prefix_rfl

/-- What `fs_format` needs before its first write. -/
structure CanFormat (m : Machine) : Prop where
  ready : m.ata.diskReady = true
  size : 129 < m.ata.diskSectors
  ata0 : (blockdevFindByName m ata0).isSome
  slot : ∃ s < 2, (m.slots s).inUse = false
  room : m.deviceCount < 8

section

variable {cp : Primitives} {material : Nat → Byte} {c : Conf FsMem Machine}

/-- Formatting writes as soon as it has its device. -/
theorem fsFormat_writes (hreg : Registry c.dev) (hcan : CanFormat c.dev) :
    c.dev.ata.log <+: (fsFormat (current cp) material c).2.dev.ata.log ∧
      ¬ Extends c.dev.ata.log (fsFormat (current cp) material c).2.dev.ata.log fun q => q.isWrite = false := by
  obtain ⟨N, hN⟩ : ∃ N, min c.dev.ata.diskSectors 131072 = N := ⟨_, rfl⟩
  have hsize := hcan.size
  rcases hset : fsSetupDiskDevice cp true material (freshSuperblock N) c.dev with ⟨ok, b, d⟩
  obtain rfl : ok = true := by
    have hs : (fsSetupDiskDevice cp true material (freshSuperblock N) c.dev).1 = true :=
      fsSetup_ok cp material (by simp) hcan.ata0 hcan.slot hcan.room
    rwa [hset] at hs
  obtain rfl : b = sealedSuperblock material N := fsSetup_superblock hset
  obtain ⟨hata, slot, -, -, hsealed⟩ := fsSetup_sealed hreg hset rfl
  -- the first table write reaches the drive
  have hwp := formatTables_writes (N := N) (m := { c.mem with superblock := sealedSuperblock material N })
    (show 129 < N by omega) (show N ≤ 131072 by omega) (by omega)
  have hsound :=
    wp_sound (WroteSince.models (a := c.dev.ata) cp slot (N := N) hcan.ready (by omega) (by omega)) formatTables
    (c := ⟨{ c.mem with superblock := sealedSuperblock material N }, d⟩) hwp
    ⟨hsealed, by rw [hata]; exact ⟨⟨rfl, rfl, rfl⟩, List.prefix_rfl, by simp⟩⟩
  rcases hrun : run (fsDisk cp) formatTables ⟨{ c.mem with superblock := sealedSuperblock material N }, d⟩ with ⟨ok, c₁⟩
  rw [hrun] at hsound
  obtain ⟨g, hg, -, -, ⟨t, ht⟩, hno⟩ := hsound
  -- writing the superblock only adds to the log
  have hfin : c₁.dev.ata.log <+: (fsFormat (current cp) material c).2.dev.ata.log := by
    have hpres : (current cp).present c.dev = true := hcan.ready
    have hcount : ¬ (current cp).sectorCount c.dev ≤ fsDataStart + fsDirectBlocks := by
      simp only [current, fsDataStart, fsDirectBlocks]; omega
    have hmin : min ((current cp).sectorCount c.dev) (fsBitmapSectors * 4096) = N := hN
    have hset' : (current cp).setup true material (freshSuperblock N) c.dev = (true, sealedSuperblock material N, d) :=
      hset
    have hrun' : run (current cp).disk formatTables ⟨{ c.mem with superblock := sealedSuperblock material N }, d⟩ =
      (ok, c₁) := hrun
    unfold fsFormat
    simp only [hpres, hcount, hmin, hset', hrun', Bool.not_true, Bool.false_eq_true, ↓reduceIte]
    cases ok with
    | false => exact List.prefix_rfl
    | true =>
      simp only
      have hsave : (run (current cp).raw saveSuperblock c₁).2.dev.ata =
          (ataWriteSector c₁.dev.ata 0 (superblockSector c₁.mem.superblock)).2 := rfl
      rcases hs : run (current cp).raw saveSuperblock c₁ with ⟨_ | _, c₂⟩
      all_goals
        rw [hs] at hsave
        simp only
        rw [hsave]
        exact ataWriteSector_log _ _ _
  refine ⟨.trans ⟨t, ht⟩ hfin, ?_⟩
  rintro ⟨reqs, he, hr⟩
  obtain ⟨u, hu⟩ := hfin
  rw [← hu, ← ht, List.append_assoc, List.append_cancel_left_eq] at he
  exact hno hg ⟨t, ht.symm, fun q hq => hr q (by rw [← he]; exact List.mem_append_left _ hq)⟩

/-- The superblock read of `fs_init`. -/
theorem loadSuperblock_raw (mem : FsMem) (m : Machine) :
    loadSuperblock.run rawDisk ⟨mem, m⟩ = match (ataReadSector m.ata 0).1 with
      | none => (false, ⟨mem, { m with ata := (ataReadSector m.ata 0).2 }⟩)
      | some block => ((Superblock.ofImage (block.slice 0)).accepted,
          ⟨{ mem with superblock := .ofImage (block.slice 0) }, { m with ata := (ataReadSector m.ata 0).2 }⟩) := by
  simp only [loadSuperblock, run_bind, run_readBlock, rawDisk, fsSuperblockSector]
  cases (ataReadSector m.ata 0).1 <;> rfl

/-- When sector 0 cannot be read, `fs_init` formats. -/
theorem fsInit_unread (hready : c.dev.ata.diskReady = true) {a : Ata} (hread : ataReadSector c.dev.ata 0 = (none, a)) :
    fsInit (current cp) material c = fsFormat (current cp) material
      ⟨{ c.mem with filesystemReady := false }, { c.dev with ata := a }⟩ := by
  have hpres : (current cp).present c.dev = true := hready
  have hload : loadSuperblock.run (current cp).raw ⟨{ c.mem with filesystemReady := false }, c.dev⟩ =
      (false, ⟨{ c.mem with filesystemReady := false }, { c.dev with ata := a }⟩) := by
    rw [show (current cp).raw = rawDisk from rfl, loadSuperblock_raw, hread]
  unfold fsInit
  simp only [hpres, Bool.not_true, Bool.false_eq_true, ↓reduceIte, hload]

/-- A failed read of sector 0 formats a disk that can be formatted. -/
theorem fsInit_writes (hreg : Registry c.dev) (hcan : CanFormat c.dev)
    (hfault : c.dev.ata.faults c.dev.ata.log.length = true) :
    ¬ Extends c.dev.ata.log (fsInit (current cp) material c).2.dev.ata.log fun q => q.isWrite = false := by
  have hacc : c.dev.ata.accepts 0 = true := by
    have := hcan.size
    simp only [Ata.accepts, hcan.ready, Bool.true_and, Bool.and_eq_true, decide_eq_true_eq]; omega
  have hread : ataReadSector c.dev.ata 0 = (none, c.dev.ata.record (.read 0 false)) := by
    simp [ataReadSector, hacc, hfault]
  rw [fsInit_unread hcan.ready hread]
  intro h
  obtain ⟨hpre, hno⟩ := @fsFormat_writes cp material
    ⟨{ c.mem with filesystemReady := false }, { c.dev with ata := c.dev.ata.record (.read 0 false) }⟩
    ⟨hreg.used, hreg.count, hreg.ata0⟩ ⟨hcan.ready, hcan.size, hcan.ata0, hcan.slot, hcan.room⟩
  exact hno (h.of_prefix (List.prefix_append _ _) hpre)

/-- The set-up of a new disk needs a drive, a crypto slot and room in the registry. -/
theorem fsSetup_format_needs {b : Superblock} {m : Machine} (h : (fsSetupDiskDevice cp true material b m).1 = true) :
    (blockdevFindByName m ata0).isSome ∧ (∃ s < 2, (m.slots s).inUse = false) ∧ m.deviceCount < 8 := by
  unfold fsSetupDiskDevice at h
  cases hf : blockdevFindByName m ['a', 't', 'a', '0'] with
  | none => simp [hf] at h
  | some ataId =>
    simp only [hf, ↓reduceIte] at h
    rw [if_neg (by simp [sealedReserved])] at h
    unfold cryptoDiskCreateWithNonce at h
    cases hs : (List.range cryptoDiskMaxSlots).find? fun i => !(m.slots i).inUse with
    | none => simp [hs] at h
    | some k =>
      have hk := List.mem_of_find?_eq_some hs
      have hfree := List.find?_some hs
      simp only [List.mem_range, cryptoDiskMaxSlots, Bool.not_eq_true'] at hk hfree
      refine ⟨rfl, ⟨k, hk, hfree⟩, ?_⟩
      by_contra hge
      simp only [not_lt] at hge
      simp [hs, blockdevRegister, hge] at h

/-- Otherwise formatting gives up before its first request. -/
theorem fsFormat_refused (h : ¬ CanFormat c.dev) : (fsFormat (current cp) material c).2.dev.ata = c.dev.ata := by
  unfold fsFormat
  split
  · rfl
  · rename_i hp
    split
    · rfl
    · rename_i hs
      have hready : c.dev.ata.diskReady = true := by simpa [current] using hp
      have hsize : 129 < c.dev.ata.diskSectors := by
        have hs' : ¬ c.dev.ata.diskSectors ≤ fsDataStart + fsDirectBlocks := hs
        simp only [fsDataStart, fsDirectBlocks] at hs'; omega
      dsimp only
      generalize freshSuperblock (min ((current cp).sectorCount c.dev) (fsBitmapSectors * 4096)) = b
      rcases hset : (current cp).setup true material b c.dev with ⟨_ | _, b', d⟩
      · have : (fsSetupDiskDevice cp true material b c.dev).2.2.ata = c.dev.ata := fsSetup_ata
        rw [show fsSetupDiskDevice cp true material b c.dev = (false, b', d) from hset] at this
        exact this
      · obtain ⟨h1, h2, h3⟩ := @fsSetup_format_needs cp material b c.dev
          (by rw [show fsSetupDiskDevice cp true material b c.dev = (true, b', d) from hset])
        exact absurd ⟨hready, hsize, h1, h2, h3⟩ h

/-- With sector 0 read, mounting a filesystem only reads. -/
theorem fsInit_onlyRead (hreg : Registry c.dev)
    (hvalid : (Superblock.ofImage ((c.dev.ata.disk 0).slice 0)).accepted = true) (hacc : c.dev.ata.accepts 0 = true)
    (hok : c.dev.ata.faults c.dev.ata.log.length = false) :
    OnlyRead c.dev.ata (fsInit (current cp) material c).2.dev.ata := by
  have hread : ataReadSector c.dev.ata 0 = (some (c.dev.ata.disk 0), c.dev.ata.record (.read 0 true)) := by
    simp [ataReadSector, hacc, hok]
  have honly : OnlyRead c.dev.ata (c.dev.ata.record (.read 0 true)) := by
    have := OnlyRead.read (a := c.dev.ata) ⟨rfl, ⟨rfl, rfl, rfl⟩, .refl _ _⟩ 0
    rwa [hread] at this
  have hpres : (current cp).present c.dev = true := by
    simp only [Ata.accepts, Bool.and_eq_true] at hacc
    exact hacc.1.1
  generalize hb : Superblock.ofImage ((c.dev.ata.disk 0).slice 0) = b at hvalid
  have hload : loadSuperblock.run (current cp).raw ⟨{ c.mem with filesystemReady := false }, c.dev⟩ =
      (true, ⟨{ c.mem with filesystemReady := false, superblock := b },
        { c.dev with ata := c.dev.ata.record (.read 0 true) }⟩) := by
    rw [show (current cp).raw = rawDisk from rfl, loadSuperblock_raw, hread]
    simp only [hb, hvalid]
  unfold fsInit
  simp only [hpres, Bool.not_true, Bool.false_eq_true, ↓reduceIte, hload]
  have hset_ata : (fsSetupDiskDevice cp false material
    b { c.dev with ata := c.dev.ata.record (.read 0 true) }).2.2.ata =
      c.dev.ata.record (.read 0 true) := fsSetup_ata
  rcases hset : (current cp).setup false material b { c.dev with ata := c.dev.ata.record (.read 0 true) } with
    ⟨ok, b', d⟩
  rw [show fsSetupDiskDevice cp false material b { c.dev with ata := c.dev.ata.record (.read 0 true) } = (ok, b', d)
    from hset] at hset_ata
  simp only at hset_ata
  cases ok with
  | false =>
    simp only
    rw [hset_ata]; exact honly
  | true =>
    have hdev := fsSetup_device (m := { c.dev with ata := c.dev.ata.record (.read 0 true) })
      ⟨hreg.used, hreg.count, hreg.ata0⟩ hset
    have hrun := readOnly_run cp hdev { c.mem with filesystemReady := false, superblock := b' }
    rw [hset_ata] at hrun
    simp only
    have htrans : OnlyRead c.dev.ata (run (fsDisk cp) loadTables
        ⟨{ c.mem with filesystemReady := false, superblock := b' }, d⟩).2.dev.ata :=
      ⟨hrun.1.trans honly.1, honly.2.1.trans hrun.2.1, honly.2.2.trans hrun.2.2⟩
    rcases hl : loadTables.run (current cp).disk ⟨{ c.mem with filesystemReady := false, superblock := b' }, d⟩ with
      ⟨_ | _, c₂⟩
    all_goals
      rw [show run (fsDisk cp) loadTables ⟨{ c.mem with filesystemReady := false, superblock := b' }, d⟩ = _ from hl]
        at htrans
      exact htrans

end

section

variable (cp : Primitives) (material : Nat → Byte) (c : Conf FsMem Machine)

/-- Mounting a disk that holds a filesystem writes to it exactly when the read of sector 0 fails and
the disk can be formatted. -/
theorem fsInit_noWrite_iff (hreg : Registry c.dev)
    (hvalid : (Superblock.ofImage ((c.dev.ata.disk 0).slice 0)).accepted = true) :
    (Extends c.dev.ata.log (fsInit (current cp) material c).2.dev.ata.log fun q => q.isWrite = false) ↔
      c.dev.ata.faults c.dev.ata.log.length = false ∨ ¬ CanFormat c.dev := by
  constructor
  · intro h
    by_contra hno
    simp only [not_or, Bool.not_eq_false, not_not] at hno
    exact fsInit_writes hreg hno.2 hno.1 h
  · intro h
    by_cases hacc : c.dev.ata.accepts 0 = true
    · cases hf : c.dev.ata.faults c.dev.ata.log.length with
      | false => exact (fsInit_onlyRead hreg hvalid hacc hf).2.2
      | true =>
        have hcan := h.resolve_left (by simp [hf])
        have hread : ataReadSector c.dev.ata 0 = (none, c.dev.ata.record (.read 0 false)) := by
          simp [ataReadSector, hacc, hf]
        have hready : c.dev.ata.diskReady = true := by
          simp only [Ata.accepts, Bool.and_eq_true] at hacc
          exact hacc.1.1
        rw [fsInit_unread hready hread, fsFormat_refused]
        · exact (Extends.refl _ _).snoc rfl
        · exact fun hc => hcan ⟨hc.ready, hc.size, hc.ata0, hc.slot, hc.room⟩
    · -- without sector 0 there is nothing to format
      have hcan : ¬ CanFormat c.dev := fun hc => hacc (by
        have := hc.size
        simp only [Ata.accepts, hc.ready, Bool.true_and, Bool.and_eq_true, decide_eq_true_eq]; omega)
      have hread : ataReadSector c.dev.ata 0 = (none, c.dev.ata) := by simp [ataReadSector, hacc]
      cases hready : c.dev.ata.diskReady with
      | false =>
        have hinit : (fsInit (current cp) material c).2.dev = c.dev := by
          have hpres : (current cp).present c.dev = false := hready
          unfold fsInit
          simp [hpres]
        rw [hinit]; exact .refl _ _
      | true =>
        rw [fsInit_unread hready hread, fsFormat_refused]
        · exact .refl _ _
        · exact fun hc => hcan ⟨hc.ready, hc.size, hc.ata0, hc.slot, hc.room⟩

/-- A drive that holds an empty filesystem and fails its first `failing` requests. -/
def formattedDrive (failing : Nat) : Ata :=
  { blankDrive 200 with
    disk := fun lba => if lba = 0 then superblockSector (freshSuperblock 200) else fun _ => 0
    faults := fun n => decide (n < failing) }

theorem formattedDrive_valid (failing : Nat) :
    (Superblock.ofImage (((formattedDrive failing).disk 0).slice 0)).accepted = true := by
  have hfits : (freshSuperblock 200).Fits := freshSuperblock_fits (by omega) fun _ => by omega
  show (Superblock.ofImage ((superblockSector (freshSuperblock 200)).slice 0)).accepted = true
  rw [superblockSector_slice _ hfits]
  exact accepted_of_layout (fun _ => 0) (show 129 < 200 by omega) (by omega) rfl

/-- With no failing request the mount writes nothing. -/
theorem fsInit_noWrite_boot :
    (Superblock.ofImage (((bootConf (formattedDrive 0)).dev.ata.disk 0).slice 0)).accepted = true ∧
      (Extends (formattedDrive 0).log
        (fsInit (current nullPrimitives) (fun _ => 0) (bootConf (formattedDrive 0))).2.dev.ata.log
        fun q => q.isWrite = false) :=
  ⟨formattedDrive_valid 0,
    (fsInit_noWrite_iff nullPrimitives (fun _ => 0) (bootConf (formattedDrive 0)) (Registry.boot _)
    (formattedDrive_valid 0)).2 (.inl rfl)⟩

/-- When the first request fails, the filesystem is formatted over. -/
theorem fsInit_reformats :
    (Superblock.ofImage (((bootConf (formattedDrive 1)).dev.ata.disk 0).slice 0)).accepted = true ∧
      ¬ (Extends (formattedDrive 1).log
        (fsInit (current nullPrimitives) (fun _ => 0) (bootConf (formattedDrive 1))).2.dev.ata.log
        fun q => q.isWrite = false) :=
  ⟨formattedDrive_valid 1, fsInit_writes (c := bootConf (formattedDrive 1)) (Registry.boot _)
    ⟨rfl, show 129 < 200 by omega, rfl, ⟨0, by omega, rfl⟩, show 1 < 8 by omega⟩ rfl⟩

end

end SpectreOS
