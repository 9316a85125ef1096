/-
The current code on the disks of the legacy code. The reserved words of their superblock are zero, so
`fs_setup_disk_device` chooses the drive itself, and from there on the two codes make the same
requests, whatever fails. Neither writes sector 0, so a disk stays one of the legacy code and each of
them can go on where the other has stopped.
-/
import SpectreOS.Fs.Reformat

namespace SpectreOS

open BlockIO Prog

/-! ## Unencrypted disks -/

/-- The superblock `fs_init` finds on a disk. -/
def onDisk (disk : Nat → Sector) : Superblock := .ofImage ((disk 0).slice 0)

/-- `fs_init` mounts the disk, without encryption. -/
structure Plain (disk : Nat → Sector) : Prop where
  accepted : (onDisk disk).accepted = true
  reserved : ∀ i, (onDisk disk).reserved i = 0

theorem Plain.of_layout {disk : Nat → Sector} {N : Nat} (h1 : 129 < N) (h2 : N ≤ 131072)
    (h : disk 0 = superblockSector (freshSuperblock N)) : Plain disk := by
  have hsb : onDisk disk = freshSuperblock N := by
    unfold onDisk
    rw [h]
    exact superblockSector_slice _ (freshSuperblock_fits h2 fun _ => by omega)
  constructor
  · rw [hsb]; exact accepted_of_layout (fun _ => 0) h1 h2 rfl
  · intro i; rw [hsb]; rfl

theorem Plain.congr {disk disk' : Nat → Sector} (h : Plain disk) (h0 : disk' 0 = disk 0) : Plain disk' := by
  have hsb : onDisk disk' = onDisk disk := by unfold onDisk; rw [h0]
  constructor
  · rw [hsb]; exact h.accepted
  · rw [hsb]; exact h.reserved

theorem SparesZero.plain {a a' : Ata} (h : SparesZero a a') (hp : Plain a.disk) : Plain a'.disk := hp.congr h.1

/-! ## Mounting -/

/-- `fs_init` after the superblock: the tables, and on success the handles. -/
def mountTables {δ : Type} (P : Platform δ) (c : Conf FsMem δ) : Bool × Conf FsMem δ :=
  match loadTables.run P.disk c with
  | (false, c) => (false, c)
  | (true, c) => (true, { c with mem := mounted c.mem })

section

variable {δ : Type} {P : Platform δ} {material : Nat → Byte} {c c₁ : Conf FsMem δ} {b : Superblock} {d : δ}

theorem fsInit_mountTables (hp : P.present c.dev = true)
    (hload : loadSuperblock.run P.raw { c with mem := { c.mem with filesystemReady := false } } = (true, c₁))
    (hset : P.setup false material c₁.mem.superblock c₁.dev = (true, b, d)) :
    fsInit P material c = mountTables P ⟨{ c₁.mem with superblock := b }, d⟩ := by
  rcases htables : loadTables.run P.disk ⟨{ c₁.mem with superblock := b }, d⟩ with ⟨_ | _, c₂⟩
  · simp only [fsInit, mountTables, hp, hload, hset, htables, Bool.not_true, Bool.false_eq_true, ↓reduceIte]
  · simp only [fsInit, mountTables, hp, hload, hset, htables, Bool.not_true, Bool.false_eq_true, ↓reduceIte]

/-- On devices that answer alike the mounts come out alike. -/
theorem mountTables_hom {ε : Type} {Q : Platform ε} {J : δ → Prop} {v : δ → ε}
    (h : Hom P.disk Q.disk J v) (hc : J c.dev) :
    (mountTables P c).1 = (mountTables Q ⟨c.mem, v c.dev⟩).1 ∧
      (mountTables P c).2.mem = (mountTables Q ⟨c.mem, v c.dev⟩).2.mem ∧
      v (mountTables P c).2.dev = (mountTables Q ⟨c.mem, v c.dev⟩).2.dev ∧ J (mountTables P c).2.dev := by
  obtain ⟨e1, e2, e3, e4⟩ := run_hom h loadTables c hc
  unfold mountTables
  rcases hr : loadTables.run P.disk c with ⟨ok, s⟩
  rcases ht : loadTables.run Q.disk ⟨c.mem, v c.dev⟩ with ⟨ok', t⟩
  rw [hr, ht] at e1 e2 e3
  rw [hr] at e4
  simp only at e1 e2 e3 e4
  subst e1
  cases ok with
  | false => exact ⟨rfl, e2, e3, e4⟩
  | true => exact ⟨rfl, congrArg mounted e2, e3, e4⟩

end

theorem mountTables_sparesZero (c : Conf FsMem Ata) : SparesZero c.dev (mountTables legacy c).2.dev := by
  have h := loadTables_sparing.run c
  unfold mountTables
  rcases hr : loadTables.run legacy.disk c with ⟨_ | _, s⟩
  all_goals
    rw [show loadTables.run ata c = _ from hr] at h
    exact h

/-! ## The two codes -/

theorem ataReadSector_some {a : Ata} {lba : Nat} {block : Sector} (h : (ataReadSector a lba).1 = some block) :
    block = a.disk lba ∧ a.diskReady = true := by
  unfold ataReadSector at h
  split at h
  · rename_i hacc
    split at h
    · cases h
    · simp only [Ata.accepts, Bool.and_eq_true] at hacc
      exact ⟨(Option.some.inj h).symm, hacc.1.1⟩
  · cases h

section

variable {cp : Primitives} {material : Nat → Byte} {mem : FsMem}

/-- The legacy `fs_init` on a disk whose superblock it reads. -/
theorem fsInit_legacy {a : Ata} (hp : Plain a.disk) (hread : (ataReadSector a 0).1.isSome) :
    fsInit legacy material ⟨mem, a⟩ = mountTables legacy
      ⟨{ mem with filesystemReady := false, superblock := onDisk a.disk }, (ataReadSector a 0).2⟩ := by
  obtain ⟨block, hblock⟩ := Option.isSome_iff_exists.1 hread
  obtain ⟨rfl, hready⟩ := ataReadSector_some hblock
  have hload : loadSuperblock.run legacy.raw ⟨{ mem with filesystemReady := false }, a⟩ =
      (true, ⟨{ mem with filesystemReady := false, superblock := onDisk a.disk }, (ataReadSector a 0).2⟩) := by
    show loadSuperblock.run ata _ = _
    simp only [loadSuperblock, run_bind, run_readBlock, ata, fsSuperblockSector, hblock]
    have hacc := hp.accepted
    unfold onDisk at hacc
    simp only [run_modify, run_pure, hacc]
    rfl
  exact fsInit_mountTables (c := ⟨mem, a⟩) hready hload rfl

/-- The current `fs_init` then mounts the drive itself. -/
theorem fsInit_plain {m : Machine} (hp : Plain m.ata.disk) (hreg : Registry m)
    (hata : (blockdevFindByName m ata0).isSome) (hread : (ataReadSector m.ata 0).1.isSome) :
    ∃ m₁ : Machine, m₁.ata = (ataReadSector m.ata 0).2 ∧ OnAta m₁ ∧
      fsInit (current cp) material ⟨mem, m⟩ =
        mountTables (current cp) ⟨{ mem with filesystemReady := false, superblock := onDisk m.ata.disk }, m₁⟩ := by
  obtain ⟨block, hblock⟩ := Option.isSome_iff_exists.1 hread
  obtain ⟨rfl, hready⟩ := ataReadSector_some hblock
  obtain ⟨id, hid⟩ := Option.isSome_iff_exists.1 hata
  obtain ⟨dev, hget, hdriver, -⟩ := hreg.get_ata hid
  have hload : loadSuperblock.run (current cp).raw ⟨{ mem with filesystemReady := false }, m⟩ =
      (true, ⟨{ mem with filesystemReady := false, superblock := onDisk m.ata.disk },
        { m with ata := (ataReadSector m.ata 0).2 }⟩) := by
    rw [show (current cp).raw = rawDisk from rfl, loadSuperblock_raw, hblock]
    have hacc := hp.accepted
    unfold onDisk at hacc
    simp only [hacc]
    rfl
  have hplain : (onDisk m.ata.disk).reserved 0 ≠ fsEncryptionMagic := by rw [hp.reserved]; decide
  have hset : (current cp).setup false material (onDisk m.ata.disk) { m with ata := (ataReadSector m.ata 0).2 } =
      (true, onDisk m.ata.disk,
        { m with ata := (ataReadSector m.ata 0).2, fsDiskDeviceId := id, fsEncrypted := false }) := by
    show fsSetupDiskDevice cp false material _ _ = _
    unfold fsSetupDiskDevice
    rw [show blockdevFindByName { m with ata := (ataReadSector m.ata 0).2 } ['a', 't', 'a', '0'] = some id from hid]
    simp [hplain]
  exact ⟨_, rfl, ⟨dev, hget, hdriver⟩, fsInit_mountTables (c := ⟨mem, m⟩) hready hload hset⟩

/-- A boot and the calls after it: the two codes return the same, hold the same tables and leave the
drive in the same state, its log included. -/
theorem runs_agree {m : Machine} (hp : Plain m.ata.disk) (hreg : Registry m) (hata : (blockdevFindByName m ata0).isSome)
    (hread : (ataReadSector m.ata 0).1.isSome) (calls : List Call) :
    let s := fsInit (current cp) material ⟨mem, m⟩
    let t := fsInit legacy material ⟨mem, m.ata⟩
    s.1 = t.1 ∧ (runCalls (fsDisk cp) calls s.2).1 = (runCalls ata calls t.2).1 ∧
      (runCalls (fsDisk cp) calls s.2).2.mem = (runCalls ata calls t.2).2.mem ∧
      (runCalls (fsDisk cp) calls s.2).2.dev.ata = (runCalls ata calls t.2).2.dev := by
  intro s t
  obtain ⟨m₁, hm₁, honAta, hinit⟩ := @fsInit_plain cp material mem m hp hreg hata hread
  obtain ⟨e1, e2, e3, e4⟩ :=
    @mountTables_hom _ (current cp) ⟨{ mem with filesystemReady := false, superblock := onDisk m.ata.disk }, m₁⟩
    _ legacy _ _ (onAta_hom cp) honAta
  rw [hm₁, ← @fsInit_legacy material mem m.ata hp hread, ← hinit] at e1 e2 e3
  rw [← hinit] at e4
  obtain ⟨i1, i2, i3, -⟩ := runCalls_hom (onAta_hom cp) calls s.2 e4
  have ht : (⟨s.2.mem, s.2.dev.ata⟩ : Conf FsMem Ata) = t.2 := Conf.ext e2 e3
  rw [ht] at i1 i2 i3
  exact ⟨e1, i1, i2, i3⟩

theorem run_legacy_sparesZero {a : Ata} (hp : Plain a.disk) (hread : (ataReadSector a 0).1.isSome) (calls : List Call) :
    SparesZero a (runCalls ata calls (fsInit legacy material ⟨mem, a⟩).2).2.dev := by
  have hzero : SparesZero a (ataReadSector a 0).2 := (Sparing.readBlock 0).run ⟨mem, a⟩
  refine hzero.trans (.trans ?_ (runCalls_sparesZero calls _))
  rw [fsInit_legacy hp hread]
  exact mountTables_sparesZero _

end

/-! ## The disks of the legacy code -/

/-- The disks of the legacy code, which has formatted them; since then either code has used them, and
requests may have failed once a boot had read the superblock. -/
inductive LegacyDisk (cp : Primitives) : (Nat → Sector) → Prop
  | format {material : Nat → Byte} {c : Conf FsMem Ata} (h : (fsFormat legacy material c).1 = true)
  (calls : List Call) :
      LegacyDisk cp (runCalls ata calls (fsFormat legacy material c).2).2.dev.disk
  | legacy {material : Nat → Byte} {mem : FsMem} {a : Ata} (h : LegacyDisk cp a.disk)
      (hread : (ataReadSector a 0).1.isSome) (calls : List Call) :
      LegacyDisk cp (runCalls ata calls (fsInit legacy material ⟨mem, a⟩).2).2.dev.disk
  | current {material : Nat → Byte} {mem : FsMem} {m : Machine} (h : LegacyDisk cp m.ata.disk) (hreg : Registry m)
      (hata : (blockdevFindByName m ata0).isSome) (hread : (ataReadSector m.ata 0).1.isSome) (calls : List Call) :
      LegacyDisk cp (runCalls (fsDisk cp) calls (fsInit (current cp) material ⟨mem, m⟩).2).2.dev.ata.disk

theorem LegacyDisk.plain {cp : Primitives} {disk : Nat → Sector} (h : LegacyDisk cp disk) : Plain disk := by
  induction h with
  | format h calls =>
    rename_i c
    obtain ⟨m₁, -, hlaid, hzero, -⟩ := fsFormat_legacy h rfl
    exact (runCalls_sparesZero calls _).plain (.of_layout hlaid.lo hlaid.hi hzero)
  | legacy _ hread calls ih => exact (run_legacy_sparesZero ih hread calls).plain ih
  | current _ hreg hata hread calls ih =>
    rw [(runs_agree ih hreg hata hread calls).2.2.2]
    exact (run_legacy_sparesZero ih hread calls).plain ih

section

variable {cp : Primitives} {material : Nat → Byte} {mem : FsMem} {m : Machine}

/-- From a disk of the legacy code, a boot and any calls: the two codes make the same requests in the
same order, return the same and leave the same disk, without a write to sector 0, and the disk is
again one either code can boot from. -/
theorem legacy_compatible (hdisk : LegacyDisk cp m.ata.disk) (hreg : Registry m)
    (hata : (blockdevFindByName m ata0).isSome) (hread : (ataReadSector m.ata 0).1.isSome) (calls : List Call) :
    let s := fsInit (current cp) material ⟨mem, m⟩
    let t := fsInit legacy material ⟨mem, m.ata⟩
    let s' := runCalls (fsDisk cp) calls s.2
    let t' := runCalls ata calls t.2
    (s.1 = t.1 ∧ s'.1 = t'.1) ∧ s'.2.mem = t'.2.mem ∧ s'.2.dev.ata.log = t'.2.dev.log ∧
      s'.2.dev.ata.disk = t'.2.dev.disk ∧ SparesZero m.ata t'.2.dev ∧ (∀ i, (onDisk t'.2.dev.disk).reserved i = 0) ∧
      LegacyDisk cp t'.2.dev.disk := by
  intro s t s' t'
  obtain ⟨e1, e2, e3, e4⟩ := @runs_agree cp material mem m hdisk.plain hreg hata hread calls
  have hnext : LegacyDisk cp t'.2.dev.disk := .legacy hdisk hread calls
  exact ⟨⟨e1, e2⟩, e3, congrArg Ata.log e4, congrArg Ata.disk e4, run_legacy_sparesZero hdisk.plain hread calls,
    hnext.plain.reserved, hnext⟩

/-- Both codes boot from a disk with one file and delete it, on a drive that fails every third request. -/
theorem legacy_compatible_boot :
    ∃ s₀, fsFormat legacy (fun _ => 0) ⟨FsMem.boot, blankDrive 200⟩ = (true, s₀) ∧
      let a : Ata := ⟨true, 200, (runCalls ata [.create nameA] s₀).2.dev.disk, fun n => n % 3 == 2, []⟩
      let s' := runCalls (fsDisk nullPrimitives) [.delete nameA]
        (fsInit (current nullPrimitives) (fun _ => 0) ⟨FsMem.boot, bootMachine a⟩).2
      let t' := runCalls ata [.delete nameA] (fsInit legacy (fun _ => 0) ⟨FsMem.boot, a⟩).2
      s'.1 = t'.1 ∧ s'.2.dev.ata.log = t'.2.dev.log ∧ s'.2.dev.ata.disk = t'.2.dev.disk := by
  have hformat : (fsFormat legacy (fun _ => 0) ⟨FsMem.boot, blankDrive 200⟩).1 = true :=
    fsFormat_legacy_ok rfl (by decide) fun _ => rfl
  have hdisk : LegacyDisk nullPrimitives _ := .format hformat [.create nameA]
  rcases hrun : fsFormat legacy (fun _ => 0) ⟨FsMem.boot, blankDrive 200⟩ with ⟨ok, s₀⟩
  rw [hrun] at hformat hdisk
  obtain rfl : ok = true := hformat
  refine ⟨s₀, rfl, ?_⟩
  generalize (runCalls ata [.create nameA] s₀).2.dev.disk = disk at hdisk ⊢
  intro a s' t'
  obtain ⟨⟨-, h1⟩, -, h2, h3, -⟩ := @legacy_compatible nullPrimitives (fun _ => 0) FsMem.boot (bootMachine a)
    hdisk (Registry.boot a) rfl rfl [.delete nameA]
  exact ⟨h1, h2, h3⟩

end

end SpectreOS
