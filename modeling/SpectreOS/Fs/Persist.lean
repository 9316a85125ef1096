/-
Persistence: as long as nothing fails, the tables on the disk are those in memory after every call,
and sector 0 is never written. A reboot at any such point mounts the disk without writing to it,
derives the key and nonce it was formatted with, and finds the same tables and the same sectors.
-/
import SpectreOS.Fs.Live
import SpectreOS.Fs.Runs

namespace SpectreOS

open BlockIO Prog

section

variable {N : Nat} {d d' : Nat → Sector} {m m' : FsMem}

/-! ## Memory and disk stay in step -/

theorem Synced.withEntry (h : Synced d m) {slot : Nat} (e : Dirent) : Synced (withEntry d slot e) m :=
  h.congr_disk fun _ _ h2 => withEntry_of_ne d slot e (by omega)

/-- Saving the one inode that differs brings a disk in step. -/
theorem synced_withInode {i : Nat} (hb : BitmapSaved d m) (hst : ∀ j < 128, j ≠ i → storedInode d j = m.inode j)
    (hf : (m.inode i).Fits) : Synced (withInode d i (m.inode i)) m := by
  refine ⟨fun k hk => ?_, fun j hj => ?_⟩
  · rw [withInode, Function.update_of_ne (by omega)]
    exact hb k hk
  · by_cases e : j = i
    · rw [e]; exact storedInode_withInode d i hf
    · rw [storedInode_withInode_of_ne d e, hst j hj e]

theorem Inode.fresh_fits : Inode.fresh.Fits := by
  intro k
  match k with
  | 0 => simp [Inode.word, Inode.fresh]
  | 1 => simp [Inode.word, Inode.fresh, Inode.zero]
  | 2 => simp [Inode.word, Inode.fresh, Inode.zero]
  | k + 3 => simp [Inode.word, Inode.fresh, Inode.zero]

theorem Created.synced {name : CStr} {res : Int} (h : Synced d m) (hc : Created false false d m name res d' m') :
    Synced d' m' := by
  cases hc with
  | refused => exact h
  | done i slot _ _ _ _ _ hi =>
    obtain ⟨-, -, i3⟩ := firstFreeInode_some hi
    have hin : (setInode m i .fresh).inode i = .fresh := by rw [inode_setInode, if_pos ⟨rfl, i3⟩]
    have := synced_withInode (d := d) (m := setInode m i .fresh) (i := i) h.bitmap
      (fun j hj hne => by rw [inode_setInode, if_neg (by tauto)]; exact h.inodes j hj)
      (by rw [hin]; exact Inode.fresh_fits)
    rw [hin] at this
    exact this.withEntry _
  | unsaved i _ hf => simp at hf
  | undone i d' _ hf _ => simp at hf

theorem storedInode_withBitmap (d : Nat → Sector) (m : FsMem) (i : Nat) :
    storedInode (withBitmap d m) i = storedInode d i :=
  storedInode_congr (withBitmap_agree d m _ (by omega))

theorem Deleted.synced {name : CStr} {res : Int} (hS : Sound N d m) (h : Synced d m)
    (hc : Deleted false false d m name res d' m') : Synced d' m' := by
  have hs' := hc.sound hS
  cases hc with
  | refused => exact h
  | unsaved slot d' _ _ hf _ => simp at hf
  | kept slot d' _ _ hf _ => simp at hf
  | done slot slot' _ _ hs hname _ _ _ _ _ =>
    obtain ⟨q1, -⟩ := releaseInode_spec m (entryAt d slot).inode hS.owned.totalHi
    refine (synced_withInode (withBitmap_saved d _) (fun j hj hne => ?_) (hs'.fits _)).withEntry _
    rw [storedInode_withBitmap, h.inodes j hj, q1, if_neg fun e => hne e.1]

theorem WroteTo.synced {fd : Int} {buffer : Option (List Byte)} {res : Int} (hS : Sound N d m) (h : Synced d m)
    (hc : WroteTo false false d m fd buffer res d' m') : Synced d' m' := by
  have hs' := hc.sound hS
  cases hc with
  | refused => exact h
  | full => exact h
  | done n d₁ m₁ d' hu hpos W _ hd =>
    obtain ⟨h1, h2, h3, -⟩ := hS.usable hu
    rw [hd rfl rfl]
    -- the write loop leaves the inode sectors alone
    have hframe : ∀ l, 33 ≤ l → l < 97 → d₁ l = d l := by
      intro l hl hl'
      refine W.frame l (by omega) (.inr fun k hk => ?_)
      have := ((W.grows.owned hS.owned).range (m.handles fd.toNat).inode.toNat k (by omega)).1
      omega
    have hst : ∀ j < 128, j ≠ (m.handles fd.toNat).inode.toNat → storedInode d₁ j =
        (finishWrite m₁ fd.toNat (m.handles fd.toNat).inode.toNat ((m.handles fd.toNat).position + n)).inode j := by
      intro j hj hne
      rw [inode_finishWrite _ _ _ _ _ h3, if_neg hne, W.grows.inode_of_ne hne, ← h.inodes j hj]
      exact storedInode_congr (hframe _ (by omega) (by omega))
    refine ⟨withBitmap_saved _ _, fun j hj => ?_⟩
    rw [storedInode_withBitmap]
    by_cases e : j = (m.handles fd.toNat).inode.toNat
    · rw [e]; exact storedInode_withInode _ _ (hs'.fits _)
    · rw [storedInode_withInode_of_ne _ e]; exact hst j hj e

theorem CallEffect.synced {call : Call} {ret : Ret} (hS : Sound N d m) (h : Synced d m)
    (hc : CallEffect false false d m call ret d' m') : Synced d' m' := by
  cases call with
  | create name => exact hc.2.synced h
  | delete name => exact hc.2.synced hS h
  | exist name => obtain ⟨rfl, rfl, -⟩ := hc; exact h
  | «open» name =>
    obtain ⟨rfl, -, hc⟩ := hc
    generalize ret.val = v at hc
    cases hc with
    | refused => exact h
    | done slot fd _ _ _ _ _ _ _ _ => exact h.congr rfl fun _ => rfl
  | close fd =>
    obtain ⟨rfl, -, hc⟩ := hc
    split at hc
    · obtain ⟨-, rfl⟩ := hc; exact h.congr rfl fun _ => rfl
    · obtain ⟨-, rfl⟩ := hc; exact h
  | read fd buffer size =>
    obtain ⟨rfl, hc⟩ := hc
    generalize (ret.val, ret.bytes) = p at hc
    cases hc with
    | refused => exact h
    | done n _ _ _ => exact h.congr rfl fun _ => rfl
  | write fd buffer => exact hc.2.synced hS h
  | list buffer size => obtain ⟨rfl, rfl⟩ := hc; exact h

end

/-! ## Mounting reads only -/

/-- An interface without writes. -/
def readOnly : Iface Unit Sector where
  readPre _ _ := True
  readPost _ _ _ _ := True
  writePre _ _ _ := False
  writePost _ _ _ _ _ := True

theorem loadTables_readOnly (m : FsMem) : loadTables.wp readOnly (fun _ _ _ => True) () m := by
  have hb : ∀ m, loadBitmap.wp readOnly (fun _ _ _ => True) () m := fun m => by
    refine wp_allM (J := fun _ _ _ => True) _ trivial ?_ fun _ _ _ => trivial
    intro pre i post g m _ _
    rw [wp_bind, wp_readBlock]
    refine ⟨trivial, fun res g' _ => ?_⟩
    cases res <;> simp
  have hi : ∀ m, loadInodes.wp readOnly (fun _ _ _ => True) () m := fun m => by
    refine wp_allM (J := fun _ _ _ => True) _ trivial ?_ fun _ _ _ => trivial
    intro pre i post g m _ _
    rw [wp_bind, wp_readBlock]
    refine ⟨trivial, fun res g' _ => ?_⟩
    cases res <;> simp
  refine (hb m).seq fun ok g m' _ => ?_
  cases ok with
  | false => trivial
  | true => exact hi m'

/-- Since `a` the drive has only been read. -/
def OnlyRead (a a' : Ata) : Prop :=
  a'.disk = a.disk ∧ SameDrive a a' ∧ Extends a.log a'.log fun q => q.isWrite = false

theorem OnlyRead.read {a a' : Ata} (h : OnlyRead a a') (lba : Nat) : OnlyRead a (ataReadSector a' lba).2 := by
  refine ⟨?_, h.2.1.trans (ataReadSector_sameDrive a' lba), ?_⟩
  · unfold ataReadSector
    split
    · split <;> exact h.1
    · exact h.1
  · unfold ataReadSector
    split
    · split <;> exact h.2.2.snoc rfl
    · exact h.2.2

theorem readOnly_models (cp : Primitives) {slot : CryptoSlot} (m : Machine) :
    Models readOnly (fsDisk cp) fun _ m' => Sealed slot m' ∧ OnlyRead m.ata m'.ata := by
  constructor
  · rintro g m' lba ⟨h1, h2⟩ -
    refine ⟨g, trivial, ?_⟩
    rw [h1.read_eq cp lba]
    exact ⟨h1.withAta _, h2.read lba⟩
  · rintro g m' lba b - hno
    exact hno.elim

/-! ## Mounting -/

theorem superblockSector_slice (b : Superblock) (hb : b.Fits) :
    Superblock.ofImage ((superblockSector b).slice 0) = b := by
  refine Eq.trans (Superblock.ofImage_congr fun k hk => ?_) (Superblock.ofImage_image hb)
  unfold superblockSector
  rw [Block.slice_patch_inside _ _ (by omega) (by omega) (by omega)]
  simp

theorem accepted_of_layout {b : Superblock} {N : Nat} (reserved : Fin 8 → Nat) (h1 : 129 < N) (h2 : N ≤ 131072)
    (hb : b = { freshSuperblock N with reserved := reserved }) : b.accepted = true := by
  subst hb
  have h3 : ¬ N ≤ 97 := by omega
  have h4 : N ≤ fsBitmapSectors * 4096 := h2
  simpa [Superblock.accepted, freshSuperblock, h3] using h4

/-- Both tables as the disk holds them. -/
theorem loadTables_exact {N : Nat} {r w : Bool} {d : Nat → Sector} {m : FsMem} (hN : 97 ≤ N) :
    loadTables.wp (exact N r w) (fun ok d' m' => d' = d ∧
      (ok = true → m'.superblock = m.superblock ∧ m'.handles = m.handles ∧ Synced d m') ∧
      (ok = false → r = true)) d m := by
  unfold loadTables
  refine (loadBitmap_exact (by omega)).seq ?_
  rintro ok d' m₁ ⟨rfl, hok, hfail⟩
  cases ok with
  | false => exact ⟨rfl, by simp, fun _ => hfail rfl⟩
  | true =>
    obtain ⟨h1, h2, h3, h4⟩ := hok rfl
    simp only [Bool.not_true, Bool.false_eq_true, ↓reduceIte]
    refine (loadInodes_exact hN).mono ?_
    rintro ok d'' m₂ ⟨rfl, hok, hfail⟩
    refine ⟨rfl, fun h => ?_, hfail⟩
    obtain ⟨i1, i2, i3, i4⟩ := hok h
    refine ⟨i1.trans h1, i3.trans h3, fun i hi => ?_, fun i hi => (i4 i hi).symm⟩
    rw [h4 i hi]
    unfold bitmapSector; rw [i2]

section

variable {cp : Primitives} {material : Nat → Byte} {c : Conf FsMem Machine} {b : Superblock}

/-- Mounting a sound drive that holds an encrypted filesystem: it succeeds, writes nothing, and
loads the tables the disk holds under the key and nonce of its superblock. -/
theorem fsInit_sealed (hreg : Registry c.dev) (ha : (blockdevFindByName c.dev ata0).isSome)
    (hslot : ∃ s < 2, (c.dev.slots s).inUse = false) (hroom : c.dev.deviceCount < 8)
    (hready : c.dev.ata.diskReady = true) (hsize : b.totalSectors ≤ c.dev.ata.diskSectors)
    (hf : ∀ n, c.dev.ata.faults n = false) (hfits : b.Fits) (hacc : b.accepted = true) (h1 : 129 < b.totalSectors)
    (h2 : b.totalSectors ≤ 131072) (hmagic : b.reserved 0 = fsEncryptionMagic)
    (hdisk : c.dev.ata.disk 0 = superblockSector b) :
    (fsInit (current cp) material c).1 = true ∧ (fsInit (current cp) material c).2.mem.superblock = b ∧
      (fsInit (current cp) material c).2.mem.filesystemReady = true ∧
      (∀ fd < 16, (fsInit (current cp) material c).2.mem.handles fd = .closed) ∧
      OnlyRead c.dev.ata (fsInit (current cp) material c).2.dev.ata ∧
      ∃ slot, slot.key = superblockKey cp b ∧ slot.nonce = superblockNonce b ∧
        Sealed slot (fsInit (current cp) material c).2.dev ∧
        Synced (unsealed cp slot c.dev.ata).disk (fsInit (current cp) material c).2.mem := by
  -- the superblock is read from the drive itself
  obtain ⟨a₁, ha₁⟩ : ∃ a₁, (ataReadSector c.dev.ata 0).2 = a₁ := ⟨_, rfl⟩
  have hread : ataReadSector c.dev.ata 0 = (some (superblockSector b), a₁) := by
    have hacc0 : c.dev.ata.accepts 0 = true := by
      simp only [Ata.accepts, hready, Bool.true_and, Bool.and_eq_true, decide_eq_true_eq]; omega
    rw [← ha₁]
    simp [ataReadSector, hacc0, hf, hdisk]
  have honly₁ : OnlyRead c.dev.ata a₁ := by
    rw [← ha₁]
    exact OnlyRead.read ⟨rfl, ⟨rfl, rfl, rfl⟩, .refl _ _⟩ 0
  have hload : loadSuperblock.run rawDisk { c with mem := { c.mem with filesystemReady := false } } =
      (true, ⟨{ c.mem with filesystemReady := false, superblock := b }, { c.dev with ata := a₁ }⟩) := by
    simp only [loadSuperblock, run_bind, run_readBlock, rawDisk, fsSuperblockSector, hread, run_modify, run_pure,
      superblockSector_slice b hfits, hacc]
  rcases hset : fsSetupDiskDevice cp false material b { c.dev with ata := a₁ } with ⟨ok, b', d⟩
  obtain rfl : ok = true := by
    have hs : (fsSetupDiskDevice cp false material b { c.dev with ata := a₁ }).1 = true :=
      fsSetup_ok cp material (fun _ => hmagic) ha hslot hroom
    rwa [hset] at hs
  obtain rfl : b' = b := fsSetup_superblock hset
  obtain ⟨hata, slot, hk, hn, hsealed⟩ := fsSetup_sealed (m := { c.dev with ata := a₁ })
    ⟨hreg.used, hreg.count, hreg.ata0⟩ hset hmagic
  have hata' : d.ata = a₁ := hata
  -- the tables are read through the crypto device
  have hsound := wp_sound (@readOnly_models cp slot d) loadTables
    (c := ⟨{ c.mem with filesystemReady := false, superblock := b' }, d⟩) (loadTables_readOnly _)
    ⟨hsealed, rfl, ⟨rfl, rfl, rfl⟩, .refl _ _⟩
  have htables := wp_sound (Serves.models b'.totalSectors false false) loadTables
    (c := ⟨{ c.mem with filesystemReady := false, superblock := b' }, unsealed cp slot d.ata⟩)
    (loadTables_exact (d := (unsealed cp slot d.ata).disk) (by omega))
    ⟨rfl, by rw [hata']; exact honly₁.2.1.1.trans hready, by rw [hata']; exact hsize.trans_eq honly₁.2.1.2.1.symm, h2,
      .inr (by rw [hata']; intro n; exact (congrFun honly₁.2.1.2.2 n).trans (hf n))⟩
  obtain ⟨e1, e2, -, -⟩ := run_hom (sealed_hom cp slot) loadTables
    ⟨{ c.mem with filesystemReady := false, superblock := b' }, d⟩ hsealed
  rcases hrun : loadTables.run (fsDisk cp) ⟨{ c.mem with filesystemReady := false, superblock := b' }, d⟩ with ⟨ok, c₂⟩
  rw [hrun] at hsound e1 e2
  obtain ⟨d₁, ⟨-, hl1, hl2⟩, -⟩ := htables
  simp only at e1 e2
  rw [← e1] at hl1 hl2
  rw [← e2] at hl1
  obtain rfl : ok = true := by
    by_contra hne
    simpa using hl2 (by simpa using hne)
  obtain ⟨-, -, hsealed₂, honly₂⟩ := hsound
  obtain ⟨hsb, -, hsync⟩ := hl1 rfl
  have hinit : fsInit (current cp) material c = (true, { c₂ with mem := mounted c₂.mem }) := by
    have hpres : (current cp).present c.dev = true := hready
    have hload' : loadSuperblock.run (current cp).raw { c with mem := { c.mem with filesystemReady := false } } =
      (true, ⟨{ c.mem with filesystemReady := false, superblock := b' }, { c.dev with ata := a₁ }⟩) := hload
    have hset' : (current cp).setup false material b' { c.dev with ata := a₁ } = (true, b', d) := hset
    have hrun' : loadTables.run (current cp).disk ⟨{ c.mem with filesystemReady := false, superblock := b' }, d⟩ =
      (true, c₂) := hrun
    unfold fsInit
    simp only [hpres, Bool.not_true, Bool.false_eq_true, ↓reduceIte, hload', hset', hrun']
  rw [hinit]
  refine ⟨rfl, hsb, rfl, fun fd hfd => if_pos hfd, ?_, slot, hk, hn, hsealed₂, ?_⟩
  · rw [hata'] at honly₂
    exact ⟨honly₂.1.trans honly₁.1, honly₁.2.1.trans honly₂.2.1, honly₁.2.2.trans honly₂.2.2⟩
  · have hd : (unsealed cp slot c.dev.ata).disk = (unsealed cp slot d.ata).disk := by
      simp only [unsealed]; rw [hata', honly₁.1]
    rw [hd]
    exact hsync.congr rfl fun _ => rfl

end

/-! ## Reboot -/

theorem freshSuperblock_fits {N : Nat} (hN : N ≤ 131072) {reserved : Fin 8 → Nat} (hr : ∀ k, reserved k < 2 ^ 32) :
    ({ freshSuperblock N with reserved := reserved } : Superblock).Fits := by
  intro k
  match k with
  | 0 => exact show fsMagic < 2 ^ 32 by decide
  | 1 => exact show fsVersion < 2 ^ 32 by decide
  | 2 => exact show 512 < 2 ^ 32 by decide
  | 4 => exact show fsBitmapStart < 2 ^ 32 by decide
  | 5 => exact show fsBitmapSectors < 2 ^ 32 by decide
  | 6 => exact show fsInodeStart < 2 ^ 32 by decide
  | 7 => exact show fsInodeSectors < 2 ^ 32 by decide
  | 8 => exact show fsDataStart < 2 ^ 32 by decide
  | 9 => exact show fsMaxFiles < 2 ^ 32 by decide
  | 10 => exact show 0 < 2 ^ 32 by decide
  | 3 => simp only [Superblock.word, freshSuperblock]; omega
  | k + 11 =>
    simp only [Superblock.word]
    split
    · exact hr _
    · omega

theorem materialWord_lt (material : Nat → Byte) (w : Nat) : materialWord material w < 2 ^ 32 := by
  unfold materialWord
  have h0 := (material (w * 4)).isLt
  have h1 := (material (w * 4 + 1)).isLt
  have h2 := (material (w * 4 + 2)).isLt
  have h3 := (material (w * 4 + 3)).isLt
  omega

theorem sealedSuperblock_fits (material : Nat → Byte) {N : Nat} (hN : N ≤ 131072) :
    (sealedSuperblock material N).Fits := by
  refine freshSuperblock_fits hN fun k => ?_
  match k with
  | ⟨0, _⟩ => exact show fsEncryptionMagic < 2 ^ 32 by decide
  | ⟨k + 1, _⟩ =>
    simp only [sealedReserved]
    split
    · exact materialWord_lt material k
    · omega

/-- A bitmap byte from its sector. -/
theorem bitmap_of_saved {d : Nat → Sector} {m m' : FsMem} (h : BitmapSaved d m) (h' : BitmapSaved d m') {k : Nat}
    (hk : k < 16384) : m'.bitmap k = m.bitmap k := by
  have e := congrFun ((h' (k / 512) (by omega)).symm.trans (h (k / 512) (by omega))) ⟨k % 512, Nat.mod_lt _ (by omega)⟩
  simp only [bitmapSector] at e
  rwa [Nat.div_add_mod'] at e

section

variable (cp : Primitives) (material material' : Nat → Byte) (c : Conf FsMem Machine)

/-- The state of a run without failures, seen through its crypto slot. -/
theorem fsFormat_runCalls_synced (hreg : Registry c.dev) (hf : ∀ n, c.dev.ata.faults n = false)
    (h : (fsFormat (current cp) material c).1 = true) {N : Nat} (hN : min c.dev.ata.diskSectors 131072 = N)
    (calls : List Call) :
    let s := (runCalls (fsDisk cp) calls (fsFormat (current cp) material c).2).2
    s.mem.superblock = sealedSuperblock material N ∧ s.dev.ata.disk 0 = superblockSector (sealedSuperblock material N) ∧
      SameDrive c.dev.ata s.dev.ata ∧ ∃ slot, slot.key = superblockKey cp (sealedSuperblock material N) ∧
        slot.nonce = superblockNonce (sealedSuperblock material N) ∧ Sealed slot s.dev ∧
        Sound N (unsealed cp slot s.dev.ata).disk s.mem ∧ Synced (unsealed cp slot s.dev.ata).disk s.mem := by
  obtain ⟨hsb, hd0, hsame, -, slot, hk, hn, hsealed, hfresh⟩ := fsFormat_current hreg h hN
  obtain ⟨hlive, hfresh'⟩ := @fsFormat_live cp material N false false c hreg (.inr hf) h hN
  generalize (fsFormat (current cp) material c).2 = c₀ at *
  intro s
  obtain ⟨hsealed', hzero, hmem, hdrive⟩ := hsealed.runCalls_frame cp hfresh.owned calls
  obtain ⟨hlive', hsync⟩ := hlive.runCalls_all (J := Synced) (fun d m call ret d' m' hS hJ hc => hc.synced hS hJ) calls
    hfresh'.synced
  have hS := hlive'.sound
  rw [hsealed'.logicalDisk_eq cp] at hS hsync
  exact ⟨hmem.trans hsb, hzero.trans hd0, hsame.trans hdrive, slot, hk, hn, hsealed', hS, hsync⟩

/-- Rebooting after any run of calls without failures recovers the filesystem: the mount succeeds
and only reads, the crypto slot has the same key and nonce, and the tables, the directory and the
files are those of before. -/
theorem reboot_recovers (hreg : Registry c.dev) (hf : ∀ n, c.dev.ata.faults n = false)
    (h : (fsFormat (current cp) material c).1 = true) (calls : List Call) (m' : Machine) (hreg' : Registry m')
    (ha : (blockdevFindByName m' ata0).isSome) (hslot : ∃ s < 2, (m'.slots s).inUse = false)
    (hroom : m'.deviceCount < 8)
    (hdisk : m'.ata.disk = (runCalls (fsDisk cp) calls (fsFormat (current cp) material c).2).2.dev.ata.disk)
    (hready : m'.ata.diskReady = true) (hsize : m'.ata.diskSectors = c.dev.ata.diskSectors)
    (hf' : ∀ n, m'.ata.faults n = false) :
    let s := (runCalls (fsDisk cp) calls (fsFormat (current cp) material c).2).2
    let s' := (fsInit (current cp) material' ⟨FsMem.boot, m'⟩).2
    (fsInit (current cp) material' ⟨FsMem.boot, m'⟩).1 = true ∧ OnlyRead m'.ata s'.dev.ata ∧
      s'.mem.superblock = s.mem.superblock ∧ (∀ k < 16384, s'.mem.bitmap k = s.mem.bitmap k) ∧
      s'.mem.inodes = s.mem.inodes ∧
      ∃ slot slot', Sealed slot s.dev ∧ Sealed slot' s'.dev ∧ slot'.key = slot.key ∧ slot'.nonce = slot.nonce ∧
        slot.key = superblockKey cp s.mem.superblock ∧ slot.nonce = superblockNonce s.mem.superblock ∧
        Synced (unsealed cp slot s.dev.ata).disk s.mem ∧
        (unsealed cp slot' s'.dev.ata).disk = (unsealed cp slot s.dev.ata).disk ∧
        ∀ name, fileBytes (unsealed cp slot' s'.dev.ata).disk s'.mem name =
          fileBytes (unsealed cp slot s.dev.ata).disk s.mem name := by
  intro s s'
  obtain ⟨N, hN⟩ : ∃ N, min c.dev.ata.diskSectors 131072 = N := ⟨_, rfl⟩
  obtain ⟨hsb, hd0, hsame, slot, hk, hn, hsealed, hS, hsync⟩ :=
    fsFormat_runCalls_synced cp material c hreg hf h hN calls
  have hlo := hS.lo
  obtain ⟨i1, i2, i3, i4, i5, slot', hk', hn', hsealed', hsync'⟩ := @fsInit_sealed cp material' ⟨FsMem.boot, m'⟩
    (sealedSuperblock material N) hreg' ha hslot hroom hready
    (show N ≤ _ by simp only; omega) hf' (sealedSuperblock_fits material (by omega))
    (accepted_of_layout _ hlo (by omega) rfl) hlo (show N ≤ _ by omega) rfl (by simp only; rw [hdisk]; exact hd0)
  have hview : (unsealed cp slot' m'.ata).disk = (unsealed cp slot s.dev.ata).disk := by
    funext l i
    simp only [unsealed, cryptoXorSector, keystream]
    rw [hdisk, hk, hn, hk', hn']
  have hview' : (unsealed cp slot' s'.dev.ata).disk = (unsealed cp slot s.dev.ata).disk := by
    rw [← hview]
    simp only [unsealed]
    rw [i5.1]
  have hinodes : s'.mem.inodes = s.mem.inodes := by
    funext i
    rw [hview] at hsync'
    have h1 := (hsync'.inodes i i.isLt).symm.trans (hsync.inodes i i.isLt)
    simpa [FsMem.inode, i.isLt] using h1
  refine ⟨i1, i5, i2.trans hsb.symm, fun k hk => ?_, hinodes, slot, slot', hsealed, hsealed', hk'.trans hk.symm,
    hn'.trans hn.symm, by rw [hsb]; exact hk, by rw [hsb]; exact hn, hsync, hview', fun name => ?_⟩
  · rw [hview] at hsync'
    exact bitmap_of_saved hsync.bitmap hsync'.bitmap hk
  · rw [hview']
    unfold fileBytes
    congr 1
    funext i
    rw [inode_congr hinodes i]

/-- Rebooting with the disk of a run that writes through the handle of a deleted file. -/
theorem reboot_recovers_boot :
    let s := (runCalls (fsDisk nullPrimitives) [.create nameA, .open nameA, .write 0 (some [0x78]), .delete nameA,
      .create nameB, .write 0 (some [0x79])]
      (fsFormat (current nullPrimitives) (fun _ => 0) (bootConf (blankDrive 200))).2).2
    let r := fsInit (current nullPrimitives) (fun _ => 0) (bootConf { blankDrive 200 with disk := s.dev.ata.disk })
    r.1 = true ∧ r.2.mem.inodes = s.mem.inodes := by
  have hd : ∀ d, (bootMachine { blankDrive 200 with disk := d }).ata.disk = d := fun _ => rfl
  have h := fsFormat_boot nullPrimitives (fun _ => 0) (a := blankDrive 200) rfl (by decide) fun _ => rfl
  have hr := fun d hdisk => reboot_recovers nullPrimitives (fun _ => 0) (fun _ => 0) (bootConf (blankDrive 200))
    (Registry.boot _) (fun _ => rfl) h [.create nameA, .open nameA, .write 0 (some [0x78]), .delete nameA,
      .create nameB, .write 0 (some [0x79])] (bootMachine { blankDrive 200 with disk := d }) (Registry.boot _)
    rfl ⟨0, by omega, rfl⟩ (show 1 < 8 by omega) ((hd d).trans hdisk) rfl rfl fun _ => rfl
  generalize (runCalls _ _ _).2 = s at hr ⊢
  obtain ⟨h1, -, -, -, h2, -⟩ := hr _ rfl
  exact ⟨h1, h2⟩

end

end SpectreOS
