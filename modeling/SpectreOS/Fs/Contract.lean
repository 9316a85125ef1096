/-
The contract of the filesystem over whole histories: format a disk, make calls, mount it again, make
further calls. In every state reached so, the calls return what the model returns, and the files
hold what the model's files hold.
-/
import SpectreOS.Fs.Refine

namespace SpectreOS

open BlockIO Prog

/-! ## One call -/

/-- A well-formed filesystem, saved on its disk, that shows the model's files. -/
structure Refines (N : Nat) (d : Nat → Sector) (m : FsMem) (a : Files) : Prop where
  sound : Sound N d m
  synced : Synced d m
  linked : Linked d m
  agrees : Agrees d m a
  capacity : a.capacity + 129 = N

theorem Files.step_capacity (a : Files) (call : Call) : (a.step call).2.capacity = a.capacity := by
  cases call with
  | create n => show (a.create n).2.capacity = _; unfold Files.create; split <;> rfl
  | delete n => show (a.delete n).2.capacity = _; unfold Files.delete; split <;> rfl
  | exist n => rfl
  | «open» n =>
    show (a.open n).2.capacity = _
    unfold Files.open
    split
    · split <;> rfl
    · rfl
  | close fd => show (a.close fd).2.capacity = _; unfold Files.close; split <;> rfl
  | read fd buffer size => show (a.read fd buffer size).2.capacity = _; unfold Files.read; split <;> rfl
  | write fd buffer => show (a.write fd buffer).2.capacity = _; unfold Files.write; split <;> rfl
  | list buffer size => rfl

section

variable {N : Nat} {d d' : Nat → Sector} {m m' : FsMem} {a : Files}

/-- A permitted call returns what the model returns and keeps the relation. -/
theorem Refines.step {call : Call} {ret : Ret} (h : Refines N d m a) (hok : a.permits call)
    (hc : CallEffect false false d m call ret d' m') : ret = (a.step call).1 ∧ Refines N d' m' (a.step call).2 := by
  have hnext : ∀ {v : Ret}, ret = v → v = (a.step call).1 ∧ Agrees d' m' (a.step call).2 →
      ret = (a.step call).1 ∧ Refines N d' m' (a.step call).2 := fun e ha =>
    ⟨e.trans ha.1, hc.sound h.sound, hc.synced h.sound h.synced, hc.linked h.sound h.linked, ha.2,
      by rw [a.step_capacity]; exact h.capacity⟩
  cases call with
  | create n => exact hnext (v := ⟨ret.val, []⟩) (Ret.ext rfl hc.1) (h.agrees.create h.sound h.linked hc.2)
  | delete n => exact hnext (v := ⟨ret.val, []⟩) (Ret.ext rfl hc.1) (h.agrees.delete h.sound h.linked hok hc.2)
  | exist n =>
    obtain ⟨rfl, rfl, hret⟩ := id hc
    refine hnext (hret rfl) ⟨?_, h.agrees⟩
    exact Ret.ext (h.agrees.exist h.linked) rfl
  | «open» n =>
    obtain ⟨rfl, hb, ho⟩ := id hc
    exact hnext (v := ⟨ret.val, []⟩) (Ret.ext rfl hb) (h.agrees.open h.linked ho)
  | close fd =>
    obtain ⟨rfl, hb, ho⟩ := id hc
    exact hnext (v := ⟨ret.val, []⟩) (Ret.ext rfl hb) (h.agrees.close ho)
  | read fd buffer size =>
    obtain ⟨rfl, ho⟩ := id hc
    exact hnext rfl (h.agrees.read ho)
  | write fd buffer => exact hnext (v := ⟨ret.val, []⟩) (Ret.ext rfl hc.1) (h.agrees.write h.sound h.linked hc.2)
  | list buffer size => exact hok.elim

/-- A freshly formatted disk has no files. -/
theorem Fresh.refines (h : Fresh N d m) : Refines N d m (Files.empty (N - 129)) := by
  have hlo := h.lo
  have hnone : ∀ n, lookup d n = none := fun n =>
    lookup_eq_none.2 fun slot hs hn => hn.1 (h.vacant.entries slot hs)
  refine ⟨h.sound h.owned, h.synced, h.vacant.linked, ⟨h.ready, fun n => ?_, fun n i hi => ?_, ?_, fun fd hfd => ?_⟩,
    ?_⟩
  · simp [Files.empty, hnone]
  · rw [hnone] at hi; cases hi
  · rw [h.noLeak.free_card h.owned fun i hi => by rw [h.empty i hi]; decide, h.total]
    simp [Files.free, Files.empty]
  · show (m.handles fd).inode = -1
    rw [h.closed fd hfd]; rfl
  · simp only [Files.empty]; omega

/-! ## Mounting again -/

theorem bitSet_of_saved (h : BitmapSaved d m) (h' : BitmapSaved d m') {t : Nat} (ht : t < 131072) :
    bitSet m' t = bitSet m t := by
  unfold bitSet
  rw [bitmap_of_saved h h' (by omega)]

theorem Synced.inode_eq (h : Synced d m) (h' : Synced d m') (i : Nat) : m'.inode i = m.inode i := by
  by_cases hi : i < 128
  · rw [← h'.inodes i hi, h.inodes i hi]
  · rw [inode_of_ge _ (by omega), inode_of_ge _ (by omega)]

/-- Tables loaded from the disk are the ones that were saved. -/
theorem Sound.remount (hS : Sound N d m) (h : Synced d m) (hs : Synced d m')
    (hb : m'.superblock.totalSectors = m.superblock.totalSectors) (hh : ∀ fd < 16, m'.handles fd = .closed) :
    Sound N d m' := by
  have hin : ∀ i, m'.inode i = m.inode i := h.inode_eq hs
  have hbit : ∀ t < 131072, bitSet m' t = bitSet m t := fun t => bitSet_of_saved h.bitmap hs.bitmap
  have htot := hS.owned.totalHi
  have hO : Owned m' := by
    refine ⟨by rw [hb]; exact hS.owned.totalLo, by rw [hb]; exact htot, fun i k hne => ?_, fun i k j l hne e => ?_,
      fun s hlt => by rw [hbit s (by omega)]; exact hS.owned.reserved s hlt,
      fun i => by rw [hin]; exact hS.owned.blocks i⟩
    · rw [hin] at hne ⊢
      obtain ⟨r1, r2, r3⟩ := hS.owned.range i k hne
      exact ⟨r1, by rw [hb]; exact r2, by rw [hbit _ (by omega)]; exact r3⟩
    · rw [hin] at hne
      rw [hin, hin] at e
      exact hS.owned.once i k j l hne e
  refine ⟨hS.lo, by rw [hb]; exact hS.total, hO, by rw [hin]; exact hS.root, hS.entries, fun fd hfd => .inl ?_,
    fun fd hfd => ?_, fun i => by rw [hin]; exact hS.sizes i, fun i => by rw [hin]; exact hS.modes i,
    fun i k => by rw [hin]; exact hS.reserved i k⟩
  · rw [hh fd hfd]; rfl
  · rw [hh fd hfd]; simp [Handle.closed]

theorem Refines.remount (h : Refines N d m a) (hs : Synced d m') (hb : m'.superblock = m.superblock)
    (hr : m'.filesystemReady = true) (hh : ∀ fd < 16, m'.handles fd = .closed) : Refines N d m' a.closeAll := by
  have hin : ∀ i, m'.inode i = m.inode i := h.synced.inode_eq hs
  refine ⟨h.sound.remount h.synced hs (by rw [hb]) hh, hs, h.linked.congr (fun _ _ => rfl) fun j => by rw [hin],
    ⟨hr, h.agrees.names, fun n i hi => by rw [hin]; exact h.agrees.files n i hi, ?_, fun fd hfd => ?_⟩, h.capacity⟩
  · refine Eq.trans (congrArg Finset.card ?_) h.agrees.free
    unfold freeSectors
    rw [hb]
    refine Finset.filter_congr fun t ht => ?_
    have htot := h.sound.owned.totalHi
    rw [bitSet_of_saved h.synced.bitmap hs.bitmap (by have := Finset.mem_range.1 ht; omega)]
  · show (m'.handles fd).inode = -1
    rw [hh fd hfd]; rfl

end

/-- The machine runs an encrypted filesystem whose superblock is on the disk, with the slot's key and
nonce in it. -/
structure Mountable (cp : Primitives) (N : Nat) (s : Conf FsMem Machine) : Prop where
  lo : 129 < N
  hi : N ≤ 131072
  superblock : ∃ material, s.mem.superblock = sealedSuperblock material N
  sector : s.dev.ata.disk 0 = superblockSector s.mem.superblock
  slot : ∃ slot, Sealed slot s.dev ∧ slot.key = superblockKey cp s.mem.superblock ∧
    slot.nonce = superblockNonce s.mem.superblock

/-- The machine at a boot, with a drive that holds `disk` and serves every request. -/
structure Rebooted (N : Nat) (disk : Nat → Sector) (c : Conf FsMem Machine) : Prop where
  registry : Registry c.dev
  drive : (blockdevFindByName c.dev ata0).isSome
  slot : ∃ k < 2, (c.dev.slots k).inUse = false
  room : c.dev.deviceCount < 8
  disk : c.dev.ata.disk = disk
  ready : c.dev.ata.diskReady = true
  size : N ≤ c.dev.ata.diskSectors
  healthy : ∀ n, c.dev.ata.faults n = false

/-- The machine at its next boot, on a disk of 200 sectors. -/
def rebooted (disk : Nat → Sector) : Conf FsMem Machine := bootConf { blankDrive 200 with disk }

theorem rebooted_boot (disk : Nat → Sector) : Rebooted 200 disk (rebooted disk) :=
  ⟨Registry.boot _, rfl, ⟨0, by omega, rfl⟩, show 1 < 8 by omega, rfl, rfl, le_rfl, fun _ => rfl⟩

section

variable {cp : Primitives} {N : Nat} {s : Conf FsMem Machine}

theorem Mountable.of_format (material : Nat → Byte) {c : Conf FsMem Machine} (hreg : Registry c.dev)
    (hN : min c.dev.ata.diskSectors 131072 = N) (h : (fsFormat (current cp) material c).1 = true) :
    Mountable cp N (fsFormat (current cp) material c).2 := by
  obtain ⟨hsb, hd0, -, -, slot, hk, hn, hsealed, hfresh⟩ := fsFormat_current hreg h hN
  exact ⟨hfresh.lo, hfresh.hi, ⟨material, hsb⟩, by rw [hsb]; exact hd0, slot, hsealed, by rw [hsb]; exact hk,
    by rw [hsb]; exact hn⟩

/-- Calls leave the superblock and the slot alone, whatever fails. -/
theorem Mountable.calls (h : Mountable cp N s) (hO : Owned s.mem) (calls : List Call) :
    Mountable cp N (runCalls (fsDisk cp) calls s).2 := by
  obtain ⟨slot, hs, hk, hn⟩ := h.slot
  obtain ⟨f1, f2, f3, -⟩ := hs.runCalls_frame cp hO calls
  exact ⟨h.lo, h.hi, by rw [f3]; exact h.superblock, by rw [f2, f3]; exact h.sector,
    slot, f1, by rw [f3]; exact hk, by rw [f3]; exact hn⟩

/-- A mount at the next boot succeeds, loads the tables that are on the disk, and shows the sectors as
they were shown before. -/
theorem Mountable.init (h : Mountable cp N s) (material : Nat → Byte) {c : Conf FsMem Machine}
    (hc : Rebooted N s.dev.ata.disk c) :
    let r := fsInit (current cp) material c
    r.1 = true ∧ Mountable cp N r.2 ∧ r.2.mem.superblock = s.mem.superblock ∧ r.2.mem.filesystemReady = true ∧
      (∀ fd < 16, r.2.mem.handles fd = .closed) ∧ SameDrive c.dev.ata r.2.dev.ata ∧
      logicalDisk cp r.2.dev = logicalDisk cp s.dev ∧ Synced (logicalDisk cp s.dev) r.2.mem := by
  intro r
  obtain ⟨material₀, hsb⟩ := h.superblock
  obtain ⟨slot, hs, hk, hn⟩ := h.slot
  have htot : s.mem.superblock.totalSectors = N := by
    rw [hsb]
    rfl
  obtain ⟨i1, i2, i3, i4, i5, slot', hk', hn', hsealed', hsync'⟩ := @fsInit_sealed cp material c s.mem.superblock
    hc.registry hc.drive hc.slot hc.room hc.ready (by rw [htot]; exact hc.size) hc.healthy
    (by rw [hsb]; exact sealedSuperblock_fits material₀ h.hi) (accepted_of_layout _ h.lo h.hi hsb)
    (by rw [htot]; exact h.lo) (by rw [htot]; exact h.hi) (by rw [hsb]; rfl) (by rw [hc.disk]; exact h.sector)
  -- both slots have the key and the nonce of the superblock
  have hview : (unsealed cp slot' c.dev.ata).disk = logicalDisk cp s.dev := by
    rw [hs.logicalDisk_eq cp]
    funext l i
    simp only [unsealed, cryptoXorSector, keystream]
    rw [hc.disk, hk, hn, hk', hn']
  have hview' : logicalDisk cp r.2.dev = logicalDisk cp s.dev := by
    rw [hsealed'.logicalDisk_eq cp, ← hview]
    simp only [unsealed]
    rw [i5.1]
  rw [hview] at hsync'
  refine ⟨i1, ⟨h.lo, h.hi, ⟨material₀, i2.trans hsb⟩, ?_, slot', hsealed', by rw [i2]; exact hk',
    by rw [i2]; exact hn'⟩,
    i2, i3, i4, i5.2.1, hview', hsync'⟩
  rw [i5.1, i2, hc.disk]
  exact h.sector

/-- A mounted filesystem whose tables are well formed is at work. -/
theorem Mountable.init_live (h : Mountable cp N s) (material : Nat → Byte) {c : Conf FsMem Machine}
    (hc : Rebooted N s.dev.ata.disk c) (hS : Sound N (logicalDisk cp s.dev) (fsInit (current cp) material c).2.mem) :
    Live cp N false false (fsInit (current cp) material c).2 := by
  obtain ⟨-, hmount, -, -, -, hdrive, hview, -⟩ := h.init material hc
  obtain ⟨slot, hsealed, -, -⟩ := hmount.slot
  refine ⟨slot, hsealed, ?_, by rw [hview]; exact hS⟩
  rw [hsealed.logicalDisk_eq cp]
  exact ⟨rfl, hdrive.1.trans hc.ready, hc.size.trans_eq hdrive.2.1.symm, h.hi,
    .inr fun n => (congrFun hdrive.2.2 n).trans (hc.healthy n)⟩

end

/-! ## Histories -/

/-- The machine runs an encrypted filesystem that shows the model's files. -/
structure Running (cp : Primitives) (N : Nat) (s : Conf FsMem Machine) (a : Files) : Prop where
  live : Live cp N false false s
  refines : Refines N (logicalDisk cp s.dev) s.mem a
  superblock : ∃ material, s.mem.superblock = sealedSuperblock material N
  sector : s.dev.ata.disk 0 = superblockSector s.mem.superblock
  slot : ∃ slot, Sealed slot s.dev ∧ slot.key = superblockKey cp s.mem.superblock ∧
    slot.nonce = superblockNonce s.mem.superblock

/-- The states a history of formatting, permitted calls and mounts without failures leads to, with
the model's files beside them. -/
inductive Reached (cp : Primitives) (N : Nat) : Conf FsMem Machine → Files → Prop
  | format (material : Nat → Byte) (c : Conf FsMem Machine) : Registry c.dev → (∀ n, c.dev.ata.faults n = false) →
      min c.dev.ata.diskSectors 131072 = N → (fsFormat (current cp) material c).1 = true →
      Reached cp N (fsFormat (current cp) material c).2 (Files.empty (N - 129))
  | calls {s : Conf FsMem Machine} {a : Files} (calls : List Call) : Reached cp N s a → Files.PermitsAll calls a →
      Reached cp N (runCalls (fsDisk cp) calls s).2 (Files.run calls a).2
  | init {s : Conf FsMem Machine} {a : Files} (material : Nat → Byte) (c : Conf FsMem Machine) : Reached cp N s a →
      Registry c.dev → (blockdevFindByName c.dev ata0).isSome → (∃ k < 2, (c.dev.slots k).inUse = false) →
      c.dev.deviceCount < 8 → c.dev.ata.disk = s.dev.ata.disk → c.dev.ata.diskReady = true → N ≤ c.dev.ata.diskSectors →
      (∀ n, c.dev.ata.faults n = false) → Reached cp N (fsInit (current cp) material c).2 a.closeAll

section

variable {cp : Primitives} {N : Nat} {s : Conf FsMem Machine} {a : Files}

theorem refines_runCalls (calls : List Call) (hlive : Live cp N false false s)
    (h : Refines N (logicalDisk cp s.dev) s.mem a) (hok : Files.PermitsAll calls a) :
    (runCalls (fsDisk cp) calls s).1 = (Files.run calls a).1 ∧ Live cp N false false (runCalls (fsDisk cp) calls s).2 ∧
      Refines N (logicalDisk cp (runCalls (fsDisk cp) calls s).2.dev) (runCalls (fsDisk cp) calls s).2.mem
        (Files.run calls a).2 := by
  induction calls generalizing s a with
  | nil => exact ⟨rfl, hlive, h⟩
  | cons call calls ih =>
    obtain ⟨heff, hlive'⟩ := hlive.call call
    obtain ⟨hret, h'⟩ := h.step hok.1 heff
    obtain ⟨i1, i2, i3⟩ := ih hlive' h' hok.2
    simp only [runCalls, Files.run]
    exact ⟨by rw [hret, i1], i2, i3⟩

theorem Running.calls (h : Running cp N s a) (calls : List Call) (hok : Files.PermitsAll calls a) :
    (runCalls (fsDisk cp) calls s).1 = (Files.run calls a).1 ∧
      Running cp N (runCalls (fsDisk cp) calls s).2 (Files.run calls a).2 := by
  obtain ⟨h1, h2, h3⟩ := refines_runCalls calls h.live h.refines hok
  obtain ⟨slot, hs, hk, hn⟩ := h.slot
  obtain ⟨f1, f2, f3, -⟩ := hs.runCalls_frame cp h.refines.sound.owned calls
  exact ⟨h1, h2, h3, by rw [f3]; exact h.superblock, by rw [f2, f3]; exact h.sector,
    slot, f1, by rw [f3]; exact hk, by rw [f3]; exact hn⟩

theorem running_format (material : Nat → Byte) {c : Conf FsMem Machine} (hreg : Registry c.dev)
    (hf : ∀ n, c.dev.ata.faults n = false) (hN : min c.dev.ata.diskSectors 131072 = N)
    (h : (fsFormat (current cp) material c).1 = true) :
    Running cp N (fsFormat (current cp) material c).2 (Files.empty (N - 129)) := by
  obtain ⟨hsb, hd0, -, -, slot, hk, hn, hsealed, -⟩ := fsFormat_current hreg h hN
  obtain ⟨hlive, hfresh⟩ := @fsFormat_live cp material N false false c hreg (.inr hf) h hN
  exact ⟨hlive, hfresh.refines, ⟨material, hsb⟩, by rw [hsb]; exact hd0, slot, hsealed, by rw [hsb]; exact hk,
    by rw [hsb]; exact hn⟩

theorem Running.init (h : Running cp N s a) (material : Nat → Byte) {c : Conf FsMem Machine} (hreg : Registry c.dev)
    (ha : (blockdevFindByName c.dev ata0).isSome) (hslot : ∃ k < 2, (c.dev.slots k).inUse = false)
    (hroom : c.dev.deviceCount < 8) (hdisk : c.dev.ata.disk = s.dev.ata.disk) (hready : c.dev.ata.diskReady = true)
    (hsize : N ≤ c.dev.ata.diskSectors) (hf : ∀ n, c.dev.ata.faults n = false) :
    (fsInit (current cp) material c).1 = true ∧ Running cp N (fsInit (current cp) material c).2 a.closeAll := by
  have hhi : N ≤ 131072 := by
    have h1 := h.refines.sound.owned.totalHi
    rwa [h.refines.sound.total] at h1
  have hform : Mountable cp N s := ⟨h.refines.sound.lo, hhi, h.superblock, h.sector, h.slot⟩
  obtain ⟨i1, hform', i2, i3, i4, i5, hview, hsync⟩ :=
    hform.init material (c := c) ⟨hreg, ha, hslot, hroom, hdisk, hready, hsize, hf⟩
  have href := h.refines.remount hsync i2 i3 i4
  have hlive := hform.init_live material (c := c) ⟨hreg, ha, hslot, hroom, hdisk, hready, hsize, hf⟩ href.sound
  exact ⟨i1, hlive, by rw [hview]; exact href, hform'.superblock, hform'.sector, hform'.slot⟩

/-- Every reached state runs the filesystem of its model. -/
theorem Reached.running (h : Reached cp N s a) : Running cp N s a := by
  induction h with
  | format material c hreg hf hN hok => exact running_format material hreg hf hN hok
  | calls calls _ hok ih => exact (ih.calls calls hok).2
  | init material c _ hreg ha hslot hroom hdisk hready hsize hf ih =>
    exact (ih.init material hreg ha hslot hroom hdisk hready hsize hf).2

theorem Live.faultless {s : Conf FsMem Machine} (h : Live cp N false false s) (n : Nat) :
    s.dev.ata.faults n = false := by
  obtain ⟨slot, -, hserves, -⟩ := h
  rcases hserves.faultless with ⟨hno, -⟩ | hno
  · cases hno
  · exact hno n

/-- A disk of 200 sectors, formatted. -/
theorem reached_boot (cp : Primitives) :
    ∃ s₀, fsFormat (current cp) (fun _ => 0) (bootConf (blankDrive 200)) = (true, s₀) ∧
      Reached cp 200 s₀ (Files.empty 71) := by
  have h := fsFormat_boot cp (fun _ => 0) (a := blankDrive 200) rfl (by decide) fun _ => rfl
  have hreach : Reached cp 200 _ (Files.empty 71) :=
    .format (fun _ => 0) (bootConf (blankDrive 200)) (Registry.boot _) (fun _ => rfl) rfl h
  obtain ⟨s₀, hs₀⟩ : ∃ s₀, s₀ = (fsFormat (current cp) (fun _ => 0) (bootConf (blankDrive 200))).2 := ⟨_, rfl⟩
  rw [← hs₀] at hreach
  exact ⟨s₀, Prod.ext h hs₀.symm, hreach⟩

theorem Running.fileBytes (h : Running cp N s a) (n : CStr) :
    fileBytes (logicalDisk cp s.dev) s.mem n = if n ∈ a.names then some (a.data n) else none := by
  unfold SpectreOS.fileBytes
  cases hl : lookup (logicalDisk cp s.dev) n with
  | none => rw [if_neg fun hn => (h.refines.agrees.names n).1 hn hl]; rfl
  | some i =>
    rw [if_pos (h.refines.agrees.mem_iff.2 ⟨i, hl⟩)]
    exact congrArg some (h.refines.agrees.files n i hl).fileBytes

/-- What the calls of a history return is what the model returns, and the files hold what the
model's hold. A write at position `p` of a file returns the number of bytes that went in, all of
them up to the maximal size unless the free sectors run out; it replaces exactly these bytes and
changes no other file. A read returns the bytes at its position, as many as there are. -/
theorem files_contract (h : Reached cp N s a) (calls : List Call) (hok : Files.PermitsAll calls a) :
    let s' := (runCalls (fsDisk cp) calls s).2
    let a' := (Files.run calls a).2
    (runCalls (fsDisk cp) calls s).1 = (Files.run calls a).1 ∧
    (∀ n, fileBytes (logicalDisk cp s'.dev) s'.mem n = if n ∈ a'.names then some (a'.data n) else none) ∧
    ∀ fd n p, a'.usable fd true = some (n, p) →
      (∀ input,
        let w := (Call.write fd (some input)).prog.run (fsDisk cp) s'
        w.1.val = a'.room n p input.length ∧
        (w.1.val = (min input.length (16384 - p) : Nat) ∨ freeSectors w.2.mem = ∅) ∧
        fileBytes (logicalDisk cp w.2.dev) w.2.mem n =
          some (overwrite (a'.data n) p (input.take (a'.room n p input.length))) ∧
        (∀ k, k ≠ n → fileBytes (logicalDisk cp w.2.dev) w.2.mem k = fileBytes (logicalDisk cp s'.dev) s'.mem k) ∧
        (w.2.mem.handles fd.toNat).position = p + a'.room n p input.length) ∧
      ∀ size,
        let r := (Call.read fd true size).prog.run (fsDisk cp) s'
        r.1 = ⟨(min size ((a'.data n).length - p) : Nat), ((a'.data n).drop p).take size⟩ ∧
        (r.2.mem.handles fd.toNat).position = p + min size ((a'.data n).length - p) := by
  intro s' a'
  obtain ⟨hret, hrun⟩ := h.running.calls calls hok
  refine ⟨hret, hrun.fileBytes, fun fd n p hu => ⟨fun input => ?_, fun size => ?_⟩⟩
  · obtain ⟨hfd, hn, hp⟩ := Files.opened_usable hu
    obtain ⟨w1, w2, w3, w4, w5⟩ := Files.write_spec hu input
    obtain ⟨hret', hrun'⟩ := hrun.calls [.write fd (some input)] ⟨trivial, trivial⟩
    have hval : ((Call.write fd (some input)).prog.run (fsDisk cp) s').1 = (a'.write fd (some input)).1 :=
      (List.cons.inj hret').1
    have hrun' : Running cp N ((Call.write fd (some input)).prog.run (fsDisk cp) s').2 (a'.write fd (some input)).2 :=
      hrun'
    have hhand := hrun'.refines.agrees.handles fd.toNat hfd
    rw [w4, Function.update_self] at hhand
    obtain ⟨i, -, hpos⟩ := hhand
    intro w
    refine ⟨by rw [show w.1 = _ from hval, w1], ?_, ?_, fun k hk => ?_,
      by rw [show w.2.mem.handles fd.toNat = _ from hpos]⟩
    · rw [show w.1 = _ from hval, w1]
      by_cases hlt : a'.room n p input.length < min input.length (16384 - p)
      · right
        rw [← Finset.card_eq_zero, hrun'.refines.agrees.free]
        exact w5 hlt
      · left
        have : a'.room n p input.length ≤ min input.length (16384 - p) := Nat.min_le_left _ _
        exact congrArg Int.ofNat (by omega)
    · rw [hrun'.fileBytes, w2, if_pos hn, w3, Function.update_self]
    · rw [hrun'.fileBytes, hrun.fileBytes, w2, w3, Function.update_of_ne hk]
  · obtain ⟨hfd, hn, hp⟩ := Files.opened_usable hu
    obtain ⟨r1, r2⟩ := Files.read_spec hu size
    obtain ⟨hret', hrun'⟩ := hrun.calls [.read fd true size] ⟨trivial, trivial⟩
    have hval : ((Call.read fd true size).prog.run (fsDisk cp) s').1 = (a'.read fd true size).1 :=
      (List.cons.inj hret').1
    have hrun' : Running cp N ((Call.read fd true size).prog.run (fsDisk cp) s').2 (a'.read fd true size).2 := hrun'
    have hhand := hrun'.refines.agrees.handles fd.toNat hfd
    rw [r2, Function.update_self] at hhand
    obtain ⟨i, -, hpos⟩ := hhand
    intro r
    exact ⟨by rw [show r.1 = _ from hval, r1], by rw [show r.2.mem.handles fd.toNat = _ from hpos]⟩

/-- A file created, opened and written on a new disk. -/
theorem files_contract_boot :
    (runCalls (fsDisk nullPrimitives) [.create nameA, .open nameA, .write 0 (some [0x78, 0x79]), .exist nameB]
      (fsFormat (current nullPrimitives) (fun _ => 0) (bootConf (blankDrive 200))).2).1 =
      [⟨1, []⟩, ⟨0, []⟩, ⟨2, []⟩, ⟨0, []⟩] := by
  have h := fsFormat_boot nullPrimitives (fun _ => 0) (a := blankDrive 200) rfl (by decide) fun _ => rfl
  have hr := (files_contract (.format (fun _ => 0) (bootConf (blankDrive 200)) (Registry.boot _) (fun _ => rfl) rfl h)
    [.create nameA, .open nameA, .write 0 (some [0x78, 0x79]), .exist nameB]
    ⟨trivial, trivial, trivial, trivial, trivial⟩).1
  exact hr.trans (by decide)

end

end SpectreOS
