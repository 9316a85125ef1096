/-
Accesses of the file operations on disks that may hold anything. Of a disk `fs_init` checks the
superblock only. Exactly in a run of tame calls every access is in range, whatever the disk holds and
whatever fails (`accesses_inRange`); a forged directory entry makes an open and a read leave the inode
table.
-/
import SpectreOS.Fs.Tame
import SpectreOS.Fs.Compat

namespace SpectreOS

open BlockIO Prog

/-- After a mount, whatever the disk holds and whatever fails: every access of the calls stays in the tables,
and file data and entries are written to the data area only, exactly if every call made is tame. -/
theorem accesses_inRange (cp : Primitives) (material : Nat → Byte) (c : Conf FsMem Machine) (calls : List Call) :
    (∀ call : Call, Records call.watched call.prog) ∧
      (EveryStep (fun call s => ∀ a ∈ notes (fsDisk cp) call.watched s, a.InRange s.mem.superblock.totalSectors)
          (fsDisk cp) calls (fsInit (current cp) material c).2 ↔
        EveryStep (fun call s => call.Tame (fsDisk cp) s) (fsDisk cp) calls (fsInit (current cp) material c).2) := by
  refine ⟨call_records, ?_⟩
  generalize (fsInit (current cp) material c).2 = s
  induction calls generalizing s with
  | nil => exact Iff.rfl
  | cons call calls ih => exact and_congr (call_inRange_iff _ s call) (ih _)

/-! ## A forged directory -/

/-- A drive with the layout of a formatted disk, whose first directory entry names inode 200. -/
def forgedDrive : Ata :=
  { blankDrive 200 with
    disk := fun lba =>
      if lba = 0 then superblockSector (freshSuperblock 200)
      else withEntry (withInode (fun _ _ => 0) 0 (rootInode 32)) 0 (newEntry nameA 200) lba }

theorem forgedDrive_disk (lba : Nat) : forgedDrive.disk lba =
    if lba = 0 then superblockSector (freshSuperblock 200)
    else withEntry (withInode (fun _ _ => 0) 0 (rootInode 32)) 0 (newEntry nameA 200) lba := rfl

theorem forgedDrive_zero : forgedDrive.disk 0 = superblockSector (freshSuperblock 200) := by
  rw [forgedDrive_disk, if_pos rfl]

theorem forgedDrive_plain : Plain forgedDrive.disk := .of_layout (show 129 < 200 by omega) (by omega) forgedDrive_zero

theorem forgedDrive_root : storedInode forgedDrive.disk 0 = rootInode 32 := by
  have h : forgedDrive.disk 33 = withInode (fun _ _ => 0) 0 (rootInode 32) 33 := by
    rw [forgedDrive_disk, if_neg (by omega), withEntry_of_ne _ _ _ (by omega)]
  exact (storedInode_congr h).trans (storedInode_withInode _ 0 rootInode_fits)

theorem forgedDrive_entry : entryAt forgedDrive.disk 0 = newEntry nameA 200 := by
  have h : forgedDrive.disk 97 = withEntry (withInode (fun _ _ => 0) 0 (rootInode 32)) 0 (newEntry nameA 200) 97 := by
    rw [forgedDrive_disk, if_neg (by omega)]
  exact (entryAt_congr h).trans (entryAt_withEntry _ 0 (show 200 < 2 ^ 32 by omega) (show 1 < 2 ^ 32 by omega))

/-- Both tables of a drive on which nothing fails are as the disk holds them. -/
theorem mountTables_served {cp : Primitives} {N : Nat} {d : Nat → Sector} {mem : FsMem} {m : Machine} (hN : 97 ≤ N)
    (honAta : OnAta m) (hserves : Serves N false false d m.ata) :
    let r := mountTables (current cp) ⟨mem, m⟩
    r.1 = true ∧ OnAta r.2.dev ∧ Serves N false false d r.2.dev.ata ∧ Synced d r.2.mem ∧
      r.2.mem.superblock = mem.superblock ∧ r.2.mem.filesystemReady = true ∧ r.2.mem.handles 0 = .closed := by
  obtain ⟨d', ⟨rfl, hok, hfail⟩, hserves'⟩ := wp_sound (Serves.models N false false) loadTables (c := ⟨mem, m.ata⟩)
    (loadTables_exact hN) hserves
  obtain ⟨e1, e2, e3, e4⟩ := run_hom (onAta_hom cp) loadTables ⟨mem, m⟩ honAta
  rw [← e1, ← e2] at hok
  rw [← e1] at hfail
  rw [← e3] at hserves'
  unfold mountTables
  rcases hrun : loadTables.run (current cp).disk ⟨mem, m⟩ with ⟨ok, s⟩
  rw [show loadTables.run (fsDisk cp) ⟨mem, m⟩ = _ from hrun] at hok hfail hserves' e4
  obtain rfl : ok = true := by
    by_contra hne
    simpa using hfail (by simpa using hne)
  obtain ⟨hsuper, -, hsync⟩ := hok rfl
  exact ⟨rfl, e4, hserves', ⟨hsync.bitmap, hsync.inodes⟩, hsuper, rfl, rfl⟩

/-- The forged drive mounts. -/
structure Forged (s : Conf FsMem Machine) : Prop where
  device : OnAta s.dev
  serves : Serves 200 false false forgedDrive.disk s.dev.ata
  total : s.mem.superblock.totalSectors = 200
  root : s.mem.inode 0 = rootInode 32
  ready : s.mem.filesystemReady = true
  handle : s.mem.handles 0 = .closed

theorem forged_mount : (fsInit (current nullPrimitives) (fun _ => 0) (bootConf forgedDrive)).1 = true ∧
    Forged (fsInit (current nullPrimitives) (fun _ => 0) (bootConf forgedDrive)).2 := by
  obtain ⟨m₁, hata, honAta, hinit⟩ := @fsInit_plain nullPrimitives (fun _ => 0) FsMem.boot (bootMachine forgedDrive)
    forgedDrive_plain (Registry.boot _) rfl rfl
  have hata' : m₁.ata = forgedDrive.record (.read 0 true) := hata
  have hserves : Serves 200 false false forgedDrive.disk m₁.ata := by
    rw [hata']
    exact ⟨rfl, rfl, le_rfl, by omega, .inr fun _ => rfl⟩
  have hsuper : onDisk forgedDrive.disk = freshSuperblock 200 := by
    unfold onDisk
    rw [forgedDrive_zero]
    exact superblockSector_slice _ (freshSuperblock_fits (by omega) fun _ => by omega)
  rw [show fsInit (current nullPrimitives) (fun _ => 0) (bootConf forgedDrive) = _ from hinit]
  obtain ⟨h1, h2, h3, h4, h5, h6, h7⟩ := @mountTables_served nullPrimitives 200 forgedDrive.disk
    { FsMem.boot with filesystemReady := false, superblock := onDisk forgedDrive.disk } m₁ (by omega) honAta hserves
  refine ⟨h1, h2, h3, ?_, (h4.inodes 0 (by omega)).symm.trans forgedDrive_root, h6, h7⟩
  have htotal := congrArg Superblock.totalSectors (h5.trans hsuper)
  exact htotal

/-- `fs_open` takes the inode number as it stands in the entry. -/
theorem fsOpen_forged {d : Nat → Sector} {m : FsMem} (hentry : entryAt d 0 = newEntry nameA 200)
    (hroot : m.inode 0 = rootInode 32) (hready : m.filesystemReady = true) (hhandle : m.handles 0 = .closed) :
    (fsOpen nameA).wp (exact 200 false false) (fun _ _ m' => m' = setHandle m 0 ⟨200, 0⟩) d m := by
  have hvalid : validName nameA = true := by decide
  have hname : (entryAt d 0).hasName nameA := by
    rw [hentry]
    exact ⟨by simp [newEntry], (strEqual_newEntry hvalid 200 nameA).2 rfl⟩
  unfold fsOpen
  rw [wp_bind, wp_load, if_neg (by simp [hready, hvalid])]
  refine (findDirEntry_exact (by omega) hroot nameA).seq ?_
  rintro res d' m' ⟨rfl, rfl, ⟨-, hnone⟩ | ⟨slot, hslot, rfl, -, hfirst⟩⟩
  · exact absurd hname (hnone rfl 0 (by decide))
  · obtain rfl : slot = 0 := by
      by_contra hne
      exact hfirst rfl 0 (by omega) hname
    have hfind : ((List.range fsMaxHandles).find? fun i => decide ((m'.handles i).inode < 0)) = some 0 := by
      rw [show fsMaxHandles = 15 + 1 from rfl, List.range_succ_eq_map, List.find?_cons_of_pos]
      rw [hhandle]
      rfl
    rw [hentry, if_neg (by decide), wp_bind, wp_load, hfind]
    rfl

/-- A read through the handle goes to `inodes[200]`. -/
theorem forged_read {s : Conf FsMem Machine} (hready : s.mem.filesystemReady = true)
    (hhandle : s.mem.handles 0 = ⟨200, 0⟩) :
    notes (fsDisk nullPrimitives) (Call.read 0 true 1).watched s = [.inode 200] := by
  have husable : handleUsable s.mem 0 true = true := by
    rw [handleUsable_iff]
    exact ⟨hready, rfl, by omega, by omega, by rw [show (0 : Int).toNat = 0 from rfl, hhandle]; simp⟩
  have hsize : (s.mem.inode 200).size = 0 := by rw [inode_of_ge _ (by omega)]; rfl
  simp [notes, Call.watched, fsReadWatched, peek, note, Prog.run, husable, hhandle, hsize]

theorem saveInode_anything (index : Nat) (m : FsMem) : (saveInode index).wp anything (fun _ _ m' => m' = m) () m := by
  unfold saveInode
  split
  · rfl
  dsimp only
  split
  · rfl
  rw [wp_bind, wp_readBlock]
  refine ⟨trivial, fun r _ _ => ?_⟩
  cases r with
  | none => rfl
  | some block => exact ⟨trivial, fun _ _ _ => rfl⟩

/-- Its directory lies in the data area. -/
theorem Forged.tame_create {s : Conf FsMem Machine} (h : Forged s) (D : Device Machine Sector) (name : CStr) :
    (Call.create name).Tame D s := by
  intro _ _ inode c₁ hfind _ slot c₂ hslot index hfree c₃ hsave hne _
  have hmem₁ := (@findDirEntry_inRange 0 s.mem name).post (D := D) (findDirEntryWatched_records name)
  rw [hfind] at hmem₁
  have hmem₂ := (@findFreeDirSlot_inRange 0 c₁.mem).post (D := D) findFreeDirSlotWatched_records
  rw [hslot] at hmem₂
  obtain ⟨-, hmem₃, -⟩ := wp_sound (anything_any D) (saveInode index)
    (c := { c₂ with mem := setInode c₂.mem index .fresh }) (saveInode_anything index _) trivial
  rw [hsave] at hmem₃
  have hroot : c₃.mem.inode 0 = rootInode 32 := by
    rw [show c₃.mem = setInode c₂.mem index .fresh from hmem₃, inode_setInode,
      if_neg fun he => absurd he.1 (firstFreeInode_some hfree).1.ne, show c₂.mem = c₁.mem from hmem₂,
      show c₁.mem = s.mem from hmem₁, h.root]
  have hblock : slot / perSector < 32 := by
    by_contra hge
    exact hne (directAt_past c₃.mem 0 hge)
  have hlba : slotLba c₃.mem slot = 97 + slot / perSector := by
    rw [slotLba, ← directAt_eq c₃.mem 0 hblock, hroot]
    exact if_pos hblock
  rw [hlba, h.total]
  exact ⟨Nat.le_add_right 97 _, by omega⟩

/-- A run on the forged drive whose calls use no inode number of an entry. -/
theorem accesses_inRange_forged :
    EveryStep (fun call s => ∀ a ∈ notes (fsDisk nullPrimitives) call.watched s,
      a.InRange s.mem.superblock.totalSectors)
      (fsDisk nullPrimitives) [.create nameB, .open nameA, .list true 64]
      (fsInit (current nullPrimitives) (fun _ => 0) (bootConf forgedDrive)).2 := by
  obtain ⟨-, hforged⟩ := forged_mount
  exact (accesses_inRange nullPrimitives (fun _ => 0) (bootConf forgedDrive)
    [.create nameB, .open nameA, .list true 64]).2.2
    ⟨hforged.tame_create _ nameB, trivial, trivial, trivial⟩

/-- The image passes `load_superblock` and mounts, and an open and a read access `inodes[200]`. -/
theorem forged_outOfRange :
    (onDisk forgedDrive.disk).accepted = true ∧
      (fsInit (current nullPrimitives) (fun _ => 0) (bootConf forgedDrive)).1 = true ∧
      ¬ EveryStep
        (fun call s => ∀ a ∈ notes (fsDisk nullPrimitives) call.watched s, a.InRange s.mem.superblock.totalSectors)
        (fsDisk nullPrimitives) [.open nameA, .read 0 true 1]
        (fsInit (current nullPrimitives) (fun _ => 0) (bootConf forgedDrive)).2 := by
  obtain ⟨hmount, hforged⟩ := forged_mount
  refine ⟨forgedDrive_plain.accepted, hmount, ?_⟩
  generalize (fsInit (current nullPrimitives) (fun _ => 0) (bootConf forgedDrive)).2 = s at hforged ⊢
  rintro ⟨-, hread, -⟩
  obtain ⟨-, hopen, -⟩ := wp_sound (Serves.models 200 false false) (fsOpen nameA) (c := ⟨s.mem, s.dev.ata⟩)
    (fsOpen_forged forgedDrive_entry hforged.root hforged.ready hforged.handle) hforged.serves
  obtain ⟨-, hmem, -, -⟩ := run_hom (onAta_hom nullPrimitives) (fsOpen nameA) s hforged.device
  have hstate : ((Call.open nameA).prog.run (fsDisk nullPrimitives) s).2.mem = setHandle s.mem 0 ⟨200, 0⟩ := by
    unfold Call.prog
    rw [run_bind, run_pure]
    exact hmem.trans hopen
  have hnotes := forged_read (s := ((Call.open nameA).prog.run (fsDisk nullPrimitives) s).2)
    (by rw [hstate]; exact hforged.ready) (by rw [hstate]; simp [setHandle])
  have hlt : 200 < fsMaxFiles := hread (.inode 200) (by rw [hnotes]; exact List.mem_singleton.2 rfl)
  exact absurd hlt (by decide)

end SpectreOS
