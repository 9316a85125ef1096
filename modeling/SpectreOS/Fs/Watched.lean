/-
The file operations of fs.c once more, with what they access: every inode of the table, every place in
an inode's `direct` array, and every sector to which file data or a directory entry is written. The
notes apart they are the operations of the model.
-/
import SpectreOS.Fs.File
import SpectreOS.Lib.Watch

namespace SpectreOS

open BlockIO Prog

/-- An access of the filesystem: `inodes[index]`, `direct[block]` of an inode, a write of file data or
of a directory entry. -/
inductive FsAccess where
  | inode (index : Nat)
  | direct (block : Nat)
  | data (lba : Nat)
  deriving DecidableEq, Repr

/-- The data area: neither superblock, bitmap nor inode table, and no sector past the last. -/
def InData (total lba : Nat) : Prop := fsDataStart ≤ lba ∧ lba < total

instance (total lba : Nat) : Decidable (InData total lba) := inferInstanceAs (Decidable (_ ∧ _))

/-- The access stays in the tables, or writes to the data area. -/
def FsAccess.InRange (total : Nat) : FsAccess → Prop
  | inode index => index < fsMaxFiles
  | direct block => block < fsDirectBlocks
  | data lba => InData total lba

abbrev WatchedM := Prog (FsMem × List FsAccess) Sector

/-! ## Storage -/

def saveInodeWatched (index : Nat) : WatchedM Bool := do
  -- the index is checked before the table is read
  if index < fsMaxFiles then note [.inode index]
  (saveInode index).quiet

def dirReadEntryWatched (slot : Nat) : WatchedM (Option Dirent) :=
  if h : slot / perSector < 32 then do
    let m ← peek
    note [.inode 0, .direct (slot / perSector)]
    let lba := (m.inode 0).direct ⟨slot / perSector, h⟩
    if lba = 0 then pure none
    else
      match ← readBlock lba with
      | none => pure none
      | some block => pure (some (.ofImage (block.slice (slot % perSector * 56))))
  else pure none

def dirWriteEntryWatched (slot : Nat) (entry : Dirent) : WatchedM Bool :=
  if h : slot / perSector < 32 then do
    let m ← peek
    note [.inode 0, .direct (slot / perSector)]
    let lba := (m.inode 0).direct ⟨slot / perSector, h⟩
    if lba = 0 then pure false
    else
      match ← readBlock lba with
      | none => pure false
      | some block =>
        note [.data lba]
        writeBlock lba (block.patch (slot % perSector * 56) 56 entry.image)
  else pure false

def findDirEntryWatched (name : CStr) : WatchedM Int := do
  let found ← (List.range dirSlots).findSomeM? fun slot => do
    match ← dirReadEntryWatched slot with
    | none => pure none
    | some entry =>
      pure (if entry.used ≠ 0 ∧ strEqual entry.chars name.val then some (int32 entry.inode) else none)
  pure (found.getD (-1))

def findFreeDirSlotWatched : WatchedM (Option Nat) :=
  (List.range dirSlots).findSomeM? fun slot => do
    match ← dirReadEntryWatched slot with
    | none => pure none
    | some entry => pure (if entry.used = 0 then some slot else none)

def allocateSectorWatched : WatchedM (Option Nat) := do
  let m ← peek
  match firstFree m with
  | none => pure none
  | some sector =>
    alter (bitmapSet · sector)
    if !(← saveBitmap.quiet) then
      alter (bitmapClear · sector)
      pure none
    else
      note [.data sector]
      if !(← writeBlock sector fun _ => 0) then
        alter (bitmapClear · sector)
        let _ ← saveBitmap.quiet
        pure none
      else pure (some sector)

/-! ## The file operations -/

def fsExistsWatched (name : CStr) : WatchedM Int := do
  let m ← peek
  if !m.filesystemReady || !validName name then pure 0
  else
    let inode ← findDirEntryWatched name
    pure (if inode ≥ 0 then 1 else 0)

/-- The inodes whose mode `fs_create` looks at. -/
def inodesTried (m : FsMem) : List Nat := List.range' 1 ((firstFreeInode m).getD (fsMaxFiles - 1))

def fsCreateWatched (name : CStr) : WatchedM Int := do
  let m ← peek
  if !m.filesystemReady || !validName name then pure 0
  else if (← findDirEntryWatched name) ≥ 0 then pure 0
  else
    match ← findFreeDirSlotWatched with
    | none => pure 0
    | some slot =>
      let m ← peek
      note ((inodesTried m).map .inode)
      match firstFreeInode m with
      | none => pure 0
      | some index =>
        note [.inode index]
        alter fun m => setInode m index .fresh
        if !(← saveInodeWatched index) then pure 0
        else if !(← dirWriteEntryWatched slot (newEntry name index)) then
          note [.inode index]
          alter fun m => setInode m index { m.inode index with mode := fsModeFree }
          let _ ← saveInodeWatched index
          pure 0
        else pure 1

def fsDeleteWatched (name : CStr) : WatchedM Int := do
  let m ← peek
  if !m.filesystemReady || !validName name then pure 0
  else
    let inode ← findDirEntryWatched name
    if inode ≤ 0 then pure 0
    else
      let index := inode.toNat
      note (.inode index :: (List.range fsDirectBlocks).map .direct)
      alter (releaseInode · index)
      if !(← saveBitmap.quiet) then pure 0
      else if !(← saveInodeWatched index) then pure 0
      else
        let _ ← (List.range dirSlots).findSomeM? fun slot => do
          match ← dirReadEntryWatched slot with
          | none => pure none
          | some entry =>
            if entry.used ≠ 0 ∧ entry.inode = index then
              let _ ← dirWriteEntryWatched slot .zero
              pure (some ())
            else pure none
        pure 1

def fsOpenWatched (name : CStr) : WatchedM Int := do
  let m ← peek
  if !m.filesystemReady || !validName name then pure (-1)
  else
    let inode ← findDirEntryWatched name
    if inode < 0 then pure (-1)
    else
      let m ← peek
      match (List.range fsMaxHandles).find? fun i => decide ((m.handles i).inode < 0) with
      | none => pure (-1)
      | some fd =>
        alter fun m => setHandle m fd ⟨inode, 0⟩
        pure fd

def fsReadLoopWatched (index position size done : Nat) (output : List Byte) : WatchedM (Nat × List Byte) :=
  if _h : done < size then
    if hb : (position + done) / 512 < 32 then do
      let m ← peek
      note [.inode index, .direct ((position + done) / 512)]
      let lba := (m.inode index).direct ⟨(position + done) / 512, hb⟩
      if lba = 0 then pure (done, output)
      else
        match ← readBlock lba with
        | none => pure (done, output)
        | some sectorBuffer =>
          let chunk := min (512 - (position + done) % 512) (size - done)
          fsReadLoopWatched index position size (done + chunk)
            (output ++ (List.range chunk).map (sectorBuffer.slice ((position + done) % 512)))
    else pure (done, output)
  else pure (done, output)
termination_by size - done
decreasing_by have := Nat.mod_lt (position + done) (show 0 < 512 by omega); omega

def fsReadWatched (fd : Int) (buffer : Bool) (size : Nat) : WatchedM (Int × List Byte) := do
  let m ← peek
  if !handleUsable m fd buffer then pure (-1, [])
  else
    let index := (m.handles fd.toNat).inode.toNat
    let position := (m.handles fd.toNat).position
    note [.inode index]
    if position ≥ (m.inode index).size then pure (0, [])
    else
      let (done, output) ← fsReadLoopWatched index position (min size ((m.inode index).size - position)) 0 []
      alter fun m => setHandle m fd.toNat { m.handles fd.toNat with position := position + done }
      pure (done, output)

def ensureBlockWatched (index : Nat) (block : Fin 32) : WatchedM (Option Nat) := do
  let m ← peek
  note [.inode index, .direct block]
  if (m.inode index).direct block = 0 then
    match ← allocateSectorWatched with
    | none => pure none
    | some sector =>
      alter (assignBlock · index block sector)
      pure (some sector)
  else pure (some ((m.inode index).direct block))

def fsWriteLoopWatched (index position size : Nat) (input : Nat → Byte) (done : Nat) : WatchedM Nat :=
  if _h : done < size then
    if hb : (position + done) / 512 < 32 then do
      match ← ensureBlockWatched index ⟨(position + done) / 512, hb⟩ with
      | none => pure done
      | some lba =>
        match ← readBlock lba with
        | none => pure done
        | some sectorBuffer =>
          let chunk := min (512 - (position + done) % 512) (size - done)
          note [.data lba]
          let ok ← writeBlock lba
            (sectorBuffer.patch ((position + done) % 512) chunk fun k => input (done + k))
          if ok then fsWriteLoopWatched index position size input (done + chunk) else pure done
    else pure done
  else pure done
termination_by size - done
decreasing_by have := Nat.mod_lt (position + done) (show 0 < 512 by omega); omega

def fsWriteWatched (fd : Int) (buffer : Option (List Byte)) : WatchedM Int := do
  let m ← peek
  if !handleUsable m fd buffer.isSome then pure (-1)
  else
    let index := (m.handles fd.toNat).inode.toNat
    let position := (m.handles fd.toNat).position
    let input := buffer.getD []
    if position ≥ fsMaxFileSize then pure 0
    else
      let done ← fsWriteLoopWatched index position (min input.length (fsMaxFileSize - position)) (input.getD · 0) 0
      note [.inode index]
      alter (finishWrite · fd.toNat index (position + done))
      let _ ← saveInodeWatched index
      let _ ← saveBitmap.quiet
      pure done

def fsListLoopWatched (size : Nat) : List Nat → List Byte → WatchedM (List Byte)
  | [], written => pure written
  | slot :: slots, written => do
    match ← dirReadEntryWatched slot with
    | none => fsListLoopWatched size slots written
    | some entry =>
      if entry.used = 0 then fsListLoopWatched size slots written
      else if written.length + entry.nameLength + 1 ≥ size then pure written
      else fsListLoopWatched size slots (written ++ (List.range entry.nameLength).map entry.chars ++ [0x0A#8])

def fsListWatched (buffer : Bool) (size : Nat) : WatchedM (Int × List Byte) := do
  let m ← peek
  if !m.filesystemReady || !buffer || size == 0 then pure (-1, [])
  else
    let written ← fsListLoopWatched size (List.range dirSlots) []
    pure (written.length,
      if written.length < size then written ++ [0] else written.take (size - 1) ++ [0])

def Call.watched : Call → WatchedM Ret
  | create name => do return ⟨← fsCreateWatched name, []⟩
  | delete name => do return ⟨← fsDeleteWatched name, []⟩
  | exist name => do return ⟨← fsExistsWatched name, []⟩
  | .open name => do return ⟨← fsOpenWatched name, []⟩
  | close fd => do return ⟨← (fsClose fd).quiet, []⟩
  | read fd buffer size => do let (n, out) ← fsReadWatched fd buffer size; return ⟨n, out⟩
  | write fd buffer => do return ⟨← fsWriteWatched fd buffer, []⟩
  | list buffer size => do let (n, out) ← fsListWatched buffer size; return ⟨n, out⟩

/-! ## The notes apart -/

theorem saveInodeWatched_records (index : Nat) : Records (saveInodeWatched index) (saveInode index) := by
  unfold saveInodeWatched
  split
  · exact Records.note _ (.quiet _)
  · exact Records.quiet _

theorem dirReadEntryWatched_records (slot : Nat) : Records (dirReadEntryWatched slot) (dirReadEntry slot) := by
  unfold dirReadEntryWatched dirReadEntry
  split
  · refine .peek fun m => .note _ (.ite (fun _ => .pure _) fun _ => (Records.readBlock _).bind fun r => ?_)
    cases r <;> exact .pure _
  · exact .pure _

theorem dirWriteEntryWatched_records (slot : Nat) (entry : Dirent) :
    Records (dirWriteEntryWatched slot entry) (dirWriteEntry slot entry) := by
  unfold dirWriteEntryWatched dirWriteEntry
  split
  · refine .peek fun m => .note _ (.ite (fun _ => .pure _) fun _ => (Records.readBlock _).bind fun r => ?_)
    cases r with
    | none => exact .pure _
    | some block => exact .note _ (.writeBlock _ _)
  · exact .pure _

theorem findDirEntryWatched_records (name : CStr) : Records (findDirEntryWatched name) (findDirEntry name) := by
  refine (Records.findSomeM? _ fun slot => (dirReadEntryWatched_records slot).bind fun r => ?_).bind fun _ => .pure _
  cases r <;> exact .pure _

theorem findFreeDirSlotWatched_records : Records findFreeDirSlotWatched findFreeDirSlot := by
  refine Records.findSomeM? _ fun slot => (dirReadEntryWatched_records slot).bind fun r => ?_
  cases r <;> exact .pure _

theorem allocateSectorWatched_records : Records allocateSectorWatched allocateSector := by
  refine .peek fun m => ?_
  cases firstFree m with
  | none => exact .pure _
  | some sector =>
    refine (Records.alter _).bind fun _ => (Records.quiet _).bind fun saved => .ite (fun _ => ?_) fun _ => ?_
    · exact (Records.alter _).bind fun _ => .pure _
    · refine .note _ ((Records.writeBlock _ _).bind fun ok => .ite (fun _ => ?_) fun _ => .pure _)
      exact (Records.alter _).bind fun _ => (Records.quiet _).bind fun _ => .pure _

theorem fsExistsWatched_records (name : CStr) : Records (fsExistsWatched name) (fsExists name) :=
  .peek fun _ => .ite (fun _ => .pure _) fun _ => (findDirEntryWatched_records name).bind fun _ => .pure _

theorem fsCreateWatched_records (name : CStr) : Records (fsCreateWatched name) (fsCreate name) := by
  refine .peek fun _ => .ite (fun _ => .pure _) fun _ => (findDirEntryWatched_records name).bind fun inode =>
    .ite (fun _ => .pure _) fun _ => findFreeDirSlotWatched_records.bind fun slot => ?_
  cases slot with
  | none => exact .pure _
  | some slot =>
    refine .peek fun m => .note _ ?_
    cases firstFreeInode m with
    | none => exact .pure _
    | some index =>
      refine .note _ ((Records.alter _).bind fun _ => (saveInodeWatched_records index).bind fun saved =>
        .ite (fun _ => .pure _) fun _ => (dirWriteEntryWatched_records slot _).bind fun written =>
          .ite (fun _ => .note _ ?_) fun _ => .pure _)
      exact (Records.alter _).bind fun _ => (saveInodeWatched_records index).bind fun _ => .pure _

theorem fsDeleteWatched_records (name : CStr) : Records (fsDeleteWatched name) (fsDelete name) := by
  refine .peek fun _ => .ite (fun _ => .pure _) fun _ => (findDirEntryWatched_records name).bind fun inode =>
    .ite (fun _ => .pure _) fun _ => .note _ ((Records.alter _).bind fun _ => (Records.quiet _).bind fun saved =>
      .ite (fun _ => .pure _) fun _ => (saveInodeWatched_records _).bind fun saved =>
        .ite (fun _ => .pure _) fun _ => (Records.findSomeM? _ fun slot =>
          (dirReadEntryWatched_records slot).bind fun r => ?_).bind fun _ => .pure _)
  cases r with
  | none => exact .pure _
  | some entry =>
    exact .ite (fun _ => (dirWriteEntryWatched_records slot _).bind fun _ => .pure _) fun _ => .pure _

theorem fsOpenWatched_records (name : CStr) : Records (fsOpenWatched name) (fsOpen name) := by
  refine .peek fun _ => .ite (fun _ => .pure _) fun _ => (findDirEntryWatched_records name).bind fun inode =>
    .ite (fun _ => .pure _) fun _ => .peek fun m => ?_
  cases (List.range fsMaxHandles).find? fun i => decide ((m.handles i).inode < 0) with
  | none => exact .pure _
  | some fd => exact (Records.alter _).bind fun _ => .pure _

theorem fsReadLoopWatched_records (index position size done : Nat) (output : List Byte) :
    Records (fsReadLoopWatched index position size done output) (fsReadLoop index position size done output) := by
  induction done, output using fsReadLoop.induct position size with
  | case1 done output hlt hb ih =>
    rw [fsReadLoopWatched, fsReadLoop, dif_pos hlt, dif_pos hlt, dif_pos hb, dif_pos hb]
    refine .peek fun m => .note _ (.ite (fun _ => .pure _) fun _ => (Records.readBlock _).bind fun r => ?_)
    cases r with
    | none => exact .pure _
    | some block => exact ih block
  | case2 done output hlt hb =>
    rw [fsReadLoopWatched, fsReadLoop, dif_pos hlt, dif_pos hlt, dif_neg hb, dif_neg hb]
    exact .pure _
  | case3 done output hlt =>
    rw [fsReadLoopWatched, fsReadLoop, dif_neg hlt, dif_neg hlt]
    exact .pure _

theorem fsReadWatched_records (fd : Int) (buffer : Bool) (size : Nat) :
    Records (fsReadWatched fd buffer size) (fsRead fd buffer size) :=
  .peek fun _ => .ite (fun _ => .pure _) fun _ => .note _ (.ite (fun _ => .pure _) fun _ =>
    (fsReadLoopWatched_records _ _ _ 0 []).bind fun _ => (Records.alter _).bind fun _ => .pure _)

theorem ensureBlockWatched_records (index : Nat) (block : Fin 32) :
    Records (ensureBlockWatched index block) (ensureBlock index block) := by
  refine .peek fun m => .note _ (.ite (fun _ => allocateSectorWatched_records.bind fun r => ?_) fun _ => .pure _)
  cases r with
  | none => exact .pure _
  | some sector => exact (Records.alter _).bind fun _ => .pure _

theorem fsWriteLoopWatched_records (index position size : Nat) (input : Nat → Byte) (done : Nat) :
    Records (fsWriteLoopWatched index position size input done) (fsWriteLoop index position size input done) := by
  induction done using fsWriteLoop.induct position size with
  | case1 done hlt hb ih =>
    rw [fsWriteLoopWatched, fsWriteLoop, dif_pos hlt, dif_pos hlt, dif_pos hb, dif_pos hb]
    refine (ensureBlockWatched_records index _).bind fun r => ?_
    cases r with
    | none => exact .pure _
    | some lba =>
      refine (Records.readBlock _).bind fun r => ?_
      cases r with
      | none => exact .pure _
      | some block => exact .note _ ((Records.writeBlock _ _).bind fun ok => .ite (fun _ => ih) fun _ => .pure _)
  | case2 done hlt hb =>
    rw [fsWriteLoopWatched, fsWriteLoop, dif_pos hlt, dif_pos hlt, dif_neg hb, dif_neg hb]
    exact .pure _
  | case3 done hlt =>
    rw [fsWriteLoopWatched, fsWriteLoop, dif_neg hlt, dif_neg hlt]
    exact .pure _

theorem fsWriteWatched_records (fd : Int) (buffer : Option (List Byte)) :
    Records (fsWriteWatched fd buffer) (fsWrite fd buffer) :=
  .peek fun _ => .ite (fun _ => .pure _) fun _ => .ite (fun _ => .pure _) fun _ =>
    (fsWriteLoopWatched_records _ _ _ _ 0).bind fun _ => .note _ ((Records.alter _).bind fun _ =>
      (saveInodeWatched_records _).bind fun _ => (Records.quiet _).bind fun _ => .pure _)

theorem fsListLoopWatched_records (size : Nat) (slots : List Nat) (written : List Byte) :
    Records (fsListLoopWatched size slots written) (fsListLoop size slots written) := by
  induction slots generalizing written with
  | nil => exact .pure _
  | cons slot slots ih =>
    refine (dirReadEntryWatched_records slot).bind fun r => ?_
    cases r with
    | none => exact ih _
    | some entry => exact .ite (fun _ => ih _) fun _ => .ite (fun _ => .pure _) fun _ => ih _

theorem fsListWatched_records (buffer : Bool) (size : Nat) : Records (fsListWatched buffer size) (fsList buffer size) :=
  .peek fun _ => .ite (fun _ => .pure _) fun _ => (fsListLoopWatched_records size _ []).bind fun _ => .pure _

/-- A watched call is the call. -/
theorem call_records (call : Call) : Records call.watched call.prog := by
  cases call with
  | create name => exact (fsCreateWatched_records name).bind fun _ => .pure _
  | delete name => exact (fsDeleteWatched_records name).bind fun _ => .pure _
  | exist name => exact (fsExistsWatched_records name).bind fun _ => .pure _
  | «open» name => exact (fsOpenWatched_records name).bind fun _ => .pure _
  | close fd => exact (Records.quiet _).bind fun _ => .pure _
  | read fd buffer size => exact (fsReadWatched_records fd buffer size).bind fun _ => .pure _
  | write fd buffer => exact (fsWriteWatched_records fd buffer).bind fun _ => .pure _
  | list buffer size => exact (fsListWatched_records buffer size).bind fun _ => .pure _

end SpectreOS
