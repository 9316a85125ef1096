/-
The file operations of fs.c: existence, creation, deletion, handles, reading, writing and listing,
and runs of such calls on a device.
-/
import SpectreOS.Fs.Store

namespace SpectreOS

open BlockIO Prog

def fsExists (name : CStr) : FsM Int := do
  let m ← load
  if !m.filesystemReady || !validName name then pure 0
  else
    let inode ← findDirEntry name
    pure (if inode ≥ 0 then 1 else 0)

/-! ## Create -/

/-- The inode `fs_create` would take: the first free one from 1 on. -/
def firstFreeInode (m : FsMem) : Option Nat :=
  (List.range' 1 (fsMaxFiles - 1)).find? fun i => (m.inode i).mode == fsModeFree

/-- A directory entry for a new file. -/
def newEntry (name : CStr) (inode : Nat) : Dirent := ⟨fun i => name.val.getD i 0, inode, 1⟩

/-- A zeroed inode in use. -/
def Inode.fresh : Inode := { Inode.zero with mode := fsModeFile }

def fsCreate (name : CStr) : FsM Int := do
  let m ← load
  if !m.filesystemReady || !validName name then pure 0
  else if (← findDirEntry name) ≥ 0 then pure 0
  else
    match ← findFreeDirSlot with
    | none => pure 0
    | some slot =>
      let m ← load
      match firstFreeInode m with
      | none => pure 0
      | some index =>
        modify fun m => setInode m index .fresh
        if !(← saveInode index) then pure 0
        else if !(← dirWriteEntry slot (newEntry name index)) then
          modify fun m => setInode m index { m.inode index with mode := fsModeFree }
          let _ ← saveInode index
          pure 0
        else pure 1

/-! ## Delete -/

/-- Free the sectors of an inode and clear it, keeping its reserved words. -/
@[irreducible] def releaseInode (m : FsMem) (index : Nat) : FsMem :=
  let n := m.inode index
  let freed := (List.finRange 32).foldl (fun m i => if n.direct i ≠ 0 then freeSector m (n.direct i) else m) m
  setInode freed index { n with mode := fsModeFree, size := 0, blocks := 0, direct := fun _ => 0 }

def fsDelete (name : CStr) : FsM Int := do
  let m ← load
  if !m.filesystemReady || !validName name then pure 0
  else
    let inode ← findDirEntry name
    if inode ≤ 0 then pure 0
    else
      let index := inode.toNat
      modify (releaseInode · index)
      if !(← saveBitmap) then pure 0
      else if !(← saveInode index) then pure 0
      else
        let _ ← (List.range dirSlots).findSomeM? fun slot => do
          match ← dirReadEntry slot with
          | none => pure none
          | some entry =>
            if entry.used ≠ 0 ∧ entry.inode = index then
              let _ ← dirWriteEntry slot .zero
              pure (some ())
            else pure none
        pure 1

/-! ## Handles -/

def setHandle (m : FsMem) (fd : Nat) (h : Handle) : FsMem :=
  { m with handles := Function.update m.handles fd h }

def fsOpen (name : CStr) : FsM Int := do
  let m ← load
  if !m.filesystemReady || !validName name then pure (-1)
  else
    let inode ← findDirEntry name
    if inode < 0 then pure (-1)
    else
      let m ← load
      match (List.range fsMaxHandles).find? fun i => decide ((m.handles i).inode < 0) with
      | none => pure (-1)
      | some fd =>
        modify fun m => setHandle m fd ⟨inode, 0⟩
        pure fd

def fsClose (fd : Int) : FsM Int :=
  if fd < 0 ∨ fd ≥ fsMaxHandles then pure 0
  else do
    modify fun m => setHandle m fd.toNat .closed
    pure 1

/-- The checks `fs_read` and `fs_write` begin with; `buffer` is whether the pointer is not null. -/
def handleUsable (m : FsMem) (fd : Int) (buffer : Bool) : Bool :=
  m.filesystemReady && buffer && decide (0 ≤ fd) && decide (fd < fsMaxHandles) &&
    decide (0 ≤ (m.handles fd.toNat).inode)

/-! ## Read -/

/-- The loop of `fs_read` after `done` bytes: the bytes read and their number. -/
def fsReadLoop (index position size done : Nat) (output : List Byte) : FsM (Nat × List Byte) :=
  if _h : done < size then
    if hb : (position + done) / 512 < 32 then do
      let m ← load
      let lba := (m.inode index).direct ⟨(position + done) / 512, hb⟩
      if lba = 0 then pure (done, output)
      else
        match ← readBlock lba with
        | none => pure (done, output)
        | some sectorBuffer =>
          let chunk := min (512 - (position + done) % 512) (size - done)
          fsReadLoop index position size (done + chunk)
            (output ++ (List.range chunk).map (sectorBuffer.slice ((position + done) % 512)))
    else pure (done, output)
  else pure (done, output)
termination_by size - done
decreasing_by have := Nat.mod_lt (position + done) (show 0 < 512 by omega); omega

def fsRead (fd : Int) (buffer : Bool) (size : Nat) : FsM (Int × List Byte) := do
  let m ← load
  if !handleUsable m fd buffer then pure (-1, [])
  else
    let index := (m.handles fd.toNat).inode.toNat
    let position := (m.handles fd.toNat).position
    if position ≥ (m.inode index).size then pure (0, [])
    else
      let (done, output) ← fsReadLoop index position (min size ((m.inode index).size - position)) 0 []
      modify fun m => setHandle m fd.toNat { m.handles fd.toNat with position := position + done }
      pure (done, output)

/-! ## Write -/

/-- Give block `block` of an inode the sector `sector`. -/
def assignBlock (m : FsMem) (index : Nat) (block : Fin 32) (sector : Nat) : FsMem :=
  setInode m index { m.inode index with
    direct := Function.update (m.inode index).direct block sector
    blocks := ((m.inode index).blocks + 1) % 2 ^ 32 }

/-- The sector of block `block` of an inode, allocated if it has none. -/
def ensureBlock (index : Nat) (block : Fin 32) : FsM (Option Nat) := do
  let m ← load
  if (m.inode index).direct block = 0 then
    match ← allocateSector with
    | none => pure none
    | some sector =>
      modify (assignBlock · index block sector)
      pure (some sector)
  else pure (some ((m.inode index).direct block))

/-- The loop of `fs_write` after `done` bytes: the number of bytes written. -/
def fsWriteLoop (index position size : Nat) (input : Nat → Byte) (done : Nat) : FsM Nat :=
  if _h : done < size then
    if hb : (position + done) / 512 < 32 then do
      match ← ensureBlock index ⟨(position + done) / 512, hb⟩ with
      | none => pure done
      | some lba =>
        match ← readBlock lba with
        | none => pure done
        | some sectorBuffer =>
          let chunk := min (512 - (position + done) % 512) (size - done)
          let ok ← writeBlock lba
            (sectorBuffer.patch ((position + done) % 512) chunk fun k => input (done + k))
          if ok then fsWriteLoop index position size input (done + chunk) else pure done
    else pure done
  else pure done
termination_by size - done
decreasing_by have := Nat.mod_lt (position + done) (show 0 < 512 by omega); omega

/-- The position after a write, and the size it may have grown the file to. -/
def finishWrite (m : FsMem) (fd index position : Nat) : FsMem :=
  let m := setHandle m fd { m.handles fd with position := position }
  if position > (m.inode index).size then setInode m index { m.inode index with size := position } else m

def fsWrite (fd : Int) (buffer : Option (List Byte)) : FsM Int := do
  let m ← load
  if !handleUsable m fd buffer.isSome then pure (-1)
  else
    let index := (m.handles fd.toNat).inode.toNat
    let position := (m.handles fd.toNat).position
    let input := buffer.getD []
    if position ≥ fsMaxFileSize then pure 0
    else
      let done ← fsWriteLoop index position (min input.length (fsMaxFileSize - position)) (input.getD · 0) 0
      modify (finishWrite · fd.toNat index (position + done))
      let _ ← saveInode index
      let _ ← saveBitmap
      pure done

/-! ## List -/

/-- `str_len` of an entry's name; a name without a NUL counts as 48. -/
def Dirent.nameLength (e : Dirent) : Nat := ((List.range 48).find? fun k => e.chars k == 0).getD 48

/-- The loop of `fs_list`: the text so far, until an entry does not fit. -/
def fsListLoop (size : Nat) : List Nat → List Byte → FsM (List Byte)
  | [], written => pure written
  | slot :: slots, written => do
    match ← dirReadEntry slot with
    | none => fsListLoop size slots written
    | some entry =>
      if entry.used = 0 then fsListLoop size slots written
      else if written.length + entry.nameLength + 1 ≥ size then pure written
      else fsListLoop size slots (written ++ (List.range entry.nameLength).map entry.chars ++ [0x0A#8])

/-- The number returned and the bytes written to the buffer: the text and its NUL. -/
def fsList (buffer : Bool) (size : Nat) : FsM (Int × List Byte) := do
  let m ← load
  if !m.filesystemReady || !buffer || size == 0 then pure (-1, [])
  else
    let written ← fsListLoop size (List.range dirSlots) []
    pure (written.length,
      if written.length < size then written ++ [0] else written.take (size - 1) ++ [0])

/-! ## Runs of calls -/

/-- A call of a file operation. A null buffer is `false` (or `none`). -/
inductive Call where
  | create (name : CStr)
  | delete (name : CStr)
  | exist (name : CStr)
  | open (name : CStr)
  | close (fd : Int)
  | read (fd : Int) (buffer : Bool) (size : Nat)
  | write (fd : Int) (buffer : Option (List Byte))
  | list (buffer : Bool) (size : Nat)

/-- What a call returns, and the bytes it puts into the caller's buffer. -/
@[ext]
structure Ret where
  val : Int
  bytes : List Byte
  deriving DecidableEq

def Call.prog : Call → FsM Ret
  | create name => do return ⟨← fsCreate name, []⟩
  | delete name => do return ⟨← fsDelete name, []⟩
  | exist name => do return ⟨← fsExists name, []⟩
  | .open name => do return ⟨← fsOpen name, []⟩
  | close fd => do return ⟨← fsClose fd, []⟩
  | read fd buffer size => do let (n, out) ← fsRead fd buffer size; return ⟨n, out⟩
  | write fd buffer => do return ⟨← fsWrite fd buffer, []⟩
  | list buffer size => do let (n, out) ← fsList buffer size; return ⟨n, out⟩

variable {δ : Type}

/-- The state after a sequence of calls, and what each of them returned. -/
def runCalls (D : Device δ Sector) : List Call → Conf FsMem δ → List Ret × Conf FsMem δ
  | [], c => ([], c)
  | call :: calls, c =>
    let r := call.prog.run D c
    let rs := runCalls D calls r.2
    (r.1 :: rs.1, rs.2)

/-- A run of calls on a device is a run on one that answers alike. -/
theorem runCalls_hom {ε : Type} {D : Device δ Sector} {E : Device ε Sector} {P : δ → Prop} {v : δ → ε}
    (h : Hom D E P v) (calls : List Call) (c : Conf FsMem δ) (hc : P c.dev) :
    (runCalls D calls c).1 = (runCalls E calls ⟨c.mem, v c.dev⟩).1 ∧
      (runCalls D calls c).2.mem = (runCalls E calls ⟨c.mem, v c.dev⟩).2.mem ∧
      v (runCalls D calls c).2.dev = (runCalls E calls ⟨c.mem, v c.dev⟩).2.dev ∧ P (runCalls D calls c).2.dev := by
  induction calls generalizing c with
  | nil => exact ⟨rfl, rfl, rfl, hc⟩
  | cons call calls ih =>
    obtain ⟨h1, h2, h3, h4⟩ := run_hom h call.prog c hc
    obtain ⟨i1, i2, i3, i4⟩ := ih (call.prog.run D c).2 h4
    have he : (⟨(call.prog.run D c).2.mem, v (call.prog.run D c).2.dev⟩ : Conf FsMem ε) =
        (call.prog.run E ⟨c.mem, v c.dev⟩).2 := Conf.ext h2 h3
    rw [he] at i1 i2 i3
    simp only [runCalls]
    exact ⟨by rw [h1, i1], i2, i3, i4⟩

end SpectreOS
