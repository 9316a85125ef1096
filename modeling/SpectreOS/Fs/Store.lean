/-
The storage half of fs.c: the in-memory tables, the bitmap, and the programs that save and load
them, read and write directory entries, and allocate sectors. Sector requests go through
`fs_disk_read_sector` and `fs_disk_write_sector`, so each function is a program that a device
interprets.

The code checks every index it uses except the inode numbers it takes from directory entries and
handles. An inode number from 128 on, which only a corrupt disk can hold, is memory behind the
table in C; here it reads as a zeroed inode and stores nothing.
-/
import SpectreOS.Fs.Layout
import SpectreOS.Lib.Wp

namespace SpectreOS

open BlockIO Prog

/-- The static variables of fs.c. -/
structure FsMem where
  superblock : Superblock
  bitmap : Nat → Byte
  inodes : Fin 128 → Inode
  handles : Nat → Handle
  filesystemReady : Bool

/-- The static variables at boot. -/
def FsMem.boot : FsMem := ⟨.zero, fun _ => 0, fun _ => .zero, fun _ => ⟨0, 0⟩, false⟩

abbrev FsM := Prog FsMem Sector

/-- `inodes[index]`. -/
def FsMem.inode (m : FsMem) (index : Nat) : Inode := if h : index < 128 then m.inodes ⟨index, h⟩ else .zero

def setInode (m : FsMem) (index : Nat) (n : Inode) : FsMem :=
  { m with inodes := fun i => if i.val = index then n else m.inodes i }

/-! ## Names -/

/-- A C string: the bytes before the NUL. A null pointer counts as the empty string everywhere it
is passed to fs.c. -/
abbrev CStr := { s : List Byte // 0#8 ∉ s }

def strLen (str : CStr) : Nat := str.val.length

/-- `str_equal` of a byte array with a C string. -/
def strEqual (a : Nat → Byte) : List Byte → Bool
  | [] => a 0 == 0
  | b :: bs => if a 0 == 0 then a 0 == b else if a 0 != b then false else strEqual (fun k => a (k + 1)) bs

def validName (name : CStr) : Bool :=
  if strLen name == 0 || strLen name ≥ fsMaxFilename then false
  else name.val.all fun c => !(c == 0x2F#8 || c == 0x5C#8 || c == 0x0A#8 || c == 0x0D#8)

/-- The value of a 32-bit word cast to `int`. -/
def int32 (w : Nat) : Int := if w % 2 ^ 32 < 2 ^ 31 then (w % 2 ^ 32 : Nat) else (w % 2 ^ 32 : Nat) - 2 ^ 32

/-! ## Bitmap -/

def bitmapGet (m : FsMem) (sector : Nat) : Bool :=
  if sector ≥ m.superblock.totalSectors then true
  else m.bitmap (sector / 8) &&& bit (sector % 8) != 0

def bitmapSet (m : FsMem) (sector : Nat) : FsMem :=
  if sector ≥ fsBitmapSectors * 4096 then m
  else { m with bitmap := Function.update m.bitmap (sector / 8) (m.bitmap (sector / 8) ||| bit (sector % 8)) }

def bitmapClear (m : FsMem) (sector : Nat) : FsMem :=
  if sector ≥ fsBitmapSectors * 4096 then m
  else { m with bitmap := Function.update m.bitmap (sector / 8) (m.bitmap (sector / 8) &&& ~~~(bit (sector % 8))) }

/-- The 512 bitmap bytes saved to bitmap sector `i`. -/
def bitmapSector (m : FsMem) (i : Nat) : Sector := fun j => m.bitmap (i * 512 + j)

def saveBitmap : FsM Bool :=
  (List.range fsBitmapSectors).allM fun i => do
    let m ← load
    writeBlock (fsBitmapStart + i) (bitmapSector m i)

/-- The bitmap loop of `fs_init`. -/
def loadBitmap : FsM Bool :=
  (List.range fsBitmapSectors).allM fun i => do
    match ← readBlock (fsBitmapStart + i) with
    | none => pure false
    | some block =>
      modify fun m => { m with
        bitmap := fun k => if i * 512 ≤ k ∧ k < i * 512 + 512 then block.slice 0 (k - i * 512) else m.bitmap k }
      pure true

/-! ## Superblock -/

def saveSuperblock : FsM Bool := do
  let m ← load
  writeBlock fsSuperblockSector (Block.patch (fun _ => 0) 0 76 m.superblock.image)

/-- The checks of `load_superblock`. -/
def Superblock.accepted (b : Superblock) : Bool :=
  if b.magic != fsMagic || b.version != fsVersion || b.sectorSize != 512 then false
  else if b.bitmapStart != fsBitmapStart || b.bitmapSectors != fsBitmapSectors ||
      b.inodeStart != fsInodeStart || b.inodeSectors != fsInodeSectors || b.dataStart != fsDataStart then false
  else if b.totalSectors ≤ fsDataStart then false
  else if b.totalSectors > fsBitmapSectors * 4096 then false
  else if b.maxFiles != fsMaxFiles then false
  else true

def loadSuperblock : FsM Bool := do
  match ← readBlock fsSuperblockSector with
  | none => pure false
  | some block =>
    modify fun m => { m with superblock := .ofImage (block.slice 0) }
    pure (Superblock.ofImage (block.slice 0)).accepted

/-! ## Inode storage -/

def saveInode (index : Nat) : FsM Bool :=
  if index ≥ fsMaxFiles then pure false
  else do
    let offset := index * fsInodeSize
    let sector := fsInodeStart + offset / 512
    let inside := offset % 512
    if inside + fsInodeSize > 512 then pure false
    else
      match ← readBlock sector with
      | none => pure false
      | some block =>
        let m ← load
        writeBlock sector ((block.patch inside fsInodeSize fun _ => 0).patch inside 172 (m.inode index).image)

def loadInodes : FsM Bool :=
  (List.range fsInodeSectors).allM fun k => do
    match ← readBlock (fsInodeStart + k) with
    | none => pure false
    | some block =>
      -- two 256-byte slots per sector
      modify fun m => setInode (setInode m (k * 2) (.ofImage (block.slice 0))) (k * 2 + 1)
        (.ofImage (block.slice fsInodeSize))
      pure true

/-! ## Directory -/

/-- Entries per sector: `512 / sizeof(fs_dirent_t)`. -/
abbrev perSector : Nat := 512 / 56

/-- The slots the directory loops run over; those from 288 on lie past the last sector. -/
abbrev dirSlots : Nat := fsDirectBlocks * 512 / 56

def dirReadEntry (slot : Nat) : FsM (Option Dirent) :=
  if h : slot / perSector < 32 then do
    let m ← load
    let lba := (m.inode 0).direct ⟨slot / perSector, h⟩
    if lba = 0 then pure none
    else
      match ← readBlock lba with
      | none => pure none
      | some block => pure (some (.ofImage (block.slice (slot % perSector * 56))))
  else pure none

def dirWriteEntry (slot : Nat) (entry : Dirent) : FsM Bool :=
  if h : slot / perSector < 32 then do
    let m ← load
    let lba := (m.inode 0).direct ⟨slot / perSector, h⟩
    if lba = 0 then pure false
    else
      match ← readBlock lba with
      | none => pure false
      | some block => writeBlock lba (block.patch (slot % perSector * 56) 56 entry.image)
  else pure false

/-- The name of an entry as the string functions see it. -/
def Dirent.chars (e : Dirent) : Nat → Byte := fun k => if h : k < 48 then e.name ⟨k, h⟩ else 0

/-- `find_dir_entry`: the inode number of the first readable used entry of that name, as an
`int`, else `-1`. -/
def findDirEntry (name : CStr) : FsM Int := do
  let found ← (List.range dirSlots).findSomeM? fun slot => do
    match ← dirReadEntry slot with
    | none => pure none
    | some entry =>
      pure (if entry.used ≠ 0 ∧ strEqual entry.chars name.val then some (int32 entry.inode) else none)
  pure (found.getD (-1))

def findFreeDirSlot : FsM (Option Nat) :=
  (List.range dirSlots).findSomeM? fun slot => do
    match ← dirReadEntry slot with
    | none => pure none
    | some entry => pure (if entry.used = 0 then some slot else none)

/-! ## Sector allocation -/

/-- The sector `allocate_sector` would take: the first clear one from the data area on. -/
def firstFree (m : FsMem) : Option Nat :=
  (List.range' fsDataStart (m.superblock.totalSectors - fsDataStart)).find? fun sector => !bitmapGet m sector

def allocateSector : FsM (Option Nat) := do
  let m ← load
  match firstFree m with
  | none => pure none
  | some sector =>
    modify (bitmapSet · sector)
    if !(← saveBitmap) then
      modify (bitmapClear · sector)
      pure none
    else if !(← writeBlock sector fun _ => 0) then
      modify (bitmapClear · sector)
      let _ ← saveBitmap
      pure none
    else pure (some sector)

def freeSector (m : FsMem) (sector : Nat) : FsMem :=
  if sector < fsDataStart ∨ sector ≥ m.superblock.totalSectors then m else bitmapClear m sector

end SpectreOS
