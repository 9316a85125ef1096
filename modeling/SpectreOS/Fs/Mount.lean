/-
Formatting and mounting (fs.c), for the current code and for the frozen pre-encryption copy
(tests/fs_harness/legacy/fs.c). The two files differ in one thing: where the current code calls
`fs_disk_read_sector`, `fs_disk_write_sector` and `fs_setup_disk_device`, the legacy code calls
`ata_read_sector`, `ata_write_sector` and nothing. That difference is the `Platform`.
-/
import SpectreOS.Fs.File
import SpectreOS.Disk.Blockdev

namespace SpectreOS

open BlockIO Prog

/-- What fs.c calls below itself: the device of its sector requests, the drive itself (for the
superblock), `ata_present`, `ata_sector_count` and the device set-up. -/
structure Platform (δ : Type) where
  disk : Device δ Sector
  raw : Device δ Sector
  present : δ → Bool
  sectorCount : δ → Nat
  setup : Bool → (Nat → Byte) → Superblock → δ → Bool × Superblock × δ

/-! ## Device set-up -/

/-- The big-endian word at byte `4 * w` of the random material. -/
def materialWord (material : Nat → Byte) (w : Nat) : Nat :=
  (material (w * 4)).toNat * 2 ^ 24 + (material (w * 4 + 1)).toNat * 2 ^ 16 +
    (material (w * 4 + 2)).toNat * 2 ^ 8 + (material (w * 4 + 3)).toNat

/-- Byte `k` of a reserved word, most significant first. -/
def reservedByte (w k : Nat) : Byte := BitVec.ofNat 8 (w / 256 ^ (3 - k))

/-- The reserved words of a freshly formatted disk: the magic, then seed and nonce. -/
def sealedReserved (material : Nat → Byte) (old : Fin 8 → Nat) : Fin 8 → Nat
  | ⟨0, _⟩ => fsEncryptionMagic
  | ⟨w + 1, h⟩ => if w < 6 then materialWord material w else old ⟨w + 1, h⟩

def superblockSeed (b : Superblock) : List Byte :=
  (List.finRange 16).map fun k => reservedByte (b.reserved ⟨1 + k.val / 4, by have := k.isLt; omega⟩) (k.val % 4)

def superblockNonce (b : Superblock) : Block 8 :=
  fun k => reservedByte (b.reserved ⟨5 + k.val / 4, by have := k.isLt; omega⟩) (k.val % 4)

/-- The bytes of "SPECTREOS-FSKEY". -/
def fskeyLabel : List Byte :=
  [0x53, 0x50, 0x45, 0x43, 0x54, 0x52, 0x45, 0x4F, 0x53, 0x2D, 0x46, 0x53, 0x4B, 0x45, 0x59]

def superblockKey (cp : Primitives) (b : Superblock) : Block 32 := cp.sha256 (fskeyLabel ++ superblockSeed b)

/-- `fs_setup_disk_device`: whether it succeeded, the superblock and the machine. `material` is
what `rng_get_bytes` delivers when it is asked. -/
def fsSetupDiskDevice (cp : Primitives) (formatting : Bool) (material : Nat → Byte) (b : Superblock)
    (m : Machine) : Bool × Superblock × Machine :=
  match blockdevFindByName m ['a', 't', 'a', '0'] with
  | none => (false, b, m)
  | some ataId =>
    let b := if formatting then { b with reserved := sealedReserved material b.reserved } else b
    if b.reserved 0 ≠ fsEncryptionMagic then
      (true, b, { m with fsDiskDeviceId := ataId, fsEncrypted := false })
    else
      match cryptoDiskCreateWithNonce m ['f', 's', 'e', 'n', 'c', '0'] ataId (superblockKey cp b)
          (superblockNonce b) with
      | (none, m) => (false, b, m)
      | (some cryptoId, m) => (true, b, { m with fsDiskDeviceId := cryptoId, fsEncrypted := true })

/-- The current fs.c. -/
def current (cp : Primitives) : Platform Machine where
  disk := fsDisk cp
  raw := rawDisk
  present m := m.ata.diskReady
  sectorCount m := m.ata.diskSectors
  setup := fsSetupDiskDevice cp

/-- The legacy fs.c. -/
def legacy : Platform Ata where
  disk := ata
  raw := ata
  present a := a.diskReady
  sectorCount a := a.diskSectors
  setup _ _ b a := (true, b, a)

/-! ## Format -/

/-- The superblock `fs_format` writes, before its reserved words are set. -/
def freshSuperblock (sectors : Nat) : Superblock where
  magic := fsMagic
  version := fsVersion
  sectorSize := 512
  totalSectors := sectors
  bitmapStart := fsBitmapStart
  bitmapSectors := fsBitmapSectors
  inodeStart := fsInodeStart
  inodeSectors := fsInodeSectors
  dataStart := fsDataStart
  maxFiles := fsMaxFiles
  rootInode := 0
  reserved _ := 0

/-- Zeroed tables with the metadata sectors reserved and the root inode in use. -/
def resetTables (m : FsMem) : FsMem :=
  setInode
    ((List.range fsDataStart).foldl bitmapSet
      { m with bitmap := fun k => if k < fsBitmapSectors * 512 then 0 else m.bitmap k, inodes := fun _ => .zero })
    0 .fresh

/-- The part of `fs_format` that goes through the filesystem's device. -/
@[irreducible] def formatTables : FsM Bool := do
  modify resetTables
  let allocated ← (List.finRange 32).allM fun i => do
    match ← allocateSector with
    | none => pure false
    | some sector =>
      modify (assignBlock · 0 i sector)
      pure true
  if !allocated then pure false
  else if !(← saveInode 0) then pure false
  else if !(← (List.range' 1 (fsMaxFiles - 1)).allM saveInode) then pure false
  else saveBitmap

/-- The two tables `fs_init` loads. -/
def loadTables : FsM Bool := do if !(← loadBitmap) then pure false else loadInodes

/-- All handles closed and the filesystem ready: the end of `fs_format` and `fs_init`. -/
def mounted (m : FsMem) : FsMem :=
  { m with handles := fun i => if i < fsMaxHandles then .closed else m.handles i, filesystemReady := true }

section

variable {δ : Type} (P : Platform δ) (material : Nat → Byte)

def fsFormat (c : Conf FsMem δ) : Bool × Conf FsMem δ :=
  if !P.present c.dev then (false, c)
  else if P.sectorCount c.dev ≤ fsDataStart + fsDirectBlocks then (false, c)
  else
    let sectors := min (P.sectorCount c.dev) (fsBitmapSectors * 4096)
    match P.setup true material (freshSuperblock sectors) c.dev with
    | (false, b, d) => (false, ⟨{ c.mem with superblock := b }, d⟩)
    | (true, b, d) =>
      match formatTables.run P.disk ⟨{ c.mem with superblock := b }, d⟩ with
      | (false, c) => (false, c)
      | (true, c) =>
        match saveSuperblock.run P.raw c with
        | (false, c) => (false, c)
        | (true, c) => (true, { c with mem := mounted c.mem })

/-! ## Mount -/

def fsInit (c : Conf FsMem δ) : Bool × Conf FsMem δ :=
  let c := { c with mem := { c.mem with filesystemReady := false } }
  if !P.present c.dev then (false, c)
  else
    match loadSuperblock.run P.raw c with
    | (false, c) => fsFormat P material c
    | (true, c) =>
      match P.setup false material c.mem.superblock c.dev with
      | (false, b, d) => (false, ⟨{ c.mem with superblock := b }, d⟩)
      | (true, b, d) =>
        match loadTables.run P.disk ⟨{ c.mem with superblock := b }, d⟩ with
        | (false, c) => (false, c)
        | (true, c) => (true, { c with mem := mounted c.mem })

end

end SpectreOS
