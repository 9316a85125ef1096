/-
The on-disk layout of the filesystem (fs.h) and the byte images of its structures as the x86
compiler lays them out: 32-bit little-endian fields without padding. The superblock is 76 bytes
in sector 0, an inode 172 bytes in a 256-byte slot, a directory entry 56 bytes, nine to a sector.
A field is a natural number below `2 ^ 32`; storing it keeps its low 32 bits.
-/
import SpectreOS.Disk.Ata

namespace SpectreOS

open BlockIO

abbrev fsMagic : Nat := 0x53504653
abbrev fsVersion : Nat := 2
abbrev fsMaxFiles : Nat := 128
abbrev fsMaxFilename : Nat := 48
abbrev fsDirectBlocks : Nat := 32
abbrev fsMaxFileSize : Nat := 16384
abbrev fsInodeSize : Nat := 256
abbrev fsMaxHandles : Nat := 16
abbrev fsSuperblockSector : Nat := 0
abbrev fsBitmapStart : Nat := 1
abbrev fsBitmapSectors : Nat := 32
abbrev fsInodeStart : Nat := 33
abbrev fsInodeSectors : Nat := 64
abbrev fsDataStart : Nat := 97
abbrev fsModeFree : Nat := 0
abbrev fsModeFile : Nat := 1
abbrev fsEncryptionMagic : Nat := 0x53454E43

/-! ## Structures -/

@[ext]
structure Superblock where
  magic : Nat
  version : Nat
  sectorSize : Nat
  totalSectors : Nat
  bitmapStart : Nat
  bitmapSectors : Nat
  inodeStart : Nat
  inodeSectors : Nat
  dataStart : Nat
  maxFiles : Nat
  rootInode : Nat
  reserved : Fin 8 → Nat

@[ext]
structure Inode where
  mode : Nat
  size : Nat
  blocks : Nat
  direct : Fin 32 → Nat
  reserved : Fin 8 → Nat

@[ext]
structure Dirent where
  name : Fin 48 → Byte
  inode : Nat
  used : Nat

/-- A handle: the inode it is open on (`-1` when closed) and its position. -/
@[ext]
structure Handle where
  inode : Int
  position : Nat

/-- A zeroed inode. -/
def Inode.zero : Inode := ⟨0, 0, 0, fun _ => 0, fun _ => 0⟩

def Dirent.zero : Dirent := ⟨fun _ => 0, 0, 0⟩

def Superblock.zero : Superblock := ⟨0, 0, 0, 0, 0, 0, 0, 0, 0, 0, 0, fun _ => 0⟩

def Handle.closed : Handle := ⟨-1, 0⟩

/-! ## Byte images -/

/-- The fields of a superblock in order. -/
def Superblock.word (b : Superblock) : Nat → Nat
  | 0 => b.magic
  | 1 => b.version
  | 2 => b.sectorSize
  | 3 => b.totalSectors
  | 4 => b.bitmapStart
  | 5 => b.bitmapSectors
  | 6 => b.inodeStart
  | 7 => b.inodeSectors
  | 8 => b.dataStart
  | 9 => b.maxFiles
  | 10 => b.rootInode
  | k + 11 => if h : k < 8 then b.reserved ⟨k, h⟩ else 0

def Superblock.image (b : Superblock) : Nat → Byte := wordsImage b.word

def Superblock.ofImage (b : Nat → Byte) : Superblock where
  magic := wordAt b 0
  version := wordAt b 1
  sectorSize := wordAt b 2
  totalSectors := wordAt b 3
  bitmapStart := wordAt b 4
  bitmapSectors := wordAt b 5
  inodeStart := wordAt b 6
  inodeSectors := wordAt b 7
  dataStart := wordAt b 8
  maxFiles := wordAt b 9
  rootInode := wordAt b 10
  reserved i := wordAt b (i + 11)

/-- The fields of an inode in order. -/
def Inode.word (n : Inode) : Nat → Nat
  | 0 => n.mode
  | 1 => n.size
  | 2 => n.blocks
  | k + 3 => if h : k < 32 then n.direct ⟨k, h⟩ else if h : k - 32 < 8 then n.reserved ⟨k - 32, h⟩ else 0

def Inode.image (n : Inode) : Nat → Byte := wordsImage n.word

def Inode.ofImage (b : Nat → Byte) : Inode where
  mode := wordAt b 0
  size := wordAt b 1
  blocks := wordAt b 2
  direct i := wordAt b (i + 3)
  reserved i := wordAt b (i + 35)

/-- A directory entry: the name's bytes, then the inode index and the used flag. -/
def Dirent.image (e : Dirent) (k : Nat) : Byte :=
  if h : k < 48 then e.name ⟨k, h⟩
  else if k < 52 then wordByte e.inode (k - 48)
  else wordByte e.used (k - 52)

def Dirent.ofImage (b : Nat → Byte) : Dirent where
  name i := b i
  inode := wordAt b 12
  used := wordAt b 13

/-! ## Round trips -/

/-- Every field of an inode fits a 32-bit word. -/
def Inode.Fits (n : Inode) : Prop := ∀ k, n.word k < 2 ^ 32

def Superblock.Fits (b : Superblock) : Prop := ∀ k, b.word k < 2 ^ 32

theorem Inode.word_direct (n : Inode) (i : Fin 32) : n.word (i + 3) = n.direct i := by
  simp [Inode.word, i.isLt]

theorem Inode.word_reserved (n : Inode) (i : Fin 8) : n.word (i + 35) = n.reserved i := by
  have h : n.word (i + 35) = n.word (i + 32 + 3) := rfl
  rw [h]
  simp [Inode.word, i.isLt]

theorem Inode.ofImage_congr {b b' : Nat → Byte} (h : ∀ k < 172, b k = b' k) : ofImage b = ofImage b' := by
  have hw : ∀ j < 43, wordAt b j = wordAt b' j := fun j hj => wordAt_congr fun k _ h2 => h k (by omega)
  ext i
  · exact hw 0 (by omega)
  · exact hw 1 (by omega)
  · exact hw 2 (by omega)
  · exact hw (i + 3) (by omega)
  · exact hw (i + 35) (by omega)

/-- An inode that fits its words reads back as it was stored. -/
theorem Inode.ofImage_image {n : Inode} (h : n.Fits) : ofImage n.image = n := by
  ext i
  · exact wordAt_image n.word 0 (h 0)
  · exact wordAt_image n.word 1 (h 1)
  · exact wordAt_image n.word 2 (h 2)
  · exact (wordAt_image n.word (i + 3) (h _)).trans (n.word_direct i)
  · exact (wordAt_image n.word (i + 35) (h _)).trans (n.word_reserved i)

theorem Superblock.ofImage_congr {b b' : Nat → Byte} (h : ∀ k < 76, b k = b' k) : ofImage b = ofImage b' := by
  have hw : ∀ j < 19, wordAt b j = wordAt b' j := fun j hj => wordAt_congr fun k _ h2 => h k (by omega)
  simp only [ofImage, Superblock.mk.injEq]
  refine ⟨hw 0 (by omega), hw 1 (by omega), hw 2 (by omega), hw 3 (by omega), hw 4 (by omega), hw 5 (by omega),
    hw 6 (by omega), hw 7 (by omega), hw 8 (by omega), hw 9 (by omega), hw 10 (by omega), ?_⟩
  funext i; exact hw (i + 11) (by omega)

theorem Superblock.ofImage_image {b : Superblock} (h : b.Fits) : ofImage b.image = b := by
  have hw : ∀ j, wordAt b.image j = b.word j := fun j => wordAt_image b.word j (h j)
  have hr : ∀ i : Fin 8, b.word (i + 11) = b.reserved i := fun i => by simp [Superblock.word, i.isLt]
  ext i
  · exact hw 0
  · exact hw 1
  · exact hw 2
  · exact hw 3
  · exact hw 4
  · exact hw 5
  · exact hw 6
  · exact hw 7
  · exact hw 8
  · exact hw 9
  · exact hw 10
  · exact (hw (i + 11)).trans (hr i)

theorem Dirent.ofImage_congr {b b' : Nat → Byte} (h : ∀ k < 56, b k = b' k) : ofImage b = ofImage b' := by
  refine Dirent.ext (funext fun i => h i (by omega)) ?_ ?_
  · exact wordAt_congr fun k _ h2 => h k (by omega)
  · exact wordAt_congr fun k _ h2 => h k (by omega)

theorem Dirent.ofImage_image {e : Dirent} (hi : e.inode < 2 ^ 32) (hu : e.used < 2 ^ 32) :
    ofImage e.image = e := by
  have h12 : wordAt e.image 12 = wordAt (wordsImage fun _ => e.inode) 12 := wordAt_congr fun k h1 h2 => by
    rw [image, dif_neg (by omega), if_pos (by omega), wordsImage, show k - 48 = k % 4 by omega]
  have h13 : wordAt e.image 13 = wordAt (wordsImage fun _ => e.used) 13 := wordAt_congr fun k h1 h2 => by
    rw [image, dif_neg (by omega), if_neg (by omega), wordsImage, show k - 52 = k % 4 by omega]
  have hn : (ofImage e.image).name = e.name := by
    funext i; show e.image i = e.name i
    rw [image, dif_pos i.isLt]
  exact Dirent.ext hn (h12.trans (wordAt_image _ 12 hi)) (h13.trans (wordAt_image _ 13 hu))

end SpectreOS
