/-
The physical memory manager (pmm.c): a bitmap with one bit for each frame of 4 KiB below 128 MiB, a
counter beside it, and the Multiboot memory map that `pmm_init` walks. Addresses are 32 bits wide and
their sums wrap; the bytes of memory are a function of the address.
-/
import SpectreOS.Lib.Bytes

namespace SpectreOS

open BlockIO

abbrev pmmFrameSize : Nat := 4096

abbrev pmmMaxMemory : Nat := 128 * 1024 * 1024

abbrev pmmMaxFrames : Nat := pmmMaxMemory / pmmFrameSize

/-- A sum or difference as a `uint32_t`. -/
abbrev wrap32 (n : Nat) : Nat := n % 2 ^ 32

/-- The static data of pmm.c. -/
structure Pmm where
  frameBitmap : Nat → BitVec 32
  totalFrames : Nat
  usedFrames : Nat

/-! ## Frames -/

def frameSet (p : Pmm) (frame : Nat) : Pmm :=
  { p with frameBitmap :=
      Function.update p.frameBitmap (frame / 32) (p.frameBitmap (frame / 32) ||| (1#32 <<< (frame % 32))) }

def frameClear (p : Pmm) (frame : Nat) : Pmm :=
  { p with frameBitmap :=
      Function.update p.frameBitmap (frame / 32) (p.frameBitmap (frame / 32) &&& ~~~(1#32 <<< (frame % 32))) }

def frameTest (p : Pmm) (frame : Nat) : Bool := (p.frameBitmap (frame / 32) &&& (1#32 <<< (frame % 32))) != 0

/-- The body of the loop of `reserve_range`. -/
def reserveFrame (p : Pmm) (frame : Nat) : Pmm :=
  if frameTest p frame then p
  else
    let p := frameSet p frame
    { p with usedFrames := wrap32 (p.usedFrames + 1) }

/-- The body of the loop of `release_range`, and the end of `pmm_free_frame`. -/
def releaseFrame (p : Pmm) (frame : Nat) : Pmm :=
  if frameTest p frame then
    let p := frameClear p frame
    if p.usedFrames > 0 then { p with usedFrames := p.usedFrames - 1 } else p
  else p

/-! ## Ranges -/

/-- `end` of a range, with the sum cut at the end of the memory when it wraps or passes it. -/
def rangeEnd (start length : Nat) : Nat :=
  let stop := wrap32 (start + length)
  let stop := if stop < start then pmmMaxMemory else stop
  if stop > pmmMaxMemory then pmmMaxMemory else stop

/-- The frames from `first` to before `last`, in the order of the loops. -/
def framesOf (first last : Nat) : List Nat :=
  let last := if last > pmmMaxFrames then pmmMaxFrames else last
  List.range' first (last - first)

def reserveRange (p : Pmm) (start length : Nat) : Pmm :=
  if length = 0 then p
  else if start ≥ pmmMaxMemory then p
  else
    (framesOf (start / pmmFrameSize) (wrap32 (rangeEnd start length + pmmFrameSize - 1) / pmmFrameSize)).foldl
      reserveFrame p

def releaseRange (p : Pmm) (start length : Nat) : Pmm :=
  if length = 0 then p
  else if start ≥ pmmMaxMemory then p
  else
    (framesOf (wrap32 (start + pmmFrameSize - 1) / pmmFrameSize) (rangeEnd start length / pmmFrameSize)).foldl
      releaseFrame p

/-! ## The memory map -/

/-- A `uint32_t` in memory. -/
def load32 (mem : Nat → Byte) (address : Nat) : Nat := wordAt (fun k => mem (wrap32 (address + k))) 0

/-- A `multiboot_mmap_entry_t`. -/
structure MmapEntry where
  size : Nat
  addrLow : Nat
  addrHigh : Nat
  lengthLow : Nat
  lengthHigh : Nat
  type : Nat
  deriving DecidableEq

def loadEntry (mem : Nat → Byte) (current : Nat) : MmapEntry where
  size := load32 mem current
  addrLow := load32 mem (current + 4)
  addrHigh := load32 mem (current + 8)
  lengthLow := load32 mem (current + 12)
  lengthHigh := load32 mem (current + 16)
  type := load32 mem (current + 20)

/-- What the loop over the map does with an entry. -/
def releaseEntry (p : Pmm) (entry : MmapEntry) : Pmm :=
  if entry.type = 1 then
    if entry.addrHigh = 0 then releaseRange p entry.addrLow entry.lengthLow else p
  else p

/-- The loop over the map; `none` when it has not come to an end in the given number of rounds. -/
def releaseMap (mem : Nat → Byte) (stop : Nat) : Nat → Nat → Pmm → Option Pmm
  | 0, _, _ => none
  | fuel + 1, current, p =>
    if current < stop then
      let entry := loadEntry mem current
      releaseMap mem stop fuel (wrap32 (current + (entry.size + 4))) (releaseEntry p entry)
    else some p

/-- The fields of `multiboot_info_t` that are read. -/
structure MultibootInfo where
  flags : Nat
  mmapLength : Nat
  mmapAddr : Nat

def loadInfo (mem : Nat → Byte) (multibootInfo : Nat) : MultibootInfo where
  flags := load32 mem multibootInfo
  mmapLength := load32 mem (multibootInfo + 44)
  mmapAddr := load32 mem (multibootInfo + 48)

section Init

variable (kernelStart kernelEnd : Nat) (mem : Nat → Byte)

/-- `pmm_init`, with at most `fuel` rounds of the loop over the map. -/
def pmmInit (fuel : Nat) (p : Pmm) (multibootInfo : Nat) : Option Pmm :=
  let p : Pmm :=
    { frameBitmap := fun i => if i < pmmMaxFrames / 32 then 0xFFFFFFFF else p.frameBitmap i
      totalFrames := pmmMaxFrames
      usedFrames := pmmMaxFrames }
  let info := loadInfo mem multibootInfo
  if info.flags.testBit 6 then do
    let p ← releaseMap mem (wrap32 (info.mmapAddr + info.mmapLength)) fuel info.mmapAddr p
    let p := reserveRange p 0 (1024 * 1024)
    return reserveRange p kernelStart (wrap32 (kernelEnd + (2 ^ 32 - kernelStart)))
  else some p

end Init

/-! ## Allocation -/

/-- `pmm_alloc_frame`: the state after it and the address. -/
def pmmAllocFrame (p : Pmm) : Pmm × Nat :=
  match (List.range p.totalFrames).find? fun frame => !frameTest p frame with
  | some frame =>
    let p := frameSet p frame
    ({ p with usedFrames := wrap32 (p.usedFrames + 1) }, wrap32 (frame * pmmFrameSize))
  | none => (p, 0xFFFFFFFF)

def pmmFreeFrame (p : Pmm) (address : BitVec 32) : Pmm :=
  if address.toNat = 0xFFFFFFFF then p
  else if address.toNat % pmmFrameSize ≠ 0 then p
  else
    let frame := address.toNat / pmmFrameSize
    if frame ≥ p.totalFrames then p
    else if frame < 1024 * 1024 / pmmFrameSize then p
    else releaseFrame p frame

def pmmGetFreeFrames (p : Pmm) : Nat := wrap32 (p.totalFrames + (2 ^ 32 - p.usedFrames))

end SpectreOS
