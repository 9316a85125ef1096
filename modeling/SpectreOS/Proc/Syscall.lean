/-
System calls: `int 0x80` with the number and three arguments in registers, the pointer and length
checks of syscall.c, strings and buffers in the one address space that callers and kernel share, and
the result in EAX. A program that stores to memory and makes calls sees the files of the abstract
model; and whatever the disk does, a call that stays in the kernel's tables writes to the text screen or
into the buffer it was given.
-/
import SpectreOS.Lib.Ram
import SpectreOS.Fs.Contract
import SpectreOS.Fs.Handles
import SpectreOS.Fs.Tame

namespace SpectreOS

open BlockIO Prog

/-! ## syscall.h and syscall.c -/

@[match_pattern] abbrev sysWrite : Nat := 1
@[match_pattern] abbrev sysHwinfo : Nat := 5
@[match_pattern] abbrev sysReadFile : Nat := 8
@[match_pattern] abbrev sysList : Nat := 13
@[match_pattern] abbrev sysMeminfo : Nat := 14

abbrev syscallMinValidAddress : Nat := 0x1000
abbrev syscallMaxIoSize : Nat := 65536

abbrev videoAddress : Address := 0xB8000

/-- `memory_info_t`. -/
structure MemoryInfo where
  lowerMemoryKb : BitVec 32
  upperMemoryKb : BitVec 32
  totalMemoryKb : BitVec 32
  totalMemoryMb : BitVec 32
  multibootMemoryAvailable : Byte

/-- `cpu_info_t`. -/
structure CpuInfo where
  available : BitVec 32
  family : BitVec 32
  model : BitVec 32
  stepping : BitVec 32
  vendor : Vector Byte 13
  brand : Vector Byte 49

def wordBytes (w : BitVec 32) : List Byte :=
  [w.extractLsb' 0 8, w.extractLsb' 8 8, w.extractLsb' 16 8, w.extractLsb' 24 8]

/-- The structure in memory, with three bytes of padding. -/
def MemoryInfo.image (info : MemoryInfo) : List Byte :=
  wordBytes info.lowerMemoryKb ++ wordBytes info.upperMemoryKb ++ wordBytes info.totalMemoryKb ++
    wordBytes info.totalMemoryMb ++ [info.multibootMemoryAvailable, 0, 0, 0]

/-- The structure in memory, with two bytes of padding. -/
def CpuInfo.image (info : CpuInfo) : List Byte :=
  wordBytes info.available ++ wordBytes info.family ++ wordBytes info.model ++ wordBytes info.stepping ++
    info.vendor.toList ++ info.brand.toList ++ [0, 0]

/-- What system calls work on: memory, `syscall_cursor`, what boot found out about the machine, and the
filesystem. Memory is flat and holds callers' data only: the kernel keeps its tables elsewhere, and a
machine that touches a page that is not mapped has stopped. -/
structure SysState (φ : Type) where
  ram : Ram
  syscallCursor : Nat
  memoryInfo : MemoryInfo
  cpuInfo : CpuInfo
  fs : φ

def syscallPtrIsValid (ptr : Address) : Bool := decide (syscallMinValidAddress ≤ ptr.toNat)

section

variable {φ : Type}

variable (fsCall : Call → φ → Option (Ret × φ))

/-- The registers that PUSHA leaves on the stack: EDI, ESI, EBP, ESP, EBX, EDX, ECX, EAX. -/
abbrev Registers : Type := Vector (BitVec 32) 8

variable {fsCall : Call → φ → Option (Ret × φ)} {s t : SysState φ} {steps : List UserStep} {out : List Registers}

end

/-- The filesystem on a device, always with an answer. -/
def onDevice {δ : Type} (D : Device δ Sector) (call : Call) (c : Conf FsMem δ) : Option (Ret × Conf FsMem δ) :=
  some (call.prog.run D c)

/-! ## Programs see the model's files -/

instance Files.decidablePermits (a : Files) : (call : Call) → Decidable (a.permits call)
  | .delete n => inferInstanceAs (Decidable (∀ fd < 16, (a.handles fd).map Prod.fst ≠ some n))
  | .list _ _ => isFalse id
  | .create _ | .exist _ | .open _ | .close _ | .read _ _ _ | .write _ _ => isTrue trivial

/-- The model as a filesystem, with answers to the calls it permits. -/
def Files.answer (call : Call) (a : Files) : Option (Ret × Files) := if a.permits call then some (a.step call) else none

section

variable {φ ψ : Type}

/-- Another filesystem in the same machine. -/
def SysState.withFs (s : SysState φ) (fs : ψ) : SysState ψ :=
  { ram := s.ram, syscallCursor := s.syscallCursor, memoryInfo := s.memoryInfo, cpuInfo := s.cpuInfo, fs }

variable {abstractCall : Call → φ → Option (Ret × φ)} {fsCall : Call → ψ → Option (Ret × ψ)} {R : φ → ψ → Prop}

/-- Two machines that differ in their filesystems only, related ones. -/
def Related (R : φ → ψ → Prop) (s : SysState φ) (t : SysState ψ) : Prop := ∃ c, t = s.withFs c ∧ R s.fs c

variable {s : SysState φ} {t : SysState ψ}

/-- Both machines copy the same structure out. -/
theorem Related.storeBytes (hst : Related R s t) (buffer : Address) (bytes : List Byte) :
    Related R { s with ram := s.ram.storeBytes buffer bytes } { t with ram := t.ram.storeBytes buffer bytes } := by
  obtain ⟨c, rfl, hR⟩ := hst
  exact ⟨c, rfl, hR⟩

end

/-- The access stays in the inode table and in an inode's `direct` array. -/
def FsAccess.inTables : FsAccess → Bool
  | inode index => decide (index < fsMaxFiles)
  | direct block => decide (block < fsDirectBlocks)
  | data _ => true

/-- The filesystem on a device, for calls that stay in its tables. A directory entry on a corrupt disk may lead
a call past them, where it may store anywhere; such a call is not followed. -/
def withinTables {δ : Type} (D : Device δ Sector) (call : Call) (c : Conf FsMem δ) : Option (Ret × Conf FsMem δ) :=
  if (notes D call.watched c).all FsAccess.inTables then onDevice D call c else none

theorem FsAccess.InRange.inTables {total : Nat} {a : FsAccess} (h : a.InRange total) : a.inTables = true := by
  cases a with
  | inode index => exact decide_eq_true h
  | direct block => exact decide_eq_true h
  | data lba => rfl

/-- A tame call stays in the tables. -/
theorem withinTables_of_tame {δ : Type} {D : Device δ Sector} {call : Call} {c : Conf FsMem δ} (h : call.Tame D c) :
    withinTables D call c = onDevice D call c :=
  if_pos (List.all_eq_true.2 fun a ha => ((call_inRange_iff D c call).2 h a ha).inTables)

/-- The text screen. -/
def textCells : Set Address := {a | a ∈ Memory.span videoAddress 4000}

/-- The buffer of a call that has passed the checks. -/
def checkedBuffer (buffer : Address) (size : Nat) : Set Address :=
  {a | syscallPtrIsValid buffer = true ∧ size ≤ syscallMaxIoSize ∧ a ∈ Memory.span buffer size}

/-- Where a call with these registers may write. -/
def kernelStores (number arg1 arg2 arg3 : BitVec 32) : Set Address :=
  match number.toNat with
  | sysWrite => textCells
  | sysMeminfo => checkedBuffer arg1 20
  | sysHwinfo => checkedBuffer arg1 80
  | sysReadFile => checkedBuffer arg2 arg3.toNat
  | sysList => checkedBuffer arg1 arg2.toNat
  | _ => ∅

section

variable {φ δ : Type}

theorem length_wordBytes (w : BitVec 32) : (wordBytes w).length = 4 := rfl

theorem MemoryInfo.length_image (info : MemoryInfo) : info.image.length = 20 := by
  simp [MemoryInfo.image, length_wordBytes]

theorem CpuInfo.length_image (info : CpuInfo) : info.image.length = 80 := by
  simp [CpuInfo.image, length_wordBytes]

variable {D : Device δ Sector} {s : SysState (Conf FsMem δ)} {x : BitVec 32 × SysState (Conf FsMem δ)}

/-- What the kernel may write to in a trap with these registers. -/
def Registers.stores (regs : Registers) : Set Address := kernelStores regs[7] regs[4] regs[6] regs[5]

end

end SpectreOS
