/-
The block device registry (blockdev.c), the RAM disk behind it (ramdisk.c) and the AES-CTR layer
over a registered device (crypto_disk.c), together with the two variables of fs.c that say which
device the filesystem uses. The AES block function and SHA-256 are parameters (`Primitives`):
nothing here depends on which functions they are.
-/
import SpectreOS.Disk.Ata

namespace SpectreOS

open BlockIO

/-- The cryptographic functions the kernel calls: `aes256_encrypt_block` under the round keys of
`aes256_init`, and `sha256`. -/
structure Primitives where
  aes256 : Block 32 → Block 16 → Block 16
  sha256 : List Byte → Block 32

abbrev blockdevMax : Nat := 8
abbrev blockdevNameMax : Nat := 16
abbrev cryptoDiskMaxSlots : Nat := 2
abbrev ramdiskSectors : Nat := 512

/-- The drivers whose functions are registered: the trampolines of the two crypto slots have one
shape. -/
inductive Driver where
  | ata
  | ramdisk
  | crypto (slot : Nat)
  deriving DecidableEq

structure BlockDevice where
  name : List Char
  driver : Driver
  inUse : Bool

structure CryptoSlot where
  key : Block 32
  backingDeviceId : Nat
  nonce : Block 8
  inUse : Bool

/-- Everything below the filesystem: the drive, the registry, the crypto slots, the RAM disk, and
fs.c's `fs_disk_device_id` and `fs_encrypted`. -/
structure Machine where
  ata : Ata
  devices : Nat → BlockDevice
  deviceCount : Nat
  slots : Nat → CryptoSlot
  ramdiskReady : Bool
  storage : Nat → Sector
  fsDiskDeviceId : Nat
  fsEncrypted : Bool

/-! ## The registry -/

def blockdevInit (m : Machine) : Machine :=
  { m with devices := fun i => if i < blockdevMax then ⟨[], .ata, false⟩ else m.devices i, deviceCount := 0 }

/-- `blockdev_register`: the new device's id, unless the registry is full. -/
def blockdevRegister (m : Machine) (name : List Char) (driver : Driver) : Option Nat × Machine :=
  if m.deviceCount ≥ blockdevMax then (none, m)
  else
    (some m.deviceCount,
      { m with
        devices := Function.update m.devices m.deviceCount ⟨name.take (blockdevNameMax - 1), driver, true⟩
        deviceCount := m.deviceCount + 1 })

def blockdevGet (m : Machine) (id : Nat) : Option BlockDevice :=
  if id ≥ blockdevMax || !(m.devices id).inUse then none else some (m.devices id)

def blockdevFindByName (m : Machine) (name : List Char) : Option Nat :=
  (List.range blockdevMax).find? fun i => (m.devices i).inUse && (m.devices i).name == name

/-! ## The drivers -/

def ramdiskReadSector (m : Machine) (lba : Nat) : Option Sector :=
  if !m.ramdiskReady || lba ≥ ramdiskSectors then none else some (m.storage lba)

def ramdiskWriteSector (m : Machine) (lba : Nat) (buffer : Sector) : Bool × Machine :=
  if !m.ramdiskReady || lba ≥ ramdiskSectors then (false, m)
  else (true, { m with storage := Function.update m.storage lba buffer })

/-- The counter block of 16-byte block `block` of sector `lba`: the nonce, then the big-endian
counter `lba * 32 + block`. -/
def counterBlock (nonce : Block 8) (lba block : Nat) : Block 16 :=
  fun i => if h : i.val < 8 then nonce ⟨i, h⟩
    else BitVec.ofNat 8 ((lba * 32 + block) / 256 ^ (7 - (i.val - 8)))

/-- Byte `i` of the keystream of a sector. -/
def keystream (cp : Primitives) (slot : CryptoSlot) (lba : Nat) : Sector :=
  fun i => cp.aes256 slot.key (counterBlock slot.nonce lba (i / 16)) ⟨i % 16, Nat.mod_lt _ (by omega)⟩

def cryptoXorSector (cp : Primitives) (slot : CryptoSlot) (lba : Nat) (s : Sector) : Sector :=
  fun i => s i ^^^ keystream cp slot lba i

/-- `crypto0_read_sector` and `crypto1_read_sector`, over the backing device's read. -/
def cryptoReadSector (cp : Primitives) (blockdevRead : Machine → Nat → Nat → Option Sector × Machine)
    (slot : Nat) (m : Machine) (lba : Nat) : Option Sector × Machine :=
  if !(m.slots slot).inUse then (none, m)
  else
    match blockdevRead m (m.slots slot).backingDeviceId lba with
    | (none, m') => (none, m')
    | (some cipher, m') => (some (cryptoXorSector cp (m.slots slot) lba cipher), m')

def cryptoWriteSector (cp : Primitives) (blockdevWrite : Machine → Nat → Nat → Sector → Bool × Machine)
    (slot : Nat) (m : Machine) (lba : Nat) (buffer : Sector) : Bool × Machine :=
  if !(m.slots slot).inUse then (false, m)
  else blockdevWrite m (m.slots slot).backingDeviceId lba (cryptoXorSector cp (m.slots slot) lba buffer)

/-- `blockdev_read_sector`. A crypto device reads its backing device through the registry again;
`depth` bounds that nesting, which two slots cannot exceed unless a slot backs itself. -/
def blockdevReadSector (cp : Primitives) : Nat → Machine → Nat → Nat → Option Sector × Machine
  | 0, m, _, _ => (none, m)
  | depth + 1, m, id, lba =>
    match blockdevGet m id with
    | none => (none, m)
    | some device =>
      match device.driver with
      | .ata => ((ataReadSector m.ata lba).1, { m with ata := (ataReadSector m.ata lba).2 })
      | .ramdisk => (ramdiskReadSector m lba, m)
      | .crypto slot => cryptoReadSector cp (blockdevReadSector cp depth) slot m lba

def blockdevWriteSector (cp : Primitives) : Nat → Machine → Nat → Nat → Sector → Bool × Machine
  | 0, m, _, _, _ => (false, m)
  | depth + 1, m, id, lba, buffer =>
    match blockdevGet m id with
    | none => (false, m)
    | some device =>
      match device.driver with
      | .ata => ((ataWriteSector m.ata lba buffer).1, { m with ata := (ataWriteSector m.ata lba buffer).2 })
      | .ramdisk => ramdiskWriteSector m lba buffer
      | .crypto slot => cryptoWriteSector cp (blockdevWriteSector cp depth) slot m lba buffer

/-- `crypto_disk_create_with_nonce`: claims the first free slot and registers its trampolines. The
slot stays claimed even when the registry is full. -/
def cryptoDiskCreateWithNonce (m : Machine) (name : List Char) (backingDeviceId : Nat) (key : Block 32)
    (nonce : Block 8) : Option Nat × Machine :=
  match (List.range cryptoDiskMaxSlots).find? fun i => !(m.slots i).inUse with
  | none => (none, m)
  | some slot =>
    blockdevRegister { m with slots := Function.update m.slots slot ⟨key, backingDeviceId, nonce, true⟩ }
      name (.crypto slot)

/-- The block layer after `blockdev_init` and the registration `ata_init` makes for a drive that is
there. -/
def bootMachine (a : Ata) : Machine :=
  (blockdevRegister
    (blockdevInit
      { ata := a
        devices := fun _ => ⟨[], .ata, false⟩
        deviceCount := 0
        slots := fun _ => ⟨fun _ => 0, 0, fun _ => 0, false⟩
        ramdiskReady := false
        storage := fun _ _ => 0
        fsDiskDeviceId := 0
        fsEncrypted := false })
    ['a', 't', 'a', '0'] .ata).2

/-! ## The filesystem's device -/

/-- `fs_disk_read_sector` and `fs_disk_write_sector`. -/
def fsDisk (cp : Primitives) : Device Machine Sector where
  read m lba := blockdevReadSector cp (cryptoDiskMaxSlots + 1) m m.fsDiskDeviceId lba
  write m lba s := blockdevWriteSector cp (cryptoDiskMaxSlots + 1) m m.fsDiskDeviceId lba s

/-- `ata_read_sector` and `ata_write_sector`, straight to the drive. -/
def rawDisk : Device Machine Sector where
  read m lba := ((ataReadSector m.ata lba).1, { m with ata := (ataReadSector m.ata lba).2 })
  write m lba s := ((ataWriteSector m.ata lba s).1, { m with ata := (ataWriteSector m.ata lba s).2 })

end SpectreOS
