/-
The ATA disk (ata.c): single-sector requests against a present disk of `diskSectors` sectors. The
port handshake of the driver (status polling, time-outs, the ERR and DF bits) is the fault
pattern: request number `n` that reaches the drive fails when `faults n`, a failed write leaving
its sector as it was. The log keeps the requests the drive has seen, so the number of a request
is the length of the log.
-/
import SpectreOS.Lib.Prog
import SpectreOS.Lib.Bytes

namespace SpectreOS

open BlockIO

abbrev Sector := Block 512

/-- A request the drive has seen, and whether it succeeded. -/
inductive Request where
  | read (lba : Nat) (ok : Bool)
  | write (lba : Nat) (data : Sector) (ok : Bool)

def Request.lba : Request → Nat
  | read lba _ => lba
  | write lba _ _ => lba

def Request.isWrite : Request → Bool
  | read _ _ => false
  | write _ _ _ => true

structure Ata where
  diskReady : Bool
  diskSectors : Nat
  disk : Nat → Sector
  faults : Nat → Bool
  log : List Request

/-- The driver's checks before a command is issued; `ata_select` refuses an LBA of 28 bits or
more. -/
def Ata.accepts (a : Ata) (lba : Nat) : Bool :=
  a.diskReady && decide (lba < a.diskSectors) && decide (lba < 0x10000000)

def Ata.record (a : Ata) (r : Request) : Ata := { a with log := a.log ++ [r] }

def ataReadSector (a : Ata) (lba : Nat) : Option Sector × Ata :=
  if a.accepts lba then
    if a.faults a.log.length then (none, a.record (.read lba false))
    else (some (a.disk lba), a.record (.read lba true))
  else (none, a)

def ataWriteSector (a : Ata) (lba : Nat) (buffer : Sector) : Bool × Ata :=
  if a.accepts lba then
    if a.faults a.log.length then (false, a.record (.write lba buffer false))
    else (true, { a.record (.write lba buffer true) with disk := Function.update a.disk lba buffer })
  else (false, a)

/-- The disk as a device. -/
def ata : Device Ata Sector where
  read := ataReadSector
  write := ataWriteSector

end SpectreOS
