/-
The driver of the ATA disk at its ports (ata.c): polling the status with a time-out, the registers
that address a sector, and the sector itself as 256 words through the data port. Whatever the device
answers, every call writes a first part of one command to the ports and nothing else, and reports
success only when it has written all of it.
-/
import SpectreOS.Lib.Ports
import SpectreOS.Disk.Ata

namespace SpectreOS

open BlockIO PortM

abbrev ataData : Nat := 0x1F0
abbrev ataSeccount0 : Nat := 0x1F2
abbrev ataLba0 : Nat := 0x1F3
abbrev ataLba1 : Nat := 0x1F4
abbrev ataLba2 : Nat := 0x1F5
abbrev ataDrive : Nat := 0x1F6
abbrev ataStatus : Nat := 0x1F7
abbrev ataCommand : Nat := 0x1F7
abbrev ataAltstatus : Nat := 0x3F6

abbrev ataCmdIdentify : Byte := 0xEC
abbrev ataCmdRead : Byte := 0x20
abbrev ataCmdWrite : Byte := 0x30

abbrev ataSrBsy : Byte := 0x80
abbrev ataSrDf : Byte := 0x20
abbrev ataSrDrq : Byte := 0x08
abbrev ataSrErr : Byte := 0x01

abbrev ataTimeout : Nat := 1000000

/-! ## A sector as words -/

theorem evenByte_lt (k : Fin 256) : 2 * k.val < 512 := by omega

theorem oddByte_lt (k : Fin 256) : 2 * k.val + 1 < 512 := by omega

/-- The words that `outsw` takes from a buffer, the low byte first. -/
def Sector.words (s : Sector) : List (BitVec 16) :=
  List.ofFn fun k : Fin 256 => s ⟨2 * k + 1, oddByte_lt k⟩ ++ s ⟨2 * k, evenByte_lt k⟩

/-- The buffer that `insw` fills. -/
def Sector.ofWords (ws : List (BitVec 16)) : Sector := fun i =>
  if i.val % 2 = 0 then (ws.getD (i / 2) 0).extractLsb' 0 8 else (ws.getD (i / 2) 0).extractLsb' 8 8

@[simp] theorem Sector.length_words (s : Sector) : s.words.length = 256 := List.length_ofFn

theorem Sector.getD_words (s : Sector) (k : Fin 256) :
    s.words.getD k 0 = s ⟨2 * k + 1, oddByte_lt k⟩ ++ s ⟨2 * k, evenByte_lt k⟩ := by
  rw [words, List.getD_eq_getElem?_getD, List.getElem?_ofFn, dif_pos k.isLt, Option.getD_some]

@[simp] theorem Sector.ofWords_words (s : Sector) : Sector.ofWords s.words = s := by
  funext i
  have hk := s.getD_words ⟨i.val / 2, by omega⟩
  simp only at hk
  unfold Sector.ofWords
  rw [hk]
  split
  · refine BitVec.extractLsb'_append_eq_right.trans (congrArg s (Fin.ext ?_))
    simp only
    omega
  · refine BitVec.extractLsb'_append_eq_left.trans (congrArg s (Fin.ext ?_))
    simp only
    omega

/-! ## Waiting -/

def ataDelay : PortM Unit := do
  let _ ← readByte ataAltstatus
  let _ ← readByte ataAltstatus
  let _ ← readByte ataAltstatus
  let _ ← readByte ataAltstatus

/-- One turn of the loop of `ata_wait_not_busy`. -/
def notBusyTry : PortM (Option Bool) := do
  let status ← readByte ataStatus
  pure (if status &&& ataSrBsy = 0 then some true else none)

def ataWaitNotBusy : PortM Bool := poll notBusyTry false ataTimeout

/-- One turn of the loop of `ata_wait_drq`. -/
def drqTry : PortM (Option Bool) := do
  let status ← readByte ataStatus
  pure (if status &&& ataSrErr ≠ 0 then some false
    else if status &&& ataSrDf ≠ 0 then some false
    else if status &&& ataSrBsy = 0 ∧ status &&& ataSrDrq ≠ 0 then some true
    else none)

def ataWaitDrq : PortM Bool := poll drqTry false ataTimeout

/-! ## The calls -/

/-- `disk_ready` and `disk_sectors`. -/
structure AtaDriver where
  diskReady : Bool
  diskSectors : Nat

namespace Pio

def ataSelect (lba : Nat) : PortM Bool :=
  if lba ≥ 0x10000000 then pure false
  else do
    writeByte ataDrive (BitVec.ofNat 8 (0xE0 ||| (lba >>> 24 &&& 0x0F)))
    ataDelay
    if !(← ataWaitNotBusy) then pure false
    else
      writeByte ataSeccount0 1
      writeByte ataLba0 (BitVec.ofNat 8 (lba &&& 0xFF))
      writeByte ataLba1 (BitVec.ofNat 8 (lba >>> 8 &&& 0xFF))
      writeByte ataLba2 (BitVec.ofNat 8 (lba >>> 16 &&& 0xFF))
      pure true

/-- The check of the status at the end of a transfer. -/
def transferOk : PortM Bool := do
  let status ← readByte ataStatus
  pure (if status &&& ataSrErr ≠ 0 then false else if status &&& ataSrDf ≠ 0 then false else true)

/-- `ata_read_sector`, with the sector read when it returns 1. -/
def ataReadSector (a : AtaDriver) (lba : Nat) : PortM (Option Sector) :=
  if !a.diskReady then pure none
  else if lba ≥ a.diskSectors then pure none
  else do
    if !(← ataSelect lba) then pure none
    else
      writeByte ataCommand ataCmdRead
      if !(← ataWaitDrq) then pure none
      else
        let buffer ← readWords ataData 256
        if ← transferOk then pure (some (.ofWords buffer)) else pure none

def ataWriteSector (a : AtaDriver) (lba : Nat) (buffer : Sector) : PortM Bool :=
  if !a.diskReady then pure false
  else if lba ≥ a.diskSectors then pure false
  else do
    if !(← ataSelect lba) then pure false
    else
      writeByte ataCommand ataCmdWrite
      if !(← ataWaitDrq) then pure false
      else
        writeWords ataData buffer.words
        if !(← ataWaitNotBusy) then pure false else transferOk

/-- `ata_init`: what it returns and the two variables; the registration with the block layer is not
part of it. -/
def ataInit : PortM (Bool × AtaDriver) := do
  writeByte ataDrive 0xE0
  ataDelay
  writeByte ataSeccount0 0
  writeByte ataLba0 0
  writeByte ataLba1 0
  writeByte ataLba2 0
  writeByte ataCommand ataCmdIdentify
  let status ← readByte ataStatus
  if status = 0 then pure (false, ⟨false, 0⟩)
  else if !(← ataWaitNotBusy) then pure (false, ⟨false, 0⟩)
  else
    let status ← readByte ataStatus
    if status &&& ataSrErr ≠ 0 then pure (false, ⟨false, 0⟩)
    else if status &&& ataSrDf ≠ 0 then pure (false, ⟨false, 0⟩)
    else if status &&& ataSrDrq = 0 then pure (false, ⟨false, 0⟩)
    else
      let identify ← readWords ataData 256
      let diskSectors := (identify.getD 61 0 ++ identify.getD 60 0).toNat
      pure (if diskSectors = 0 then (false, ⟨false, 0⟩) else (true, ⟨true, diskSectors⟩))

end Pio

/-! ## On any device -/

/-- A call of the driver. -/
inductive AtaCall where
  | init
  | read (lba : Nat)
  | write (lba : Nat) (buffer : Sector)

/-- The statics after a call, and whether it returned 1. -/
def AtaCall.prog (a : AtaDriver) : AtaCall → PortM (Bool × AtaDriver)
  | init => Pio.ataInit
  | read lba => do return ((← Pio.ataReadSector a lba).isSome, a)
  | write lba buffer => do return (← Pio.ataWriteSector a lba buffer, a)

/-- The registers that address a sector, as `ata_select` writes them. -/
def addressing (lba : Nat) : List PortWrite :=
  [.byte ataDrive (BitVec.ofNat 8 (0xE0 ||| (lba >>> 24 &&& 0x0F))), .byte ataSeccount0 1,
    .byte ataLba0 (BitVec.ofNat 8 (lba &&& 0xFF)), .byte ataLba1 (BitVec.ofNat 8 (lba >>> 8 &&& 0xFF)),
    .byte ataLba2 (BitVec.ofNat 8 (lba >>> 16 &&& 0xFF))]

/-- The registers as IDENTIFY wants them. -/
def identifying : List PortWrite :=
  [.byte ataDrive 0xE0, .byte ataSeccount0 0, .byte ataLba0 0, .byte ataLba1 0, .byte ataLba2 0]

/-- The whole command of a call. -/
def AtaCall.script : AtaCall → List PortWrite
  | init => identifying ++ [.byte ataCommand ataCmdIdentify]
  | read lba => addressing lba ++ [.byte ataCommand ataCmdRead]
  | write lba buffer => addressing lba ++ .byte ataCommand ataCmdWrite :: buffer.words.map (.word ataData)

theorem follows_ataDelay {Q : Unit → List PortWrite → Prop} {script : List PortWrite} (h : Q () script) :
    ataDelay.Follows Q script := fun _ _ _ _ => h

theorem follows_ataWaitNotBusy {Q : Bool → List PortWrite → Prop} {script : List PortWrite} (h : ∀ ok, Q ok script) :
    ataWaitNotBusy.Follows Q script :=
  follows_poll (fun _ => ⟨rfl, fun ok _ => h ok⟩) (h false)

theorem follows_ataWaitDrq {Q : Bool → List PortWrite → Prop} {script : List PortWrite} (h : ∀ ok, Q ok script) :
    ataWaitDrq.Follows Q script :=
  follows_poll (fun _ => ⟨rfl, fun ok _ => h ok⟩) (h false)

theorem follows_transferOk {Q : Bool → List PortWrite → Prop} {script : List PortWrite} (h : ∀ ok, Q ok script) :
    Pio.transferOk.Follows Q script := fun _ => h _

/-- When `ata_select` succeeds, the address has been written. -/
theorem follows_ataSelect {lba : Nat} {Q : Bool → List PortWrite → Prop} {rest : List PortWrite} (htrue : Q true rest)
    (hfalse : ∀ script, Q false script) : (Pio.ataSelect lba).Follows Q (addressing lba ++ rest) := by
  unfold Pio.ataSelect
  split
  · exact hfalse _
  · simp only [follows_bind, addressing, List.cons_append, List.nil_append, follows_writeByte_cons]
    refine follows_ataDelay (follows_ataWaitNotBusy fun ok => ?_)
    cases ok with
    | false => exact hfalse _
    | true =>
      simp only [Bool.not_true, Bool.false_eq_true, if_false, follows_bind, follows_writeByte_cons]
      exact htrue

theorem follows_ataInit : Pio.ataInit.Follows (fun r rest => r.1 = true → rest = []) AtaCall.init.script := by
  unfold Pio.ataInit
  simp only [follows_bind, AtaCall.script, identifying, List.cons_append, List.nil_append, follows_writeByte_cons]
  refine follows_ataDelay ?_
  simp only [follows_writeByte_cons, follows_readByte]
  intro status
  split
  · exact Bool.noConfusion
  · rw [follows_bind]
    refine follows_ataWaitNotBusy fun ok => ?_
    cases ok with
    | false => exact Bool.noConfusion
    | true =>
      simp only [Bool.not_true, Bool.false_eq_true, if_false, follows_bind, follows_readByte]
      intro status
      split
      · exact Bool.noConfusion
      split
      · exact Bool.noConfusion
      split
      · exact Bool.noConfusion
      · simp only [follows_bind, follows_readWords, follows_pure, implies_true]

theorem follows_ataReadSector (a : AtaDriver) (lba : Nat) :
    (Pio.ataReadSector a lba).Follows (fun r rest => r.isSome = true → rest = []) (AtaCall.read lba).script := by
  unfold Pio.ataReadSector
  split
  · exact Bool.noConfusion
  split
  · exact Bool.noConfusion
  rw [follows_bind]
  refine follows_ataSelect ?_ fun _ => Bool.noConfusion
  simp only [Bool.not_true, Bool.false_eq_true, if_false, follows_bind, follows_writeByte_cons]
  refine follows_ataWaitDrq fun ok => ?_
  cases ok with
  | false => exact Bool.noConfusion
  | true =>
    simp only [Bool.not_true, Bool.false_eq_true, if_false, follows_bind, follows_readWords]
    refine fun ws _ => follows_transferOk fun ok => ?_
    cases ok <;> exact fun _ => rfl

theorem follows_ataWriteSector (a : AtaDriver) (lba : Nat) (buffer : Sector) :
    (Pio.ataWriteSector a lba buffer).Follows
      (fun r rest => r = true → rest = []) (AtaCall.write lba buffer).script := by
  unfold Pio.ataWriteSector
  split
  · exact Bool.noConfusion
  split
  · exact Bool.noConfusion
  rw [follows_bind]
  refine follows_ataSelect ?_ fun _ => Bool.noConfusion
  simp only [Bool.not_true, Bool.false_eq_true, if_false, follows_bind, follows_writeByte_cons]
  refine follows_ataWaitDrq fun ok => ?_
  cases ok with
  | false => exact Bool.noConfusion
  | true =>
    rw [← List.append_nil (buffer.words.map _)]
    simp only [Bool.not_true, Bool.false_eq_true, if_false, follows_bind, follows_writeWords]
    refine follows_ataWaitNotBusy fun ok => ?_
    cases ok with
    | false => exact Bool.noConfusion
    | true =>
      exact follows_transferOk fun _ _ => rfl

/-- Whatever the device answers, a call writes its command from the front, and all of it if it
returns 1. -/
theorem AtaCall.follows (a : AtaDriver) (call : AtaCall) :
    (call.prog a).Follows (fun r rest => r.1 = true → rest = []) call.script := by
  cases call with
  | init => exact follows_ataInit
  | read lba => exact (follows_bind ..).2 (follows_ataReadSector a lba)
  | write lba buffer => exact (follows_bind ..).2 (follows_ataWriteSector a lba buffer)

/-! ## The commands of a run -/

/-- The registers behind the ports of the primary channel. -/
structure TaskFile where
  driveHead : Byte
  count : Byte
  lba0 : Byte
  lba1 : Byte
  lba2 : Byte

def TaskFile.write (t : TaskFile) : PortWrite → TaskFile
  | .byte 0x1F2 v => { t with count := v }
  | .byte 0x1F3 v => { t with lba0 := v }
  | .byte 0x1F4 v => { t with lba1 := v }
  | .byte 0x1F5 v => { t with lba2 := v }
  | .byte 0x1F6 v => { t with driveHead := v }
  | _ => t

/-- The sector the registers address, in 28 bits. -/
def TaskFile.lba (t : TaskFile) : Nat :=
  (t.driveHead &&& 0x0F).toNat * 2 ^ 24 + t.lba2.toNat * 2 ^ 16 + t.lba1.toNat * 2 ^ 8 + t.lba0.toNat

/-- A command with the sector and the number of sectors it is for. -/
structure Command where
  code : Byte
  lba : Nat
  count : Byte
  deriving DecidableEq

def PortWrite.code : PortWrite → Option Byte
  | .byte port v => if port = ataCommand then some v else none
  | .word _ _ => none

/-- The commands in a sequence of writes. -/
def commands (t : TaskFile) : List PortWrite → List Command
  | [] => []
  | w :: ws => (PortWrite.code w).toList.map (⟨·, t.lba, t.count⟩) ++ commands (t.write w) ws

def AtaCall.command : AtaCall → Command
  | init => ⟨ataCmdIdentify, 0, 0⟩
  | read lba => ⟨ataCmdRead, lba, 1⟩
  | write lba _ => ⟨ataCmdWrite, lba, 1⟩

/-- Calls one after the other on a device: what each returned and wrote. -/
def ataRun {σ : Type} (B : Bus σ) (a : AtaDriver) (s : σ) : List AtaCall → List (Bool × List PortWrite)
  | [] => []
  | call :: calls =>
    ((run B (call.prog a) s).1.1, writes B (call.prog a) s) ::
      ataRun B (run B (call.prog a) s).1.2 (run B (call.prog a) s).2 calls

theorem commands_append (t : TaskFile) (ws ws' : List PortWrite) :
    commands t (ws ++ ws') = commands t ws ++ commands (ws.foldl TaskFile.write t) ws' := by
  induction ws generalizing t with
  | nil => rfl
  | cons w ws ih => rw [List.cons_append, commands, commands, ih, List.append_assoc, List.foldl_cons]

theorem commands_eq_nil (t : TaskFile) {ws : List PortWrite} (h : ∀ w ∈ ws, PortWrite.code w = none) :
    commands t ws = [] := by
  induction ws generalizing t with
  | nil => rfl
  | cons w ws ih =>
    rw [commands, h w List.mem_cons_self, ih _ fun v hv => h v (List.mem_cons_of_mem _ hv)]
    rfl

theorem commands_cons_command (t : TaskFile) (code : Byte) (ws : List PortWrite) :
    commands t (.byte ataCommand code :: ws) = ⟨code, t.lba, t.count⟩ :: commands t ws := by
  rw [commands, PortWrite.code, if_pos rfl]
  rfl

theorem commands_words (t : TaskFile) (port : Nat) (ws : List (BitVec 16)) : commands t (ws.map (.word port)) = [] :=
  commands_eq_nil t fun w hw => by
    obtain ⟨v, -, rfl⟩ := List.mem_map.1 hw
    rfl

theorem commands_addressing (t : TaskFile) (lba : Nat) : commands t (addressing lba) = [] :=
  commands_eq_nil t fun w hw => by
    simp only [addressing, List.mem_cons, List.not_mem_nil, or_false] at hw
    rcases hw with rfl | rfl | rfl | rfl | rfl <;> rw [PortWrite.code, if_neg (by decide)]

theorem lba_bytes {lba : Nat} (h : lba < 2 ^ 28) :
    ((BitVec.ofNat 8 (0xE0 ||| (lba >>> 24 &&& 0x0F)) : Byte) &&& 0x0F).toNat * 2 ^ 24 +
      (BitVec.ofNat 8 (lba >>> 16 &&& 0xFF)).toNat * 2 ^ 16 + (BitVec.ofNat 8 (lba >>> 8 &&& 0xFF)).toNat * 2 ^ 8 +
        (BitVec.ofNat 8 (lba &&& 0xFF)).toNat = lba := by
  have hhead : ∀ x : Fin 16, ((BitVec.ofNat 8 (0xE0 ||| x.val) : Byte) &&& 0x0F).toNat = x := by decide
  have hand : ∀ n : Nat, n &&& 0xFF = n % 256 := fun n => Nat.and_two_pow_sub_one_eq_mod n 8
  have h15 : lba >>> 24 &&& 0x0F = lba / 2 ^ 24 := by
    rw [show (0x0F : Nat) = 2 ^ 4 - 1 by rfl, Nat.and_two_pow_sub_one_eq_mod, Nat.shiftRight_eq_div_pow]
    omega
  rw [h15, hhead ⟨lba / 2 ^ 24, by omega⟩]
  simp only [hand, BitVec.toNat_ofNat, Nat.shiftRight_eq_div_pow]
  omega

theorem addressing_registers (t : TaskFile) (lba : Nat) :
    (addressing lba).foldl TaskFile.write t =
      ⟨BitVec.ofNat 8 (0xE0 ||| (lba >>> 24 &&& 0x0F)), 1, BitVec.ofNat 8 (lba &&& 0xFF),
        BitVec.ofNat 8 (lba >>> 8 &&& 0xFF), BitVec.ofNat 8 (lba >>> 16 &&& 0xFF)⟩ := rfl

/-- The command of a call addresses the sector of the call, whatever the registers held. -/
theorem AtaCall.commands_script (t : TaskFile) (call : AtaCall) (h : call.command.lba < 2 ^ 28) :
    commands t call.script = [call.command] := by
  have haddr : ∀ lba < 2 ^ 28, commands t (addressing lba) = [] ∧ ((addressing lba).foldl TaskFile.write t).lba = lba ∧
      ((addressing lba).foldl TaskFile.write t).count = 1 := by
    intro lba h
    refine ⟨commands_addressing t lba, ?_, rfl⟩
    simpa only [addressing_registers, TaskFile.lba] using lba_bytes h
  cases call with
  | init =>
    have h1 : commands t identifying = [] := commands_eq_nil t fun w hw => by
      simp only [identifying, List.mem_cons, List.not_mem_nil, or_false] at hw
      rcases hw with rfl | rfl | rfl | rfl | rfl <;> rw [PortWrite.code, if_neg (by decide)]
    have hzero : TaskFile.lba ⟨0xE0, 0, 0, 0, 0⟩ = 0 := by decide
    have hregs : identifying.foldl TaskFile.write t = ⟨0xE0, 0, 0, 0, 0⟩ := rfl
    rw [script, commands_append, h1, commands_cons_command, hregs, hzero]
    rfl
  | read lba =>
    obtain ⟨h1, h2, h3⟩ := haddr lba h
    rw [script, commands_append, h1, commands_cons_command, h2, h3]
    rfl
  | write lba buffer =>
    obtain ⟨h1, h2, h3⟩ := haddr lba h
    rw [script, commands_append, h1, commands_cons_command, commands_words, h2, h3]
    rfl

/-- A sector number that `ata_select` refuses is never written. -/
theorem AtaCall.writes_large {σ : Type} (B : Bus σ) (a : AtaDriver) (s : σ) (call : AtaCall)
    (h : ¬ call.command.lba < 2 ^ 28) : writes B (call.prog a) s = [] := by
  have hselect : ∀ lba, ¬ lba < 2 ^ 28 → Pio.ataSelect lba = pure false := fun lba h => if_pos (not_lt.1 h)
  have hfollows : (call.prog a).Follows (fun _ _ => True) [] := by
    cases call with
    | init => exact absurd (by decide) h
    | read lba =>
      refine (follows_bind ..).2 ?_
      unfold Pio.ataReadSector
      rw [hselect lba h]
      split
      · trivial
      split <;> trivial
    | write lba buffer =>
      refine (follows_bind ..).2 ?_
      unfold Pio.ataWriteSector
      rw [hselect lba h]
      split
      · trivial
      split <;> trivial
  obtain ⟨rest, he, -⟩ := hfollows.writes B s
  exact (List.append_eq_nil_iff.1 he.symm).1

/-- One call writes no command, or its own. -/
theorem AtaCall.commands_writes {σ : Type} (B : Bus σ) (a : AtaDriver) (s : σ) (call : AtaCall) (t : TaskFile) :
    commands t (writes B (call.prog a) s) = [] ∨ commands t (writes B (call.prog a) s) = [call.command] := by
  by_cases h : call.command.lba < 2 ^ 28
  · obtain ⟨rest, he, -⟩ := (call.follows a).writes B s
    have hpre : commands t (writes B (call.prog a) s) <+: [call.command] := by
      rw [← call.commands_script t h, he, commands_append]
      exact List.prefix_append ..
    rcases List.prefix_cons_iff.1 hpre with h | ⟨ws, hws, h⟩
    · exact Or.inl h
    · rw [List.prefix_nil.1 h] at hws
      exact Or.inr hws
  · rw [call.writes_large B a s h]
    exact Or.inl rfl

/-- Calls of the driver on any device, in any order and whatever the device answers: each call writes
its own command from the front, all of it if it returns 1, and the commands that the device gets are
commands of the calls, in their order, each for the sector of its call. -/
theorem ataRun_commands {σ : Type} (B : Bus σ) (a : AtaDriver) (s : σ) (calls : List AtaCall) (t : TaskFile) :
    List.Forall₂ (fun call r => r.2 <+: call.script ∧ (r.1 = true → r.2 = call.script)) calls (ataRun B a s calls) ∧
      (commands t ((ataRun B a s calls).flatMap (·.2))).Sublist (calls.map AtaCall.command) := by
  induction calls generalizing a s t with
  | nil => exact ⟨.nil, .slnil⟩
  | cons call calls ih =>
    obtain ⟨rest, he, hok⟩ := (call.follows a).writes B s
    obtain ⟨h1, h2⟩ := ih (run B (call.prog a) s).1.2 (run B (call.prog a) s).2
      ((writes B (call.prog a) s).foldl TaskFile.write t)
    refine ⟨.cons ⟨⟨rest, he.symm⟩, fun h => ?_⟩ h1, ?_⟩
    · rw [he, hok h, List.append_nil]
    · rw [ataRun, List.flatMap_cons, commands_append, List.map_cons]
      rcases call.commands_writes B a s t with h | h
      · rw [h]
        exact h2.cons _
      · rw [h]
        exact h2.cons_cons _

end SpectreOS
