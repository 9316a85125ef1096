/-
A drive at the other end of the ports: the registers, a phase that is busy for any number of status
reads below the driver's time-out, and the data port. On such a drive the driver of ata.c is the
sector-level drive that the filesystem is verified on (`portDisk_hom`), so whatever is proved of a
run there holds of the run at the ports.
-/
import SpectreOS.Disk.Pio

namespace SpectreOS

open BlockIO PortM

/-! ## The drive -/

/-- What a busy drive is doing. -/
inductive DriveJob where
  | read (lba : Nat)
  | identify
  | accept (lba : Nat)
  | store (lba : Nat) (ws : List (BitVec 16))

/-- A drive that is `busy` says so at `left` more status reads. -/
inductive DrivePhase where
  | idle
  | failed (status : Byte)
  | busy (left : Nat) (job : DriveJob)
  | sending (ws : List (BitVec 16))
  | receiving (lba : Nat) (ws : List (BitVec 16))

/-- The status register; while the drive is busy no other bit is set. -/
def DrivePhase.status : DrivePhase → Byte
  | idle => 0x50
  | failed status => status
  | busy _ _ => 0x80
  | sending _ => 0x58
  | receiving _ _ => 0x58

/-- Request number `n` fails when `faults n`, with ERR or with DF in the status; job number `n` takes
`delay n` status reads. -/
structure AtaDrive where
  capacity : Nat
  disk : Nat → Sector
  identity : Nat → BitVec 16
  faults : Nat → Bool
  deviceFault : Nat → Bool
  delay : Nat → Nat
  log : List Request
  jobs : Nat
  regs : TaskFile
  phase : DrivePhase

namespace AtaDrive

/-- What IDENTIFY answers: words 60 and 61 are the number of sectors. -/
def identifyWords (d : AtaDrive) : List (BitVec 16) :=
  (List.range 256).map fun k =>
    if k = 60 then BitVec.ofNat 16 d.capacity
    else if k = 61 then BitVec.ofNat 16 (d.capacity / 2 ^ 16)
    else d.identity k

def error (d : AtaDrive) : DrivePhase := .failed (if d.deviceFault d.log.length then 0x70 else 0x51)

/-- The job is done. -/
def finish (d : AtaDrive) : DriveJob → AtaDrive
  | .read lba =>
    if lba ≥ d.capacity then { d with phase := d.error }
    else if d.faults d.log.length then { d with phase := d.error, log := d.log ++ [.read lba false] }
    else { d with phase := .sending (d.disk lba).words, log := d.log ++ [.read lba true] }
  | .identify => { d with phase := .sending d.identifyWords }
  | .accept lba =>
    if lba ≥ d.capacity then { d with phase := d.error } else { d with phase := .receiving lba [] }
  | .store lba ws =>
    if d.faults d.log.length then { d with phase := d.error, log := d.log ++ [.write lba (.ofWords ws) false] }
    else { d with
      phase := .idle
      disk := Function.update d.disk lba (.ofWords ws)
      log := d.log ++ [.write lba (.ofWords ws) true] }

def start (d : AtaDrive) (job : DriveJob) : AtaDrive :=
  { d with phase := .busy (d.delay d.jobs) job, jobs := d.jobs + 1 }

def readStatus (d : AtaDrive) : Byte × AtaDrive :=
  match d.phase with
  | .busy (left + 1) job => (0x80, { d with phase := .busy left job })
  | .busy 0 job => ((d.finish job).phase.status, d.finish job)
  | phase => (phase.status, d)

def readData (d : AtaDrive) : BitVec 16 × AtaDrive :=
  match d.phase with
  | .sending (w :: ws) => (w, { d with phase := if ws = [] then .idle else .sending ws })
  | _ => (0, d)

def writeData (d : AtaDrive) (w : BitVec 16) : AtaDrive :=
  match d.phase with
  | .receiving lba ws =>
    if ws.length = 255 then d.start (.store lba (ws ++ [w])) else { d with phase := .receiving lba (ws ++ [w]) }
  | _ => d

/-- A command; the other drive of the channel is not there. -/
def command (d : AtaDrive) (code : Byte) : AtaDrive :=
  if d.regs.driveHead &&& 0x10 ≠ 0 then d
  else if code = ataCmdRead then d.start (.read d.regs.lba)
  else if code = ataCmdWrite then d.start (.accept d.regs.lba)
  else if code = ataCmdIdentify then d.start .identify
  else { d with phase := .failed 0x51 }

def isBusy (d : AtaDrive) : Bool :=
  match d.phase with
  | .busy _ _ => true
  | _ => false

/-- The drive as a bus. A busy drive takes no writes. -/
def bus : Bus AtaDrive where
  inb d port :=
    if port = ataStatus then d.readStatus
    else if port = ataAltstatus then (d.phase.status, d)
    else (0xFF, d)
  inw d port := if port = ataData then d.readData else (0xFFFF, d)
  out d w :=
    if d.isBusy then d
    else match w with
      | .byte port v => if port = ataCommand then d.command v else { d with regs := d.regs.write w }
      | .word port v => if port = ataData then d.writeData v else d

/-- Between two requests. -/
def Ready (d : AtaDrive) : Prop := d.phase = .idle ∨ ∃ status, d.phase = .failed status ∧ status &&& ataSrBsy = 0

/-- No job takes longer than the driver waits. -/
def InTime (d : AtaDrive) : Prop := ∀ n, d.delay n < ataTimeout

/-! ## What an access does -/

variable {d : AtaDrive} {port : Nat} {v : Byte} {job : DriveJob} {left n : Nat}

theorem inb_status : bus.inb d ataStatus = d.readStatus := by simp only [bus, if_true]

theorem inb_altstatus : bus.inb d ataAltstatus = (d.phase.status, d) := by
  simp only [bus]
  rw [if_neg (by decide), if_pos trivial]

theorem inw_data : bus.inw d ataData = d.readData := by simp only [bus, if_true]

theorem out_register (h : d.isBusy = false) (t : TaskFile) (hp : port ≠ ataCommand) :
    bus.out { d with regs := t } (.byte port v) = { d with regs := t.write (.byte port v) } := by
  have hb : ({ d with regs := t } : AtaDrive).isBusy = false := h
  simp only [bus, hb, Bool.false_eq_true, if_false, if_neg hp]

theorem out_command (h : d.isBusy = false) : bus.out d (.byte ataCommand v) = d.command v := by
  simp only [bus, h, Bool.false_eq_true, if_false, if_true]

theorem out_data (h : d.isBusy = false) (w : BitVec 16) : bus.out d (.word ataData w) = d.writeData w := by
  simp only [bus, h, Bool.false_eq_true, if_false, if_true]

theorem Ready.not_busy (h : d.Ready) : d.isBusy = false := by
  rcases h with h | ⟨status, h, -⟩ <;> rw [isBusy, h]

theorem Ready.readStatus (h : d.Ready) : d.readStatus = (d.phase.status, d) := by
  rcases h with h | ⟨status, h, -⟩ <;> rw [AtaDrive.readStatus, h]

theorem Ready.status (h : d.Ready) : d.phase.status &&& ataSrBsy = 0 := by
  rcases h with h | ⟨status, h, hs⟩
  · rw [h]; decide
  · rw [h]; exact hs

/-- Where a job ends does not depend on how long it took. -/
theorem finish_phase (d : AtaDrive) (phase : DrivePhase) (job : DriveJob) :
    ({ d with phase } : AtaDrive).finish job = d.finish job := by
  cases job <;> rfl

theorem error_ready : (d.error = .failed 0x70) ∨ (d.error = .failed 0x51) := by
  unfold error
  split
  · exact Or.inl rfl
  · exact Or.inr rfl

/-- Whether `ata_wait_drq` finds data after a job, if it finds out. -/
def drqAnswer (status : Byte) : Option Bool :=
  if status &&& ataSrErr ≠ 0 then some false
  else if status &&& ataSrDf ≠ 0 then some false
  else if status &&& ataSrBsy = 0 ∧ status &&& ataSrDrq ≠ 0 then some true
  else none

theorem run_ataDelay : run bus ataDelay d = ((), d) := by
  simp only [ataDelay, run_bind, run_readByte, inb_altstatus]
  rfl

theorem readStatus_busy_zero (h : d.phase = .busy 0 job) :
    d.readStatus = ((d.finish job).phase.status, d.finish job) := by
  rw [readStatus, h]

theorem readStatus_busy_succ (h : d.phase = .busy (left + 1) job) :
    d.readStatus = (0x80, { d with phase := .busy left job }) := by
  rw [readStatus, h]

theorem run_notBusyTry (d : AtaDrive) : run bus notBusyTry d =
    (if d.readStatus.1 &&& ataSrBsy = 0 then some true else none, d.readStatus.2) := by
  rw [notBusyTry, run_bind, run_readByte, inb_status, run_pure]

theorem run_drqTry (d : AtaDrive) : run bus drqTry d = (drqAnswer d.readStatus.1, d.readStatus.2) := by
  rw [drqTry, run_bind, run_readByte, inb_status, run_pure]
  rfl

theorem run_notBusy (d : AtaDrive) (n : Nat) : run bus (poll notBusyTry false (n + 1)) d =
    if d.readStatus.1 &&& ataSrBsy = 0 then (true, d.readStatus.2)
      else run bus (poll notBusyTry false n) d.readStatus.2 := by
  rw [run_poll, run_notBusyTry]
  by_cases h : d.readStatus.1 &&& ataSrBsy = 0
  · rw [if_pos h, if_pos h]
  · rw [if_neg h, if_neg h]

theorem run_drq (d : AtaDrive) (n : Nat) : run bus (poll drqTry false (n + 1)) d =
    (drqAnswer d.readStatus.1).elim (run bus (poll drqTry false n) d.readStatus.2) fun b => (b, d.readStatus.2) := by
  rw [run_poll, run_drqTry]
  cases drqAnswer d.readStatus.1 <;> rfl

/-- Waiting for a job that ends in time. -/
theorem run_notBusy_busy (h : d.phase = .busy left job) (hn : left < n)
    (hs : (d.finish job).phase.status &&& ataSrBsy = 0) :
    run bus (poll notBusyTry false n) d = (true, d.finish job) := by
  induction left generalizing d n with
  | zero =>
    obtain ⟨n, rfl⟩ : ∃ k, n = k + 1 := ⟨n - 1, by omega⟩
    rw [run_notBusy, readStatus_busy_zero h, if_pos hs]
  | succ left ih =>
    obtain ⟨n, rfl⟩ : ∃ k, n = k + 1 := ⟨n - 1, by omega⟩
    have hbusy : ¬ ((0x80 : Byte) &&& ataSrBsy = 0) := by decide
    rw [run_notBusy, readStatus_busy_succ h, if_neg hbusy]
    rw [← finish_phase d (.busy left job)] at hs ⊢
    exact ih rfl (by omega) hs

theorem run_drq_busy {b : Bool} (h : d.phase = .busy left job) (hn : left < n)
    (hs : drqAnswer (d.finish job).phase.status = some b) : run bus (poll drqTry false n) d = (b, d.finish job) := by
  induction left generalizing d n with
  | zero =>
    obtain ⟨n, rfl⟩ : ∃ k, n = k + 1 := ⟨n - 1, by omega⟩
    rw [run_drq, readStatus_busy_zero h, hs]
    rfl
  | succ left ih =>
    obtain ⟨n, rfl⟩ : ∃ k, n = k + 1 := ⟨n - 1, by omega⟩
    have hnone : drqAnswer 0x80 = none := by decide
    rw [run_drq, readStatus_busy_succ h, hnone]
    rw [← finish_phase d (.busy left job)] at hs ⊢
    exact ih rfl (by omega) hs

/-! ## The data port -/

theorem run_readWords {ws : List (BitVec 16)} (hne : ws ≠ []) (h : d.phase = .sending ws) :
    run bus (readWords ataData ws.length) d = (ws, { d with phase := .idle }) := by
  induction ws generalizing d with
  | nil => exact absurd rfl hne
  | cons w ws ih =>
    have hread : d.readData = (w, { d with phase := if ws = [] then .idle else .sending ws }) := by
      rw [readData, h]
    rw [List.length_cons, readWords]
    simp only [run, inw_data, hread]
    rw [run_bind]
    by_cases hws : ws = []
    · subst hws
      rfl
    · rw [if_neg hws, ih hws rfl]
      rfl

theorem run_writeWords {ws g : List (BitVec 16)} {lba : Nat} (hne : ws ≠ []) (h : d.phase = .receiving lba g)
    (hlen : g.length + ws.length = 256) :
    run bus (writeWords ataData ws) d = ((), d.start (.store lba (g ++ ws))) := by
  induction ws generalizing d g with
  | nil => exact absurd rfl hne
  | cons w ws ih =>
    rw [writeWords, run, out_data (by rw [isBusy, h]), writeData, h]
    simp only
    rw [List.length_cons] at hlen
    by_cases hws : ws = []
    · subst hws
      rw [if_pos (by simpa using hlen)]
      rfl
    · rw [if_neg (by have := List.length_pos_iff.2 hws; omega),
        ih (g := g ++ [w]) hws rfl (by rw [List.length_append, List.length_singleton]; omega)]
      simp [start]

/-! ## Requests -/

/-- The registers after `ata_select`. -/
def addressed (lba : Nat) : TaskFile :=
  ⟨BitVec.ofNat 8 (0xE0 ||| (lba >>> 24 &&& 0x0F)), 1, BitVec.ofNat 8 (lba &&& 0xFF),
    BitVec.ofNat 8 (lba >>> 8 &&& 0xFF), BitVec.ofNat 8 (lba >>> 16 &&& 0xFF)⟩

theorem addressed_lba {lba : Nat} (h : lba < 2 ^ 28) : (addressed lba).lba = lba := by
  simpa only [addressed, TaskFile.lba] using lba_bytes h

theorem addressed_master (lba : Nat) : (addressed lba).driveHead &&& 0x10 = 0 := by
  have hhead : ∀ x : Fin 16, (BitVec.ofNat 8 (0xE0 ||| x.val) : Byte) &&& 0x10 = 0 := by decide
  exact hhead ⟨lba >>> 24 &&& 0x0F, Nat.lt_succ_of_le Nat.and_le_right⟩

theorem Ready.regs (h : d.Ready) (t : TaskFile) : ({ d with regs := t } : AtaDrive).Ready := h

theorem Ready.waitNotBusy (h : d.Ready) : run bus ataWaitNotBusy d = (true, d) := by
  rw [ataWaitNotBusy, show ataTimeout = 999999 + 1 from rfl, run_notBusy, h.readStatus, if_pos h.status]

theorem run_ataSelect (h : d.Ready) {lba : Nat} (hlba : lba < 2 ^ 28) :
    run bus (Pio.ataSelect lba) d = (true, { d with regs := addressed lba }) := by
  have hb := h.not_busy
  unfold Pio.ataSelect
  rw [if_neg (show ¬ lba ≥ 0x10000000 by omega)]
  simp only [run_bind, run_writeByte, run_ataDelay]
  rw [out_register hb d.regs (by decide), (h.regs _).waitNotBusy]
  simp only [Bool.not_true, Bool.false_eq_true, if_false, run_bind, run_writeByte, run_pure]
  rw [out_register hb _ (by decide), out_register hb _ (by decide), out_register hb _ (by decide),
    out_register hb _ (by decide)]
  rfl

/-- A command for the selected sector begins a job. -/
theorem out_start (h : d.Ready) (lba : Nat) (code : Byte) :
    bus.out { d with regs := addressed lba } (.byte ataCommand code) =
      ({ d with regs := addressed lba } : AtaDrive).command code :=
  out_command h.not_busy

theorem command_read {lba : Nat} (hlba : lba < 2 ^ 28) :
    ({ d with regs := addressed lba } : AtaDrive).command ataCmdRead =
    ({ d with regs := addressed lba } : AtaDrive).start (.read lba) := by
  rw [command, if_neg (not_not.2 (addressed_master lba)), if_pos rfl, addressed_lba hlba]

theorem command_write {lba : Nat} (hlba : lba < 2 ^ 28) :
    ({ d with regs := addressed lba } : AtaDrive).command ataCmdWrite =
    ({ d with regs := addressed lba } : AtaDrive).start (.accept lba) := by
  have hne : ¬ (ataCmdWrite = ataCmdRead) := by decide
  rw [command, if_neg (not_not.2 (addressed_master lba)), if_neg hne, if_pos rfl, addressed_lba hlba]

end AtaDrive

/-! ## The driver on the drive -/

/-- The drive as the driver's sector-level functions know it. -/
def AtaDrive.view (a : AtaDriver) (d : AtaDrive) : Ata := ⟨a.diskReady, a.diskSectors, d.disk, d.faults, d.log⟩

/-- A drive between two requests that is in time and as large as the driver believes. -/
structure AtaDrive.Serves (d : AtaDrive) (a : AtaDriver) : Prop where
  ready : d.Ready
  inTime : d.InTime
  capacity : a.diskSectors ≤ d.capacity

namespace AtaDrive

variable {d : AtaDrive} {a : AtaDriver}

theorem accepts_view {lba : Nat} : (d.view a).accepts lba = true ↔ a.diskReady = true ∧
    lba < a.diskSectors ∧ lba < 2 ^ 28 := by
  show (a.diskReady && decide (lba < a.diskSectors) && decide (lba < 0x10000000)) = true ↔ _
  simp only [Bool.and_eq_true, decide_eq_true_eq, and_assoc, Nat.reducePow]

/-- A read that the driver does not refuse, up to the choice of its answer. -/
theorem finish_read {lba : Nat} (hc : lba < d.capacity) : d.finish (.read lba) =
    if d.faults d.log.length = true then { d with phase := d.error, log := d.log ++ [.read lba false] }
    else { d with phase := .sending (d.disk lba).words, log := d.log ++ [.read lba true] } := by
  rw [finish, if_neg (not_le.2 hc)]

theorem drqAnswer_error : drqAnswer d.error.status = some false := by
  rcases d.error_ready with h | h <;> rw [h] <;> decide

theorem ready_of_error {e : AtaDrive} (h : d.phase = e.error) : d.Ready := by
  rcases e.error_ready with he | he <;> rw [he] at h <;> exact Or.inr ⟨_, h, by decide⟩

/-- The verdict on the status after a transfer. -/
def transferAnswer (status : Byte) : Bool :=
  if status &&& ataSrErr ≠ 0 then false else if status &&& ataSrDf ≠ 0 then false else true

theorem Ready.transferOk (h : d.Ready) : run bus Pio.transferOk d = (transferAnswer d.phase.status, d) := by
  rw [Pio.transferOk, run_bind, run_readByte, inb_status, h.readStatus, run_pure]
  rfl

theorem run_transferOk_idle (h : d.phase = .idle) : run bus Pio.transferOk d = (true, d) := by
  have hok : transferAnswer 0x50 = true := by decide
  rw [Ready.transferOk (Or.inl h), h]
  exact congrArg (·, d) hok

theorem run_transferOk_error {e : AtaDrive} (h : d.phase = e.error) : run bus Pio.transferOk d = (false, d) := by
  have hdf : transferAnswer 0x70 = false := by decide
  have herr : transferAnswer 0x51 = false := by decide
  rw [(ready_of_error h).transferOk, h]
  rcases e.error_ready with he | he <;> rw [he]
  · exact congrArg (·, d) hdf
  · exact congrArg (·, d) herr

theorem ataSelect_large {lba : Nat} (h : ¬ lba < 2 ^ 28) : Pio.ataSelect lba = pure false := if_pos (by omega)

/-- What the driver refuses does not get to the drive. -/
theorem run_refused {lba : Nat} (hacc : (d.view a).accepts lba ≠ true) (buffer : Sector) :
    run bus (Pio.ataReadSector a lba) d = (none, d) ∧ run bus (Pio.ataWriteSector a lba buffer) d = (false, d) := by
  rw [ne_eq, accepts_view] at hacc
  unfold Pio.ataReadSector Pio.ataWriteSector
  by_cases h1 : a.diskReady = true
  swap
  · rw [if_pos (by simpa using h1), if_pos (by simpa using h1)]
    exact ⟨rfl, rfl⟩
  simp only [h1, Bool.not_true, Bool.false_eq_true, if_false]
  by_cases h2 : lba < a.diskSectors
  · rw [if_neg (not_le.2 h2), if_neg (not_le.2 h2), ataSelect_large fun h3 => hacc ⟨h1, h2, h3⟩]
    exact ⟨rfl, rfl⟩
  · rw [if_pos (not_lt.1 h2), if_pos (not_lt.1 h2)]
    exact ⟨rfl, rfl⟩

/-- The drive when a command for sector `lba` has begun its job. -/
def begun (d : AtaDrive) (lba : Nat) (job : DriveJob) : AtaDrive :=
  ({ d with regs := addressed lba } : AtaDrive).start job

/-- `ata_read_sector` from the command on. -/
def readRest : PortM (Option Sector) := do
  if !(← ataWaitDrq) then pure none
  else
    let buffer ← readWords ataData 256
    if ← Pio.transferOk then pure (some (.ofWords buffer)) else pure none

/-- `ata_write_sector` from the command on. -/
def writeRest (buffer : Sector) : PortM Bool := do
  if !(← ataWaitDrq) then pure false
  else
    writeWords ataData buffer.words
    if !(← ataWaitNotBusy) then pure false else Pio.transferOk

theorem run_accepted (h : d.Serves a) {lba : Nat} (hacc : (d.view a).accepts lba = true) (buffer : Sector) :
    run bus (Pio.ataReadSector a lba) d = run bus readRest (d.begun lba (.read lba)) ∧
      run bus (Pio.ataWriteSector a lba buffer) d = run bus (writeRest buffer) (d.begun lba (.accept lba)) := by
  obtain ⟨hready, hlt, hlba⟩ := accepts_view.1 hacc
  constructor
  · unfold Pio.ataReadSector
    rw [hready, if_neg (by decide), if_neg (not_le.2 hlt), run_bind, run_ataSelect h.ready hlba]
    simp only [Bool.not_true, Bool.false_eq_true, if_false]
    rw [run_bind, run_writeByte, out_start h.ready, command_read hlba]
    rfl
  · unfold Pio.ataWriteSector
    rw [hready, if_neg (by decide), if_neg (not_le.2 hlt), run_bind, run_ataSelect h.ready hlba]
    simp only [Bool.not_true, Bool.false_eq_true, if_false]
    rw [run_bind, run_writeByte, out_start h.ready, command_write hlba]
    rfl

theorem drqAnswer_data : drqAnswer 0x58 = some true := by decide

/-- The sector comes through the data port. -/
theorem run_sending {ws : List (BitVec 16)} (hlen : ws.length = 256) (h : d.phase = .sending ws) :
    run bus (readWords ataData 256 >>= fun buffer => Pio.transferOk >>= fun ok =>
      if ok = true then pure (some (Sector.ofWords buffer)) else pure none) d =
        (some (.ofWords ws), { d with phase := .idle }) := by
  have hne : ws ≠ [] := List.ne_nil_of_length_pos (by omega)
  rw [run_bind, ← hlen, run_readWords hne h, run_bind, run_transferOk_idle rfl]
  rfl

theorem finish_store (d : AtaDrive) (lba : Nat) (ws : List (BitVec 16)) : d.finish (.store lba ws) =
    if d.faults d.log.length = true then { d with phase := d.error, log := d.log ++ [.write lba (.ofWords ws) false] }
    else { d with
      phase := .idle
      disk := Function.update d.disk lba (.ofWords ws)
      log := d.log ++ [.write lba (.ofWords ws) true] } := rfl

/-- The sector goes through the data port, and the drive stores it. -/
theorem run_receiving (hin : d.InTime) (hcap : a.diskSectors ≤ d.capacity) {s : Sector} {lba : Nat}
    (hphase : d.phase = .receiving lba []) :
    ∃ d', run bus (writeWords ataData s.words >>= fun _ => ataWaitNotBusy >>= fun ok =>
      if (!ok) = true then pure false else Pio.transferOk) d = (!d.faults d.log.length, d') ∧ d'.Serves a ∧
        d'.view a = if d.faults d.log.length = true then (d.view a).record (.write lba s false)
          else { (d.view a).record (.write lba s true) with disk := Function.update d.disk lba s } := by
  have hne : s.words ≠ [] := List.ne_nil_of_length_pos (by rw [Sector.length_words]; omega)
  have hfin := (d.start (.store lba s.words)).finish_store lba s.words
  rw [run_bind, run_writeWords hne hphase (by rw [List.length_nil, Sector.length_words]), List.nil_append, run_bind,
    ataWaitNotBusy]
  refine ⟨(d.start (.store lba s.words)).finish (.store lba s.words), ?_⟩
  rw [Sector.ofWords_words] at hfin
  by_cases hf : d.faults d.log.length = true
  · rw [if_pos
      (show (d.start (.store lba s.words)).faults (d.start (.store lba s.words)).log.length = true from hf)] at hfin
    have hready : ((d.start (.store lba s.words)).finish (.store lba s.words)).Ready :=
      ready_of_error (e := d.start (.store lba s.words)) (by rw [hfin])
    rw [run_notBusy_busy rfl (hin _) hready.status, hf, if_pos rfl]
    refine ⟨run_transferOk_error (e := d.start (.store lba s.words)) (by rw [hfin]), ⟨hready, ?_, ?_⟩, ?_⟩ <;> rw [hfin]
    · exact hin
    · exact hcap
    · rfl
  · rw [if_neg
      (show ¬ (d.start (.store lba s.words)).faults (d.start (.store lba s.words)).log.length = true from hf)] at hfin
    have hidle : ((d.start (.store lba s.words)).finish (.store lba s.words)).phase = .idle := by rw [hfin]
    have hready : ((d.start (.store lba s.words)).finish (.store lba s.words)).Ready := Or.inl hidle
    rw [run_notBusy_busy rfl (hin _) hready.status, if_neg hf, eq_false_of_ne_true hf]
    refine ⟨run_transferOk_idle hidle, ⟨hready, ?_, ?_⟩, ?_⟩ <;> rw [hfin]
    · exact hin
    · exact hcap
    · rfl

/-- A read at the ports is a read of the sector. -/
theorem run_ataReadSector (h : d.Serves a) (lba : Nat) :
    ∃ d', run bus (Pio.ataReadSector a lba) d = ((ataReadSector (d.view a) lba).1, d') ∧ d'.Serves a ∧
      d'.view a = (ataReadSector (d.view a) lba).2 := by
  by_cases hacc : (d.view a).accepts lba = true
  swap
  · rw [ataReadSector, if_neg hacc]
    exact ⟨d, (run_refused hacc fun _ => 0).1, h, rfl⟩
  have hcap : lba < d.capacity := (accepts_view.1 hacc).2.1.trans_le h.capacity
  have hfin := AtaDrive.finish_read (d := d.begun lba (.read lba)) hcap
  rw [(run_accepted h hacc fun _ => 0).1, ataReadSector, if_pos hacc, readRest, run_bind, ataWaitDrq]
  by_cases hf : d.faults d.log.length = true
  · rw [if_pos (show (d.begun lba (.read lba)).faults (d.begun lba (.read lba)).log.length = true from hf)] at hfin
    rw [if_pos (show (d.view a).faults (d.view a).log.length = true from hf),
      run_drq_busy (b := false) rfl (h.inTime _) (by rw [hfin]; exact drqAnswer_error), hfin]
    exact ⟨_, rfl, ⟨ready_of_error (e := d.begun lba (.read lba)) rfl, h.inTime, h.capacity⟩, rfl⟩
  · rw [if_neg (show ¬ (d.begun lba (.read lba)).faults (d.begun lba (.read lba)).log.length = true from hf)] at hfin
    rw [if_neg (show ¬ (d.view a).faults (d.view a).log.length = true from hf),
      run_drq_busy (b := true) rfl (h.inTime _) (by rw [hfin]; exact drqAnswer_data), hfin]
    simp only [Bool.not_true, Bool.false_eq_true, if_false]
    rw [run_sending (Sector.length_words _) rfl, Sector.ofWords_words]
    exact ⟨_, rfl, ⟨Or.inl rfl, h.inTime, h.capacity⟩, rfl⟩

theorem run_ataWriteSector (h : d.Serves a) (lba : Nat) (buffer : Sector) :
    ∃ d', run bus (Pio.ataWriteSector a lba buffer) d = ((ataWriteSector (d.view a) lba buffer).1, d') ∧ d'.Serves a ∧
      d'.view a = (ataWriteSector (d.view a) lba buffer).2 := by
  by_cases hacc : (d.view a).accepts lba = true
  swap
  · rw [ataWriteSector, if_neg hacc]
    exact ⟨d, (run_refused hacc buffer).2, h, rfl⟩
  have hcap : lba < d.capacity := (accepts_view.1 hacc).2.1.trans_le h.capacity
  have hfin : (d.begun lba (.accept lba)).finish (.accept lba) =
    { d.begun lba (.accept lba) with phase := .receiving lba [] } :=
    if_neg (not_le.2 hcap)
  rw [(run_accepted h hacc buffer).2, ataWriteSector, if_pos hacc, writeRest, run_bind, ataWaitDrq,
    run_drq_busy (b := true) rfl (h.inTime _) (by rw [hfin]; exact drqAnswer_data), hfin]
  simp only [Bool.not_true, Bool.false_eq_true, if_false]
  obtain ⟨d', hrun, hserves, hview⟩ := run_receiving (a := a) (s := buffer)
    (d := { d.begun lba (.accept lba) with phase := .receiving lba [] }) h.inTime h.capacity rfl
  refine ⟨d', hrun.trans (Prod.ext ?_ rfl), hserves, hview.trans ?_⟩ <;> by_cases hf : d.faults d.log.length = true
  · rw [if_pos (show (d.view a).faults (d.view a).log.length = true from hf)]
    exact congrArg (!·) hf
  · rw [if_neg (show ¬ (d.view a).faults (d.view a).log.length = true from hf)]
    exact congrArg (!·) (eq_false_of_ne_true hf)
  · rw [if_pos (show (d.view a).faults (d.view a).log.length = true from hf)]
    exact if_pos hf
  · rw [if_neg (show ¬ (d.view a).faults (d.view a).log.length = true from hf)]
    exact if_neg hf

/-! ## The size of the drive -/

theorem length_identifyWords (d : AtaDrive) : d.identifyWords.length = 256 := by
  rw [identifyWords, List.length_map, List.length_range]

theorem getD_identifyWords (d : AtaDrive) : d.identifyWords.getD 60 0 = BitVec.ofNat 16 d.capacity ∧
    d.identifyWords.getD 61 0 = BitVec.ofNat 16 (d.capacity / 2 ^ 16) := by
  have hget : ∀ k < 256, d.identifyWords.getD k 0 = if k = 60 then BitVec.ofNat 16 d.capacity
      else if k = 61 then BitVec.ofNat 16 (d.capacity / 2 ^ 16) else d.identity k := by
    intro k hk
    rw [identifyWords, List.getD_eq_getElem?_getD, List.getElem?_map, List.getElem?_range hk,
      Option.map_some, Option.getD_some]
  exact ⟨(hget 60 (by omega)).trans (if_pos rfl), (hget 61 (by omega)).trans (if_neg (by decide))⟩

theorem append_halves {c : Nat} (h : c < 2 ^ 32) :
    (BitVec.ofNat 16 (c / 2 ^ 16) ++ BitVec.ofNat 16 c : BitVec 32).toNat = c := by
  have := BitVec.toNat_append (BitVec.ofNat 16 (c / 2 ^ 16)) (BitVec.ofNat 16 c)
  rw [← Nat.shiftLeft_add_eq_or_of_lt (BitVec.isLt _), BitVec.toNat_ofNat, BitVec.toNat_ofNat, Nat.shiftLeft_eq] at this
  refine this.trans ?_
  omega

/-- The drive when IDENTIFY has begun. -/
def asked (d : AtaDrive) : AtaDrive := ({ d with regs := ⟨0xE0, 0, 0, 0, 0⟩ } : AtaDrive).start .identify

theorem out_identify (h : d.Ready) :
    bus.out ({ d with regs := ⟨0xE0, 0, 0, 0, 0⟩ } : AtaDrive) (.byte ataCommand ataCmdIdentify) = d.asked := by
  have hmaster : ¬ ((0xE0 : Byte) &&& 0x10 ≠ 0) := by decide
  have hread : ¬ (ataCmdIdentify = ataCmdRead) := by decide
  have hwrite : ¬ (ataCmdIdentify = ataCmdWrite) := by decide
  refine (out_command (d := { d with regs := ⟨0xE0, 0, 0, 0, 0⟩ }) h.not_busy).trans ?_
  rw [command, if_neg hmaster, if_neg hread, if_neg hwrite, if_pos rfl]
  rfl

/-- The two looks at the status before the words are read. -/
theorem run_identify_wait (ht : d.InTime) : ∃ status d₁, status ≠ 0 ∧ d.asked.readStatus = (status, d₁) ∧
    run bus ataWaitNotBusy d₁ = (true, d.asked.finish .identify) := by
  have hbsy : (d.asked.finish .identify).phase.status &&& ataSrBsy = 0 := by
    show (0x58 : Byte) &&& ataSrBsy = 0
    decide
  cases hd : d.delay d.jobs with
  | zero =>
    refine ⟨0x58, d.asked.finish .identify, by decide, ?_, ?_⟩
    · exact readStatus_busy_zero (d := d.asked) (congrArg (DrivePhase.busy · .identify) hd)
    · rw [ataWaitNotBusy, show ataTimeout = 999999 + 1 from rfl, run_notBusy]
      exact if_pos hbsy
  | succ left =>
    refine ⟨0x80, _, by decide, readStatus_busy_succ (d := d.asked) (congrArg (DrivePhase.busy · .identify) hd), ?_⟩
    have hlt := ht d.jobs
    rw [← finish_phase d.asked (.busy left .identify)] at hbsy ⊢
    exact run_notBusy_busy rfl (by omega) hbsy

theorem run_ataInit (h : d.Ready) (ht : d.InTime) (h0 : d.capacity ≠ 0) (hc : d.capacity < 2 ^ 32) :
    run bus Pio.ataInit d = ((true, ⟨true, d.capacity⟩), { d.asked with phase := .idle }) := by
  have hb := h.not_busy
  obtain ⟨status, d₁, hstatus, hfirst, hwait⟩ := run_identify_wait ht
  have hne : d.asked.identifyWords ≠ [] := List.ne_nil_of_length_pos (by rw [length_identifyWords]; omega)
  have hwords := run_readWords (d := d.asked.finish .identify) hne rfl
  rw [length_identifyWords] at hwords
  obtain ⟨hlow, hhigh⟩ := d.asked.getD_identifyWords
  have hsize : (d.asked.identifyWords.getD 61 0 ++ d.asked.identifyWords.getD 60 0 : BitVec 32).toNat = d.capacity := by
    rw [hlow, hhigh]
    exact append_halves hc
  have hsecond : (d.asked.finish .identify).readStatus = (0x58, d.asked.finish .identify) := rfl
  have hregs : ((((d.regs.write (.byte ataDrive 0xE0)).write (.byte ataSeccount0 0)).write (.byte ataLba0 0)).write
      (.byte ataLba1 0)).write (.byte ataLba2 0) = ⟨0xE0, 0, 0, 0, 0⟩ := rfl
  have herr : ¬ ((0x58 : Byte) &&& ataSrErr ≠ 0) := by decide
  have hdf : ¬ ((0x58 : Byte) &&& ataSrDf ≠ 0) := by decide
  have hdrq : ¬ ((0x58 : Byte) &&& ataSrDrq = 0) := by decide
  unfold Pio.ataInit
  simp only [run_bind, run_writeByte, run_ataDelay]
  rw [out_register hb d.regs (by decide), out_register hb _ (by decide), out_register hb _ (by decide),
    out_register hb _ (by decide), out_register hb _ (by decide), hregs, out_identify h,
    run_readByte, inb_status, hfirst]
  simp only [if_neg hstatus, run_bind, hwait, Bool.not_true, Bool.false_eq_true, if_false,
    run_readByte, inb_status, hsecond, if_neg herr, if_neg hdf, if_neg hdrq, hwords, run_pure]
  refine Prod.ext ?_ rfl
  show (if (d.asked.identifyWords.getD 61 0 ++ d.asked.identifyWords.getD 60 0 : BitVec 32).toNat = 0 then _ else _) = _
  rw [hsize, if_neg h0]

end AtaDrive

/-! ## The filesystem at the ports -/

/-- The sector requests of the filesystem through `ata_read_sector` and `ata_write_sector`, the driver
at the ports of the drive. -/
def portDisk : Device (AtaDriver × AtaDrive) Sector where
  read x lba := ((run AtaDrive.bus (Pio.ataReadSector x.1 lba) x.2).1, x.1,
    (run AtaDrive.bus (Pio.ataReadSector x.1 lba) x.2).2)
  write x lba buffer := ((run AtaDrive.bus (Pio.ataWriteSector x.1 lba buffer) x.2).1, x.1,
    (run AtaDrive.bus (Pio.ataWriteSector x.1 lba buffer) x.2).2)

theorem portDisk_hom : Prog.Hom portDisk ata (fun x => x.2.Serves x.1) (fun x => x.2.view x.1) := by
  constructor
  · rintro ⟨a, d⟩ lba h
    obtain ⟨d', hrun, hserves, hview⟩ := AtaDrive.run_ataReadSector h lba
    simp only [portDisk, hrun]
    exact ⟨rfl, hview, hserves⟩
  · rintro ⟨a, d⟩ lba buffer h
    obtain ⟨d', hrun, hserves, hview⟩ := AtaDrive.run_ataWriteSector h lba buffer
    simp only [portDisk, hrun]
    exact ⟨rfl, hview, hserves⟩

/-- After `ata_init`, a program of sector requests does at the ports what it does on the sector-level
drive: the same result, the same memory, the same sectors written. -/
theorem portDisk_run {d : AtaDrive} (hready : d.Ready) (ht : d.InTime) (h0 : d.capacity ≠ 0) (hc : d.capacity < 2 ^ 32)
    {σ α : Type} (p : Prog σ Sector α) (m : σ) :
    let init := run AtaDrive.bus Pio.ataInit d
    let ports := Prog.run portDisk p ⟨m, init.1.2, init.2⟩
    let sectors := Prog.run ata p ⟨m, true, d.capacity, d.disk, d.faults, d.log⟩
    init.1.1 = true ∧ ports.1 = sectors.1 ∧ ports.2.mem = sectors.2.mem ∧
      ports.2.dev.2.disk = sectors.2.dev.disk ∧ ports.2.dev.2.log = sectors.2.dev.log := by
  simp only [AtaDrive.run_ataInit hready ht h0 hc]
  have hserves : ({ d.asked with phase := .idle } : AtaDrive).Serves ⟨true, d.capacity⟩ := ⟨Or.inl rfl, ht, le_rfl⟩
  obtain ⟨h1, h2, h3, -⟩ := Prog.run_hom portDisk_hom p
    ⟨m, ((⟨true, d.capacity⟩, { d.asked with phase := .idle }) : AtaDriver × AtaDrive)⟩ hserves
  exact ⟨trivial, h1, h2, congrArg Ata.disk h3, congrArg Ata.log h3⟩

/-- A drive of 64 sectors whose third request fails. -/
def slowDrive : AtaDrive where
  capacity := 64
  disk lba _ := BitVec.ofNat 8 lba
  identity _ := 0
  faults n := n == 2
  deviceFault _ := false
  delay n := n % 5
  log := []
  jobs := 0
  regs := ⟨0, 0, 0, 0, 0⟩
  phase := .failed 0x51

theorem portDisk_run_slow :
    let init := run AtaDrive.bus Pio.ataInit slowDrive
    let ports := Prog.run portDisk (Prog.readBlock 3 >>= fun r => Prog.writeBlock 7 (r.getD fun _ => 0))
      ⟨(), init.1.2, init.2⟩
    ports.1 = true ∧ ports.2.dev.2.disk 7 = slowDrive.disk 3 := by
  have hready : slowDrive.Ready := Or.inr ⟨0x51, rfl, by decide⟩
  have htime : slowDrive.InTime := fun n => (Nat.mod_lt n (by decide)).trans (by decide)
  obtain ⟨-, h1, -, h2, -⟩ := portDisk_run hready htime (by decide) (by decide)
    (Prog.readBlock 3 >>= fun r => Prog.writeBlock 7 (r.getD fun _ => 0)) ()
  exact ⟨h1, congrFun h2 7⟩

end SpectreOS
