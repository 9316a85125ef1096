/-
The receive ring of the RTL8139 driver (rtl8139.c) against the card that fills it: what the driver
hands over, call by call, is what a queue of frames would, wherever in the buffer the packets lie
and however receiving and polling interleave.
-/
import SpectreOS.Lib.Trace
import SpectreOS.Lib.Traced
import SpectreOS.Net.Stack

namespace SpectreOS

open BlockIO Traced Trace

abbrev rxBufferLen : Nat := 8192
abbrev rxBufferPadding : Nat := 1792
abbrev rxBufferTotal : Nat := rxBufferLen + rxBufferPadding

abbrev crBufe : Byte := 0x01
abbrev crTe : Byte := 0x04
abbrev crRe : Byte := 0x08

/-! ## The driver -/

/-- The static variables of the driver that receiving uses. -/
structure Rtl8139 where
  present : Bool
  rxBuffer : Block rxBufferTotal
  rxOffset : BitVec 32

/-- What `rtl8139_init` leaves once it has found the card. -/
def rtl8139Init : Rtl8139 := { present := true, rxBuffer := fun _ => 0, rxOffset := 0 }

/-- What the caller of a poll gets: the return value, and the bytes stored from `buffer[0]` on. -/
structure Handover where
  length : BitVec 32
  stored : List Byte
  deriving DecidableEq

def Handover.nothing : Handover := { length := 0, stored := [] }

/-- A poll: what it hands over, what it leaves in the driver and what it writes to CAPR. -/
structure PollResult where
  handover : Handover
  driver : Rtl8139
  capr : Option Word16

/-- A read of `rx_buffer`; the indices that are read are recorded. -/
def readRx (rx : Block rxBufferTotal) (index : Nat) : Traced Nat Byte := do
  emit [index]
  return rx.slice index 0

/-- Two bytes of `rx_buffer`, the low one first. -/
def readRx16 (rx : Block rxBufferTotal) (index : BitVec 32) : Traced Nat Word16 := do
  let lo ← readRx rx index.toNat
  let hi ← readRx rx (index + 1).toNat
  return lo.setWidth 16 ||| hi.setWidth 16 <<< 8

/-- The copying loop. -/
def copyRx (rx : Block rxBufferTotal) (offset copyLength : BitVec 32) : Traced Nat (List Byte) := do
  let index (i : Nat) := (offset + 4 + BitVec.ofNat 32 i).toNat % rxBufferTotal
  emit ((List.range copyLength.toNat).map index)
  return (List.range copyLength.toNat).map fun i => rx.slice (index i) 0

/-- The offset after a packet, as the driver computes it. -/
def nextOffset (offset : BitVec 32) (packetLength : Word16) : BitVec 32 :=
  (offset + 4 + packetLength.setWidth 32 + 3 &&& ~~~ 3#32) % BitVec.ofNat 32 rxBufferLen

/-- `rtl8139_poll_receive`: `cr` is what the command register reads, `buffer` whether the pointer is
not null. -/
def rtl8139PollReceive (d : Rtl8139) (cr : Byte) (buffer : Bool) (maxLength : BitVec 32) : Traced Nat PollResult :=
  let empty : PollResult := { handover := .nothing, driver := d, capr := none }
  if !d.present || !buffer then return empty
  else if cr &&& crBufe ≠ 0 then return empty
  else do
    let status ← readRx16 d.rxBuffer d.rxOffset
    let packetLength ← readRx16 d.rxBuffer (d.rxOffset + 2)
    if status &&& 1 = 0 ∨ packetLength.toNat < 4 ∨ packetLength.toNat > ethMaxFrame + 4 then return empty
    else do
      let payloadLength := packetLength.setWidth 32 - 4
      let copyLength := if payloadLength > maxLength then maxLength else payloadLength
      let stored ← copyRx d.rxBuffer d.rxOffset copyLength
      let rxOffset := nextOffset d.rxOffset packetLength
      return {
        handover := { length := copyLength, stored }
        driver := { d with rxOffset }
        capr := some ((rxOffset - 16).setWidth 16) }

/-! ## The card -/

/-- A packet as the card stores it: received without error, of a length that Ethernet allows. -/
structure Packet where
  status : Word16
  frame : List Byte
  crc : Vector Byte 4
  rok : status &&& 1 ≠ 0
  fits : frame.length ≤ ethMaxFrame

/-- The length field of the header counts the CRC. -/
def Packet.length (p : Packet) : Nat := p.frame.length + 4

/-- The header, the frame and the CRC. -/
def Packet.image (p : Packet) : List Byte :=
  [p.status.extractLsb' 0 8, p.status.extractLsb' 8 8,
    (BitVec.ofNat 16 p.length).extractLsb' 0 8, (BitVec.ofNat 16 p.length).extractLsb' 8 8] ++
  (p.frame ++ p.crc.toList)

/-- The next 4-byte boundary after a packet, in the ring. -/
def Packet.boundary (p : Packet) (start : Nat) : Nat := (start + 4 + p.length + 3) / 4 * 4 % rxBufferLen

/-- The card: where it writes next, and the packets that have not been read, with where they start. -/
structure Card where
  writeOffset : Nat
  pending : List (Nat × Packet)

def Card.reset : Card := { writeOffset := 0, pending := [] }

/-- The command register: BUFE says that no packet is pending. -/
def Card.commandRegister (card : Card) : Byte :=
  if card.pending.isEmpty then crTe ||| crRe ||| crBufe else crTe ||| crRe

/-- Storing the packet would write over bytes that have not been read. -/
def Card.Overruns (card : Card) (p : Packet) : Prop :=
  ∃ q ∈ card.pending, card.writeOffset < q.1 + q.2.image.length ∧ q.1 < card.writeOffset + p.image.length

instance (card : Card) (p : Packet) : Decidable (card.Overruns p) :=
  inferInstanceAs (Decidable (∃ q ∈ card.pending, card.writeOffset < q.1 + q.2.image.length ∧
    q.1 < card.writeOffset + p.image.length))

/-- The buffer after the card has stored a packet, past the end of the ring if it has to. -/
def Card.store (card : Card) (rx : Block rxBufferTotal) (p : Packet) : Block rxBufferTotal :=
  rx.patch card.writeOffset p.image.length (p.image.getD · 0)

def Card.receive (card : Card) (p : Packet) : Card :=
  { writeOffset := p.boundary card.writeOffset, pending := card.pending ++ [(card.writeOffset, p)] }

/-- A write of CAPR, the read pointer less 16: what lies before the read pointer has been read. -/
def Card.writeCapr (card : Card) (capr : Word16) : Card :=
  { card with pending := card.pending.dropWhile fun q => q.1 ≠ (capr + 16).toNat }

/-- Where the oldest unread packet starts; with none unread, where the next will. -/
def Card.readOffset (card : Card) : Nat := (card.pending.head?.map Prod.fst).getD card.writeOffset

/-! ## Runs -/

/-- The driver and the card, with what the polls so far handed over and read. -/
structure Receiver where
  driver : Rtl8139
  card : Card
  handovers : List Handover
  reads : List Nat

def Receiver.start : Receiver := { driver := rtl8139Init, card := .reset, handovers := [], reads := [] }

inductive RxEvent where
  | receive (p : Packet)
  | poll (buffer : Bool) (maxLength : BitVec 32)

/-- One event; a packet is not received where it would overrun what has not been read. -/
def Receiver.step (r : Receiver) : RxEvent → Option Receiver
  | .receive p =>
    if r.card.Overruns p then none
    else some { r with
      driver := { r.driver with rxBuffer := r.card.store r.driver.rxBuffer p }
      card := r.card.receive p }
  | .poll buffer maxLength =>
    let result := rtl8139PollReceive r.driver r.card.commandRegister buffer maxLength
    some {
      driver := result.value.driver
      card := result.value.capr.elim r.card r.card.writeCapr
      handovers := r.handovers ++ [result.value.handover]
      reads := r.reads ++ result.events }

/-- The receiver as its users see it: the frames that arrived, how many of them have been taken, and
what the polls handed over. -/
structure FrameQueue where
  received : List (List Byte)
  taken : Nat
  handovers : List Handover

def FrameQueue.start : FrameQueue := { received := [], taken := 0, handovers := [] }

/-- A frame cut to `max_length`. -/
def handoverOf (frame : List Byte) (maxLength : BitVec 32) : Handover :=
  { length := BitVec.ofNat 32 (min frame.length maxLength.toNat), stored := frame.take maxLength.toNat }

/-- Each poll takes the next frame that has not been taken, if there is one. -/
def FrameQueue.step (q : FrameQueue) : RxEvent → FrameQueue
  | .receive p => { q with received := q.received ++ [p.frame] }
  | .poll buffer maxLength =>
    match if buffer then q.received[q.taken]? else none with
    | none => { q with handovers := q.handovers ++ [.nothing] }
    | some frame => { q with taken := q.taken + 1, handovers := q.handovers ++ [handoverOf frame maxLength] }

/-! ## Offsets and words -/

theorem toNat_and_not_three (x : BitVec 32) : (x &&& ~~~ 3#32).toNat = x.toNat / 4 * 4 := by
  have hshift : x &&& ~~~ 3#32 = x >>> 2 <<< 2 := by
    apply BitVec.eq_of_getLsbD_eq
    intro i hi
    simp only [BitVec.getLsbD_and, BitVec.getLsbD_not, BitVec.getLsbD_shiftLeft,
      BitVec.getLsbD_ushiftRight, hi, decide_true, Bool.true_and]
    by_cases h : i < 2
    · interval_cases i <;> simp
    · have h3 : (3#32).getLsbD i = false := by
        rw [BitVec.getLsbD_ofNat,
          Nat.testBit_lt_two_pow (lt_of_lt_of_le (by decide) (Nat.pow_le_pow_right (by decide) (not_lt.1 h))),
          Bool.and_false]
      simp [h, h3, Nat.add_sub_cancel' (not_lt.1 h)]
  have := x.isLt
  rw [hshift]
  simp only [BitVec.toNat_shiftLeft, BitVec.toNat_ushiftRight, Nat.shiftRight_eq_div_pow, Nat.shiftLeft_eq]
  omega

theorem toNat_nextOffset {offset : BitVec 32} {p : Packet} (h : offset.toNat < rxBufferLen) :
    (nextOffset offset (BitVec.ofNat 16 p.length)).toNat = p.boundary offset.toNat := by
  have hfits : p.frame.length ≤ 1518 := p.fits
  have hlength : p.length = p.frame.length + 4 := rfl
  have hlt : offset.toNat < 8192 := h
  have hsum : (offset + 4 + (BitVec.ofNat 16 p.length).setWidth 32 + 3).toNat = offset.toNat + 4 + p.length + 3 := by
    simp only [BitVec.toNat_add, BitVec.toNat_setWidth, BitVec.toNat_ofNat, show (4 : BitVec 32).toNat = 4 from rfl,
      show (3 : BitVec 32).toNat = 3 from rfl]
    omega
  rw [nextOffset, BitVec.toNat_umod, toNat_and_not_three, hsum]
  rfl

/-- The driver's CAPR write says where it reads next. -/
theorem toNat_capr {offset : BitVec 32} (h : offset.toNat < rxBufferLen) :
    (((offset - 16).setWidth 16 : Word16) + 16).toNat = offset.toNat := by
  have hlt : offset.toNat < 8192 := h
  simp only [BitVec.toNat_add, BitVec.toNat_setWidth, BitVec.toNat_sub, show (16 : BitVec 32).toNat = 16 from rfl,
    show (16 : Word16).toNat = 16 from rfl]
  omega

theorem boundary_lt (p : Packet) (start : Nat) : p.boundary start < rxBufferLen := Nat.mod_lt _ (by decide)

theorem boundary_aligned (p : Packet) (start : Nat) : 4 ∣ p.boundary start :=
  (Nat.dvd_mod_iff (by decide)).2 (Nat.dvd_mul_left 4 _)

theorem boundary_ne (p : Packet) {start : Nat} (h : start < rxBufferLen) : p.boundary start ≠ start := by
  have hfits : p.frame.length ≤ 1518 := p.fits
  have hlength : p.length = p.frame.length + 4 := rfl
  have hlt : start < 8192 := h
  unfold Packet.boundary
  rw [show rxBufferLen = 8192 from rfl]
  omega

theorem word_of_bytes (w : Word16) : (w.extractLsb' 0 8).setWidth 16 ||| (w.extractLsb' 8 8).setWidth 16 <<< 8 = w := by
  apply BitVec.eq_of_getLsbD_eq
  intro i hi
  by_cases h : i < 8
  · simp [h, hi]
  · simp [h, hi, Nat.add_sub_cancel' (not_lt.1 h), show i - 8 < 8 by omega]

/-! ## The buffer -/

/-- The buffer holds the packet from `start` on. -/
def HoldsPacket (rx : Block rxBufferTotal) (start : Nat) (p : Packet) : Prop :=
  ∀ k < p.image.length, rx.slice start k = p.image.getD k 0

theorem length_image (p : Packet) : p.image.length = p.frame.length + 8 := by simp [Packet.image]

theorem image_frame (p : Packet) {k : Nat} (h : k < p.frame.length) : p.image.getD (4 + k) 0 = p.frame.getD k 0 := by
  rw [Packet.image, List.getD_eq_getElem?_getD, List.getElem?_append_right (by simp),
    List.getElem?_append_left (by simpa using h), List.getD_eq_getElem?_getD]
  simp

theorem slice_add (rx : Block rxBufferTotal) (start k j : Nat) : rx.slice (start + k) j = rx.slice start (k + j) := by
  simp only [Block.slice, Nat.add_assoc]

theorem holds_store {card : Card} (rx : Block rxBufferTotal) (p : Packet) (h : card.writeOffset < rxBufferLen) :
    HoldsPacket (card.store rx p) card.writeOffset p := by
  intro k hk
  have hfits : p.frame.length ≤ 1518 := p.fits
  have hlt : card.writeOffset < 8192 := h
  have hlength := length_image p
  rw [Card.store,
    Block.slice_patch_inside _ _ (by omega) (by omega) (by rw [show rxBufferTotal = 9984 from rfl]; omega),
    Nat.add_sub_cancel_left]

/-- Storing a packet leaves the unread ones alone. -/
theorem HoldsPacket.store {card : Card} {rx : Block rxBufferTotal} {p : Packet}
    (hno : ¬ card.Overruns p) {w : Nat × Packet} (hw : w ∈ card.pending) (h : HoldsPacket rx w.1 w.2) :
    HoldsPacket (card.store rx p) w.1 w.2 := by
  intro k hk
  have hdisjoint : ¬ (card.writeOffset < w.1 + w.2.image.length ∧ w.1 < card.writeOffset + p.image.length) :=
    fun hover => hno ⟨w, hw, hover⟩
  rw [Card.store, Block.slice_patch_outside _ _ (by omega)]
  exact h k hk

/-! ## A poll -/

theorem value_readRx16 (rx : Block rxBufferTotal) {index : BitVec 32} (h : index.toNat < rxBufferTotal) :
    (readRx16 rx index).value =
      (rx.slice index.toNat 0).setWidth 16 ||| (rx.slice index.toNat 1).setWidth 16 <<< 8 := by
  have hlt : index.toNat < 9984 := h
  have hnext : (index + 1).toNat = index.toNat + 1 := by
    rw [BitVec.toNat_add, show (1 : BitVec 32).toNat = 1 from rfl]
    omega
  rw [← slice_add rx index.toNat 1 0, ← hnext]
  rfl

/-- The two header words of a packet. -/
theorem HoldsPacket.header {rx : Block rxBufferTotal} {offset : BitVec 32} {p : Packet}
    (hlt : offset.toNat < rxBufferLen) (h : HoldsPacket rx offset.toNat p) :
    (readRx16 rx offset).value = p.status ∧ (readRx16 rx (offset + 2)).value = BitVec.ofNat 16 p.length := by
  have hlt : offset.toNat < 8192 := hlt
  have htwo : (offset + 2).toNat = offset.toNat + 2 := by
    rw [BitVec.toNat_add, show (2 : BitVec 32).toNat = 2 from rfl]
    omega
  have hlength := length_image p
  constructor
  · rw [value_readRx16 rx (by rw [show rxBufferTotal = 9984 from rfl]; omega), h 0 (by omega), h 1 (by omega)]
    exact word_of_bytes p.status
  · rw [value_readRx16 rx (by rw [htwo, show rxBufferTotal = 9984 from rfl]; omega), htwo, slice_add, slice_add,
      h 2 (by omega), h 3 (by omega)]
    exact word_of_bytes _

/-- Copying from behind the header copies the frame. -/
theorem HoldsPacket.copy {rx : Block rxBufferTotal} {offset : BitVec 32} {p : Packet} (hlt : offset.toNat < rxBufferLen)
    (h : HoldsPacket rx offset.toNat p) {copyLength : BitVec 32} (hle : copyLength.toNat ≤ p.frame.length) :
    (copyRx rx offset copyLength).value = p.frame.take copyLength.toNat := by
  have hlt : offset.toNat < 8192 := hlt
  have hfits : p.frame.length ≤ 1518 := p.fits
  have hlength := length_image p
  refine List.ext_getElem (by simp [copyRx, hle]) fun i hi _ => ?_
  have hi : i < copyLength.toNat := by simpa [copyRx] using hi
  have hindex : (offset + 4 + BitVec.ofNat 32 i).toNat % rxBufferTotal = offset.toNat + (4 + i) := by
    simp only [BitVec.toNat_add, BitVec.toNat_ofNat, show (4 : BitVec 32).toNat = 4 from rfl,
      show rxBufferTotal = 9984 from rfl]
    omega
  have hbyte : rx.slice (offset.toNat + (4 + i)) 0 = p.frame.getD i 0 := by
    rw [slice_add, Nat.add_zero, h _ (by omega), image_frame p (by omega)]
  simp only [copyRx, value_bind, value_pure, List.getElem_map, List.getElem_range, hindex, hbyte, List.getElem_take]
  rw [List.getD_eq_getElem?_getD, List.getElem?_eq_getElem (by omega), Option.getD_some]

/-- A poll with a packet waiting hands over its frame and moves past it. -/
theorem value_poll {d : Rtl8139} {cr : Byte} {p : Packet} (hpresent : d.present = true) (hcr : cr &&& crBufe = 0)
    (hlt : d.rxOffset.toNat < rxBufferLen) (h : HoldsPacket d.rxBuffer d.rxOffset.toNat p) (maxLength : BitVec 32) :
    (rtl8139PollReceive d cr true maxLength).value =
      { handover := handoverOf p.frame maxLength
        driver := { d with rxOffset := nextOffset d.rxOffset (BitVec.ofNat 16 p.length) }
        capr := some ((nextOffset d.rxOffset (BitVec.ofNat 16 p.length) - 16).setWidth 16) } := by
  obtain ⟨hstatus, hlength⟩ := h.header hlt
  have hfits : p.frame.length ≤ 1518 := p.fits
  have hplus : p.length = p.frame.length + 4 := rfl
  have hpayload : (BitVec.ofNat 16 p.length).setWidth 32 - 4 = BitVec.ofNat 32 p.frame.length := by
    apply BitVec.eq_of_toNat_eq
    simp only [BitVec.toNat_sub, BitVec.toNat_setWidth, BitVec.toNat_ofNat, show (4 : BitVec 32).toNat = 4 from rfl]
    omega
  have hcopy : (if (BitVec.ofNat 16 p.length).setWidth 32 - 4 > maxLength then maxLength
      else (BitVec.ofNat 16 p.length).setWidth 32 - 4) = BitVec.ofNat 32 (min p.frame.length maxLength.toNat) := by
    have := maxLength.isLt
    apply BitVec.eq_of_toNat_eq
    rw [hpayload, BitVec.toNat_ofNat]
    split
    · rename_i hcut
      rw [gt_iff_lt, BitVec.lt_def, BitVec.toNat_ofNat] at hcut
      omega
    · rename_i hcut
      rw [gt_iff_lt, BitVec.lt_def, BitVec.toNat_ofNat] at hcut
      rw [BitVec.toNat_ofNat]
      omega
  have hmin : (BitVec.ofNat 32 (min p.frame.length maxLength.toNat)).toNat = min p.frame.length maxLength.toNat := by
    rw [BitVec.toNat_ofNat]
    omega
  have hok : ¬ (p.status &&& 1 = 0 ∨ (BitVec.ofNat 16 p.length).toNat < 4 ∨
      (BitVec.ofNat 16 p.length).toNat > ethMaxFrame + 4) := by
    rw [BitVec.toNat_ofNat, show ethMaxFrame = 1518 from rfl]
    rintro (hrok | hshort | hlong)
    · exact p.rok hrok
    · omega
    · omega
  rw [rtl8139PollReceive, if_neg (by simp [hpresent]), if_neg (not_not.2 hcr)]
  simp only [value_bind, hstatus, hlength, if_neg hok, value_pure, hcopy]
  have htake : p.frame.take (min p.frame.length maxLength.toNat) = p.frame.take maxLength.toNat :=
    List.take_eq_take_iff.2 (by omega)
  rw [h.copy hlt (by omega), hmin, htake]
  rfl

/-- A poll that finds no packet, or has no buffer, does nothing. -/
theorem value_poll_idle {d : Rtl8139} {cr : Byte} {buffer : Bool} (h : buffer = true → cr &&& crBufe ≠ 0)
    (maxLength : BitVec 32) :
    (rtl8139PollReceive d cr buffer maxLength).value = { handover := .nothing, driver := d, capr := none } := by
  rw [rtl8139PollReceive]
  split
  · rfl
  · rename_i hready
    rw [if_pos (h (by simp at hready; exact hready.2))]
    rfl

/-- Wherever the buffer is read, the index is one of its own. -/
theorem poll_reads {d : Rtl8139} (hlt : d.rxOffset.toNat < rxBufferLen) (ha : 4 ∣ d.rxOffset.toNat) (cr : Byte)
    (buffer : Bool) (maxLength : BitVec 32) :
    (rtl8139PollReceive d cr buffer maxLength).All (· < rxBufferTotal) := by
  have hlt : d.rxOffset.toNat < 8192 := hlt
  have hpair : ∀ index : BitVec 32, index.toNat ≤ 8190 → (readRx16 d.rxBuffer index).All (· < rxBufferTotal) := by
    intro index hindex
    have hnext : (index + 1).toNat = index.toNat + 1 := by
      rw [BitVec.toNat_add, show (1 : BitVec 32).toNat = 1 from rfl]
      omega
    simp only [readRx16, readRx, all_bind, all_emit, all_pure, List.mem_singleton, forall_eq, hnext,
      show rxBufferTotal = 9984 from rfl, and_true]
    omega
  have htwo : (d.rxOffset + 2).toNat = d.rxOffset.toNat + 2 := by
    rw [BitVec.toNat_add, show (2 : BitVec 32).toNat = 2 from rfl]
    omega
  refine all_ite (fun _ => all_pure _) fun _ => all_ite (fun _ => all_pure _) fun _ => ?_
  simp only [all_bind]
  refine ⟨hpair _ (by omega), hpair _ (by omega), all_ite (fun _ => all_pure _) fun _ => ?_⟩
  simp only [all_bind, all_pure, and_true, copyRx, all_emit, List.forall_mem_map]
  exact fun i _ => Nat.mod_lt _ (by decide)

/-! ## The two pointers -/

/-- From `start` on each packet begins at the boundary after the one before, and the card writes next
at the boundary after the last. -/
def Chained : Nat → List (Nat × Packet) → Nat → Prop
  | start, [], writeOffset => start = writeOffset
  | start, q :: rest, writeOffset => q.1 = start ∧ Chained (q.2.boundary start) rest writeOffset

theorem Chained.snoc {start writeOffset : Nat} {pending : List (Nat × Packet)} (h : Chained start pending writeOffset)
    (p : Packet) : Chained start (pending ++ [(writeOffset, p)]) (p.boundary writeOffset) := by
  induction pending generalizing start with
  | nil =>
    obtain rfl : start = writeOffset := h
    exact ⟨rfl, rfl⟩
  | cons q rest ih => exact ⟨h.1, ih h.2⟩

theorem Chained.writeOffset_lt {start writeOffset : Nat} {pending : List (Nat × Packet)}
    (h : Chained start pending writeOffset) (hlt : start < rxBufferLen) : writeOffset < rxBufferLen := by
  induction pending generalizing start with
  | nil =>
    obtain rfl : start = writeOffset := h
    exact hlt
  | cons q rest ih => exact ih h.2 (boundary_lt q.2 start)

theorem Chained.readOffset {card : Card} {start : Nat} (h : Chained start card.pending card.writeOffset) :
    card.readOffset = start := by
  unfold Card.readOffset
  cases hp : card.pending with
  | nil => exact (hp ▸ h : Chained start [] card.writeOffset).symm
  | cons q rest => exact (hp ▸ h : Chained start (q :: rest) card.writeOffset).1

/-- Once the driver has moved past a packet, the card counts it as read, and only it. -/
theorem Chained.writeCapr {card : Card} {offset : BitVec 32} {q : Nat × Packet} {rest : List (Nat × Packet)}
    (hp : card.pending = q :: rest) (hlt : offset.toNat < rxBufferLen)
    (h : Chained offset.toNat card.pending card.writeOffset) :
    card.writeCapr ((nextOffset offset (BitVec.ofNat 16 q.2.length) - 16).setWidth 16) =
    { card with pending := rest } := by
  have hnext : (nextOffset offset (BitVec.ofNat 16 q.2.length)).toNat = q.2.boundary offset.toNat :=
    toNat_nextOffset hlt
  rw [hp] at h
  rw [Card.writeCapr, toNat_capr (by rw [hnext]; exact boundary_lt _ _), hnext, hp]
  congr 1
  have hfirst : decide (q.1 ≠ q.2.boundary offset.toNat) = true := by
    rw [h.1]
    exact decide_eq_true (boundary_ne q.2 hlt).symm
  rw [List.dropWhile_cons, if_pos hfirst]
  cases rest with
  | nil => rfl
  | cons q' rest => exact List.dropWhile_cons_of_neg (by simp [h.2.1])

theorem commandRegister_bufe (card : Card) : card.commandRegister &&& crBufe = 0 ↔ card.pending ≠ [] := by
  unfold Card.commandRegister
  cases card.pending <;> simp

/-! ## The ring is a queue -/

/-- The driver reads where the card's oldest unread packet starts, the unread packets are whole in the
buffer, and they are the frames the queue has not given out. -/
structure Tracking (r : Receiver) (q : FrameQueue) : Prop where
  present : r.driver.present = true
  below : r.driver.rxOffset.toNat < rxBufferLen
  aligned : 4 ∣ r.driver.rxOffset.toNat
  chained : Chained r.driver.rxOffset.toNat r.card.pending r.card.writeOffset
  holds : ∀ w ∈ r.card.pending, HoldsPacket r.driver.rxBuffer w.1 w.2
  taken : q.taken ≤ q.received.length
  waiting : r.card.pending.map (·.2.frame) = q.received.drop q.taken
  handovers : r.handovers = q.handovers
  reads : ∀ index ∈ r.reads, index < rxBufferTotal

theorem tracking_start : Tracking .start .start where
  present := rfl
  below := by decide
  aligned := ⟨0, rfl⟩
  chained := rfl
  holds := by simp [Receiver.start, Card.reset]
  taken := Nat.le_refl 0
  waiting := rfl
  handovers := rfl
  reads := by simp [Receiver.start]

section Step

variable {r r' : Receiver} {q : FrameQueue}

theorem Tracking.receive {p : Packet} (h : Tracking r q) (hstep : r.step (.receive p) = some r') :
    Tracking r' (q.step (.receive p)) := by
  simp only [Receiver.step] at hstep
  split at hstep
  · cases hstep
  · rename_i hno
    cases hstep
    refine { h with chained := h.chained.snoc p, holds := ?_, taken := ?_, waiting := ?_ }
    · intro w hw
      rcases List.mem_append.1 hw with hold | hnew
      · exact (h.holds w hold).store hno hold
      · obtain rfl := List.mem_singleton.1 hnew
        exact holds_store _ p (h.chained.writeOffset_lt h.below)
    · have := h.taken
      simp only [FrameQueue.step, List.length_append]
      omega
    · simp only [Card.receive, FrameQueue.step, List.map_append, h.waiting, List.drop_append_of_le_length h.taken]
      rfl

theorem Tracking.poll {buffer : Bool} {maxLength : BitVec 32} (h : Tracking r q)
    (hstep : r.step (.poll buffer maxLength) = some r') : Tracking r' (q.step (.poll buffer maxLength)) := by
  have hreads : ∀ index ∈ r.reads ++ (rtl8139PollReceive r.driver r.card.commandRegister buffer maxLength).events,
      index < rxBufferTotal := by
    intro index hindex
    rcases List.mem_append.1 hindex with hold | hnew
    · exact h.reads index hold
    · exact poll_reads h.below h.aligned _ _ _ index hnew
  cases hstep
  by_cases hready : buffer = true ∧ r.card.pending ≠ []
  · obtain ⟨rfl, hpending⟩ := hready
    obtain ⟨w, rest, hp⟩ := List.exists_cons_of_ne_nil hpending
    have hchained := h.chained
    rw [hp] at hchained
    have hholds : HoldsPacket r.driver.rxBuffer r.driver.rxOffset.toNat w.2 := by
      rw [← hchained.1]
      exact h.holds w (by simp [hp])
    have hvalue := value_poll h.present ((commandRegister_bufe _).2 hpending) h.below hholds maxLength
    have hnext := toNat_nextOffset (p := w.2) h.below
    have hwaiting := h.waiting
    rw [hp, List.map_cons] at hwaiting
    have hlt : q.taken < q.received.length := by
      by_contra hge
      rw [List.drop_eq_nil_of_le (not_lt.1 hge)] at hwaiting
      cases hwaiting
    rw [List.drop_eq_getElem_cons hlt, List.cons.injEq] at hwaiting
    have hqueue : q.step (.poll true maxLength) =
        { q with taken := q.taken + 1, handovers := q.handovers ++ [handoverOf w.2.frame maxLength] } := by
      simp [FrameQueue.step, List.getElem?_eq_getElem hlt, hwaiting.1]
    rw [hqueue]
    simp only [hvalue, Option.elim_some, Chained.writeCapr hp h.below h.chained]
    constructor
    · exact h.present
    · exact hnext ▸ boundary_lt w.2 _
    · exact hnext ▸ boundary_aligned w.2 _
    · exact hnext ▸ hchained.2
    · intro w' hw'
      exact h.holds w' (by simp [hp, show w' ∈ rest from hw'])
    · exact hlt
    · exact hwaiting.2
    · simp only [h.handovers]
    · exact hreads
  · have hidle : buffer = true → r.card.commandRegister &&& crBufe ≠ 0 := by
      intro hb hbufe
      exact hready ⟨hb, (commandRegister_bufe _).1 hbufe⟩
    have hqueue : q.step (.poll buffer maxLength) = { q with handovers := q.handovers ++ [.nothing] } := by
      have hnone : (if buffer then q.received[q.taken]? else none) = none := by
        split
        · rename_i hb
          have hempty : r.card.pending = [] := by
            by_contra hne
            exact hready ⟨hb, hne⟩
          have hdrop : q.received.drop q.taken = [] := by rw [← h.waiting, hempty, List.map_nil]
          exact List.getElem?_eq_none (List.drop_eq_nil_iff.1 hdrop)
        · rfl
      simp only [FrameQueue.step, hnone]
    rw [hqueue]
    simp only [value_poll_idle hidle, Option.elim_none]
    exact { h with handovers := by simp only [h.handovers], reads := hreads }

theorem Tracking.step {e : RxEvent} (h : Tracking r q) (hstep : r.step e = some r') : Tracking r' (q.step e) := by
  cases e with
  | receive p => exact h.receive hstep
  | poll buffer maxLength => exact h.poll hstep

end Step

/-- However packets arrive and polls interleave, the polls hand over what a queue of the frames would,
the driver reads from the card's oldest unread packet, and never outside the buffer. -/
theorem rx_ring_is_queue {events : List RxEvent} {r : Receiver} (h : exec Receiver.step .start events = some r) :
    let q := events.foldl FrameQueue.step .start
    r.handovers = q.handovers ∧ q.taken ≤ q.received.length ∧
      r.card.pending.map (·.2.frame) = q.received.drop q.taken ∧
      r.driver.rxOffset.toNat = r.card.readOffset ∧ 4 ∣ r.driver.rxOffset.toNat ∧
      r.driver.rxOffset.toNat < rxBufferLen ∧ ∀ index ∈ r.reads, index < rxBufferTotal := by
  have htracking : Tracking r (events.foldl FrameQueue.step .start) :=
    exec_simulates (fun _ _ _ _ htrack hstep => htrack.step hstep) tracking_start h
  exact ⟨htracking.handovers, htracking.taken, htracking.waiting, htracking.chained.readOffset.symm, htracking.aligned,
    htracking.below, htracking.reads⟩

/-- Packets that are taken one at a time. -/
def inTurn (packets : List Packet) : List RxEvent := packets.flatMap fun p => [.receive p, .poll true 1518]

/-- A poll does not move where the card writes. -/
theorem step_poll_writeOffset {r r' : Receiver} {buffer : Bool} {maxLength : BitVec 32}
    (h : r.step (.poll buffer maxLength) = some r') : r'.card.writeOffset = r.card.writeOffset := by
  cases h
  dsimp only
  cases (rtl8139PollReceive r.driver r.card.commandRegister buffer maxLength).value.capr <;> rfl

theorem handoverOf_whole (p : Packet) : handoverOf p.frame 1518 = ⟨BitVec.ofNat 32 p.frame.length, p.frame⟩ := by
  have hfits : p.frame.length ≤ (1518 : BitVec 32).toNat := p.fits
  rw [handoverOf, Nat.min_eq_left hfits, List.take_of_length_le hfits]

/-- With nothing pending the next packet has room, and the poll after it takes it. -/
theorem Tracking.turn {r : Receiver} {q : FrameQueue} (h : Tracking r q) (hempty : r.card.pending = []) (p : Packet) :
    let q' := (q.step (.receive p)).step (.poll true 1518)
    ∃ r', exec Receiver.step r [.receive p, .poll true 1518] = some r' ∧ Tracking r' q' ∧ r'.card.pending = [] ∧
      q'.handovers = q.handovers ++ [handoverOf p.frame 1518] ∧
      r'.driver.rxOffset.toNat = p.boundary r.driver.rxOffset.toNat := by
  intro q'
  have hdrop := h.waiting
  rw [hempty, List.map_nil, eq_comm, List.drop_eq_nil_iff] at hdrop
  have htaken : q.taken = q.received.length := Nat.le_antisymm h.taken hdrop
  have hqueue : q' = ⟨q.received ++ [p.frame], q.taken + 1, q.handovers ++ [handoverOf p.frame 1518]⟩ := by
    simp [q', FrameQueue.step, htaken]
  obtain ⟨r₁, hreceive⟩ : ∃ r₁, r.step (.receive p) = some r₁ := ⟨_, if_neg (by simp [Card.Overruns, hempty])⟩
  obtain ⟨r₂, hpoll⟩ : ∃ r₂, r₁.step (.poll true 1518) = some r₂ := ⟨_, rfl⟩
  have h₂ : Tracking r₂ q' := (h.receive hreceive).poll hpoll
  have hempty₂ : r₂.card.pending = [] := by
    have hwaiting := h₂.waiting
    rw [hqueue, List.drop_eq_nil_of_le (by simp [htaken])] at hwaiting
    exact List.map_eq_nil_iff.1 hwaiting
  refine ⟨r₂, by rw [exec_cons hreceive, exec_cons hpoll, exec], h₂, hempty₂, by rw [hqueue], ?_⟩
  -- nothing is pending before or after, so both read offsets are where the card writes
  have hbefore : r.driver.rxOffset.toNat = r.card.writeOffset := by
    have := h.chained
    rwa [hempty] at this
  have hafter : r₂.driver.rxOffset.toNat = r₂.card.writeOffset := by
    have := h₂.chained
    rwa [hempty₂] at this
  rw [hafter, step_poll_writeOffset hpoll, hbefore]
  simp only [Receiver.step] at hreceive
  split at hreceive
  · cases hreceive
  · cases hreceive
    rfl

/-- However many packets there are, each is handed over whole; the ring starts over as often as it has to. -/
theorem Tracking.inTurn {r : Receiver} {q : FrameQueue} (h : Tracking r q) (hempty : r.card.pending = [])
    (packets : List Packet) :
    ∃ r', exec Receiver.step r (inTurn packets) = some r' ∧
      ((SpectreOS.inTurn packets).foldl FrameQueue.step q).handovers =
        q.handovers ++ packets.map (fun p => ⟨BitVec.ofNat 32 p.frame.length, p.frame⟩) ∧
      r'.driver.rxOffset.toNat = packets.foldl (fun start p => p.boundary start) r.driver.rxOffset.toNat := by
  induction packets generalizing r q with
  | nil => exact ⟨r, rfl, (List.append_nil _).symm, rfl⟩
  | cons p packets ih =>
    obtain ⟨r₁, hturn, h₁, hempty₁, hover, hoffset⟩ := h.turn hempty p
    obtain ⟨r', hrun, hovers, hend⟩ := ih h₁ hempty₁
    refine ⟨r', ?_, ?_, ?_⟩
    · rw [SpectreOS.inTurn, List.flatMap_cons, exec_append, hturn]
      exact hrun
    · rw [hover, handoverOf_whole, List.append_assoc] at hovers
      exact hovers
    · rw [hend, hoffset]
      rfl

/-- A frame of the largest size. -/
def largePacket : Packet where
  status := 1
  frame := List.replicate 1518 0x55
  crc := #v[0, 0, 0, 0]
  rok := by decide
  fits := by rw [List.length_replicate]

theorem length_largePacket : largePacket.frame.length = 1518 := List.length_replicate

/-- Six of them: the last begins at 7640 and lies past the end of the ring, and the next would begin
at 976. -/
theorem rx_ring_is_queue_wraps : ∃ r, exec Receiver.step .start (inTurn (List.replicate 6 largePacket)) = some r ∧
    r.handovers = List.replicate 6 ⟨1518, List.replicate 1518 0x55⟩ ∧ r.card.readOffset = 976 ∧
    ∀ index ∈ r.reads, index < 9984 := by
  obtain ⟨r, hr, hovers, hend⟩ := tracking_start.inTurn rfl (List.replicate 6 largePacket)
  obtain ⟨hqueue, -, -, hoffset, -, -, hreads⟩ := rx_ring_is_queue hr
  refine ⟨r, hr, ?_, ?_, hreads⟩
  · rw [hqueue, hovers, List.map_replicate, length_largePacket]
    rfl
  · rw [← hoffset, hend]
    simp [Packet.boundary, Packet.length, length_largePacket, Receiver.start, rtl8139Init, rxBufferLen]

end SpectreOS
