/-
The transmit ring of the RTL8139 driver (`rtl8139_send`) against the card that empties it: four descriptors,
each with its buffer, used in turn on both sides. However sending and transmitting interleave, frames go out
whole and in the order they were sent, as long as the card does not let the driver wait in vain.
-/
import SpectreOS.Net.Rtl8139

namespace SpectreOS

open BlockIO

abbrev txDescriptorCount : Nat := 4
abbrev txWaitMaxIterations : Nat := 1000000

/-! ## Driver and card -/

/-- A descriptor: its buffer in the driver's memory, where TSAD points, and its TSD register. -/
structure TxSlot where
  buffer : Nat → Byte
  tsd : BitVec 32

/-- Bit 13 of TSD: the driver may use the descriptor. -/
def TxSlot.own (s : TxSlot) : Bool := s.tsd.getLsbD 13

/-- The bytes that TSD tells the card to transmit. -/
def TxSlot.bytes (s : TxSlot) : List Byte := (List.range (s.tsd &&& 0x1FFF).toNat).map s.buffer

/-- The driver's variables that sending uses, the card's registers and the descriptor it looks at next, and what
it has transmitted. -/
structure TxRing where
  present : Bool
  txNext : Nat
  slots : Nat → TxSlot
  current : Nat
  wire : List (List Byte)

/-- After `rtl8139_init`, the card reset: all descriptors are free. -/
def TxRing.start : TxRing := ⟨true, 0, fun _ => ⟨fun _ => 0, 0x2000⟩, 0, []⟩

/-- The card transmits the descriptor it looks at, if it has been handed over, and gives it back. -/
def TxRing.transmit (r : TxRing) : TxRing :=
  let slot := r.slots r.current
  if slot.own then r
  else
    { r with
      wire := r.wire ++ [slot.bytes]
      slots := Function.update r.slots r.current { slot with tsd := slot.tsd ||| 0xA000 }
      current := (r.current + 1) % txDescriptorCount }

/-- The waiting loop with `n` reads of TSD left; `turns` says before which of them the card transmits. -/
def TxRing.await (turns : Nat → Bool) (slot : Nat) : Nat → TxRing → Bool × TxRing
  | 0, r => (false, r)
  | n + 1, r =>
    let r := if turns n then r.transmit else r
    if (r.slots slot).own then (true, r) else await turns slot n r

def rtl8139Send (turns : Nat → Bool) (r : TxRing) (frame : List Byte) : Int × TxRing :=
  if !r.present then (0, r)
  else if frame.length > ethMaxFrame then (0, r)
  else
    let slot := r.txNext
    -- the next descriptor's turn comes even if this one does not get free
    let r := { r with txNext := (r.txNext + 1) % txDescriptorCount }
    match r.await turns slot (txWaitMaxIterations + 1) with
    | (false, r) => (0, r)
    | (true, r) =>
      (1, { r with
        slots := Function.update r.slots slot
          { buffer := fun i => frame.getD i ((r.slots slot).buffer i)
            tsd := BitVec.ofNat 32 frame.length } })

/-! ## Runs -/

inductive TxEvent where
  | send (frame : List Byte) (turns : Nat → Bool)
  | transmit

/-- What the calls of a run return, and the state after it. -/
def TxRing.run : List TxEvent → TxRing → List Int × TxRing
  | [], r => ([], r)
  | .transmit :: events, r => r.transmit.run events
  | .send frame turns :: events, r =>
    let (result, r) := rtl8139Send turns r frame
    let (results, r) := r.run events
    (result :: results, r)

/-- The frames that were to be sent. -/
def TxEvent.frames (events : List TxEvent) : List (List Byte) :=
  events.filterMap fun
    | .send frame _ => some frame
    | .transmit => none

/-- While the driver waits the card transmits at least one frame. -/
def TxEvent.Served : TxEvent → Prop
  | .send _ turns => ∃ i ≤ txWaitMaxIterations, turns i = true
  | .transmit => True

/-! ## The ring -/

/-- The frames handed over and not transmitted, from the card's descriptor on. -/
structure Queued (r : TxRing) (pending : List (List Byte)) : Prop where
  current : r.current < 4
  room : pending.length ≤ 4
  held : ∀ k (h : k < pending.length), (r.slots ((r.current + k) % 4)).own = false ∧
    (r.slots ((r.current + k) % 4)).bytes = pending[k]
  free : ∀ k, pending.length ≤ k → k < 4 → (r.slots ((r.current + k) % 4)).own = true

section Ring

variable {r : TxRing} {pending : List (List Byte)} {slot : Nat}

theorem queued_start : Queued .start [] :=
  ⟨by decide, by decide, fun _ h => absurd h (Nat.not_lt_zero _),
    fun _ _ _ => show (0x2000#32).getLsbD 13 = true from rfl⟩

theorem own_given_back (tsd : BitVec 32) : (tsd ||| 0xA000).getLsbD 13 = true := by
  rw [BitVec.getLsbD_or]
  exact Bool.or_true _

/-- With nothing handed over the card waits. -/
theorem Queued.transmit_nil (h : Queued r []) : r.transmit = r := by
  have hfree := h.free 0 le_rfl (by decide)
  rw [Nat.add_zero, Nat.mod_eq_of_lt h.current] at hfree
  rw [TxRing.transmit, if_pos hfree]

/-- Otherwise the oldest frame goes out. -/
theorem Queued.transmit_cons {frame : List Byte} (h : Queued r (frame :: pending)) :
    r.transmit.wire = r.wire ++ [frame] ∧ r.transmit.current = (r.current + 1) % 4 ∧ Queued r.transmit pending := by
  have hcurrent := h.current
  have hroom := h.room
  rw [List.length_cons] at hroom
  obtain ⟨hown, hbytes⟩ := h.held 0 (Nat.succ_pos _)
  rw [Nat.add_zero, Nat.mod_eq_of_lt hcurrent] at hown hbytes
  rw [TxRing.transmit, if_neg (by rw [hown]; exact Bool.false_ne_true)]
  refine ⟨by rw [hbytes]; rfl, rfl, Nat.mod_lt _ (by decide), by omega, fun k hk => ?_, fun k hk hk4 => ?_⟩
  · have hindex : ((r.current + 1) % 4 + k) % 4 = (r.current + (k + 1)) % 4 := by omega
    have hne : (r.current + (k + 1)) % 4 ≠ r.current := by omega
    show (Function.update r.slots r.current _ (((r.current + 1) % 4 + k) % 4)).own = false ∧ _
    simp only [txDescriptorCount, hindex, Function.update_of_ne hne]
    exact h.held (k + 1) (Nat.succ_lt_succ hk)
  · have hindex : ((r.current + 1) % 4 + k) % 4 = (r.current + (k + 1)) % 4 := by omega
    show (Function.update r.slots r.current _ (((r.current + 1) % 4 + k) % 4)).own = true
    rw [hindex]
    by_cases hlast : k = 3
    · have hself : (r.current + (k + 1)) % 4 = r.current := by omega
      rw [hself, Function.update_self]
      exact own_given_back _
    · have hne : (r.current + (k + 1)) % 4 ≠ r.current := by omega
      rw [Function.update_of_ne hne]
      exact h.free (k + 1) (by rw [List.length_cons]; omega) (by omega)

/-- The state of a run: what went out and what is queued are the frames sent, and the driver's next descriptor
is the one after them. -/
structure InOrder (r : TxRing) (slot : Nat) (sent : List (List Byte)) (pending : List (List Byte)) : Prop where
  queued : Queued r pending
  present : r.present = true
  slot : slot = (r.current + pending.length) % 4
  sent : r.wire ++ pending = sent

theorem transmit_frame (r : TxRing) : r.transmit.txNext = r.txNext ∧ r.transmit.present = r.present := by
  simp only [TxRing.transmit]
  split <;> exact ⟨rfl, rfl⟩

theorem InOrder.transmit {sent : List (List Byte)} (h : InOrder r slot sent pending) :
    InOrder r.transmit slot sent pending.tail := by
  cases pending with
  | nil =>
    rw [h.queued.transmit_nil]
    exact h
  | cons frame pending =>
    obtain ⟨hwire, hcurrent, hqueued⟩ := h.queued.transmit_cons
    refine ⟨hqueued, (transmit_frame r).2.trans h.present, ?_, ?_⟩
    · have := h.slot
      rw [List.length_cons] at this
      rw [hcurrent, List.tail_cons]
      omega
    · rw [hwire, List.tail_cons, List.append_assoc]
      exact h.sent

/-- The driver's next descriptor is free exactly if the ring is not full. -/
theorem InOrder.own_iff {sent : List (List Byte)} (h : InOrder r slot sent pending) :
    (r.slots slot).own = true ↔ pending.length < 4 := by
  have hslot := h.slot
  have hcurrent := h.queued.current
  have hroom := h.queued.room
  constructor
  · intro hown
    by_contra hfull
    -- a full ring has come round: the next descriptor is the one that the card looks at
    have hheld := (h.queued.held 0 (by omega)).1
    rw [show (r.current + 0) % 4 = slot by omega, hown] at hheld
    cases hheld
  · intro hlt
    rw [hslot]
    exact h.queued.free _ le_rfl hlt

/-- What the card does before one read of TSD. -/
theorem InOrder.turn {sent : List (List Byte)} (h : InOrder r slot sent pending) (turn : Bool) :
    ∃ pending', InOrder (if turn then r.transmit else r) slot sent pending' ∧
      (if turn then r.transmit else r).txNext = r.txNext ∧ (turn = true → pending'.length < 4) := by
  cases turn with
  | false => exact ⟨pending, h, rfl, fun hturn => by cases hturn⟩
  | true =>
    refine ⟨pending.tail, h.transmit, (transmit_frame r).1, fun _ => ?_⟩
    have := h.queued.room
    rw [List.length_tail]
    omega

/-- If the card gets a turn, the wait ends with room for a frame. -/
theorem InOrder.await {sent : List (List Byte)} {turns : Nat → Bool} {n : Nat} (h : InOrder r slot sent pending)
    (hturn : ∃ i < n, turns i = true) : ∃ r' pending', r.await turns slot n = (true, r') ∧ r'.txNext = r.txNext ∧
      InOrder r' slot sent pending' ∧ pending'.length < 4 := by
  induction n generalizing r pending with
  | zero =>
    obtain ⟨i, hi, -⟩ := hturn
    cases hi
  | succ n ih =>
    obtain ⟨pending₁, h₁, hnext, hmoved⟩ := h.turn (turns n)
    rw [TxRing.await]
    generalize (if turns n then r.transmit else r) = r₁ at h₁ hnext
    by_cases hlt : pending₁.length < 4
    · rw [if_pos (h₁.own_iff.2 hlt)]
      exact ⟨r₁, pending₁, rfl, hnext, h₁, hlt⟩
    · rw [if_neg fun hown => hlt (h₁.own_iff.1 hown)]
      -- the card has not had its turn yet, else there were room
      obtain ⟨i, hi, hturn⟩ := hturn
      have hne : i ≠ n := by
        rintro rfl
        exact hlt (hmoved hturn)
      obtain ⟨r', pending', hawait, hnext', h'⟩ := ih h₁ ⟨i, by omega, hturn⟩
      exact ⟨r', pending', hawait, hnext'.trans hnext, h'⟩

theorem own_length {n : Nat} (hn : n ≤ ethMaxFrame) : (BitVec.ofNat 32 n).getLsbD 13 = false := by
  rw [BitVec.getLsbD_ofNat, Nat.testBit_lt_two_pow (by unfold ethMaxFrame at hn; omega)]
  rfl

theorem size_length {n : Nat} (hn : n ≤ ethMaxFrame) : (BitVec.ofNat 32 n &&& 0x1FFF).toNat = n := by
  rw [BitVec.toNat_and]
  show (BitVec.ofNat 32 n).toNat &&& (2 ^ 13 - 1) = n
  rw [Nat.and_two_pow_sub_one_eq_mod, BitVec.toNat_ofNat]
  unfold ethMaxFrame at hn
  omega

/-- The card would transmit what was copied. -/
theorem bytes_copied {frame : List Byte} (hlen : frame.length ≤ ethMaxFrame) (old : Nat → Byte) :
    TxSlot.bytes ⟨fun i => frame.getD i (old i), BitVec.ofNat 32 frame.length⟩ = frame := by
  rw [TxSlot.bytes, size_length hlen]
  refine List.ext_getElem (by simp) fun i hi hi' => ?_
  simp [hi']

/-- A frame in the descriptor after the queued ones is queued. -/
theorem InOrder.push {sent : List (List Byte)} (h : InOrder r slot sent pending) (hroom : pending.length < 4)
    {frame : List Byte} (hlen : frame.length ≤ ethMaxFrame) (next : Nat) (old : Nat → Byte) :
    InOrder { r with
        txNext := next
        slots := Function.update r.slots slot ⟨fun i => frame.getD i (old i), BitVec.ofNat 32 frame.length⟩ }
      ((slot + 1) % 4) (sent ++ [frame]) (pending ++ [frame]) := by
  have hcurrent := h.queued.current
  have hslot := h.slot
  refine ⟨⟨hcurrent, ?_, fun k hk => ?_, fun k hk hk4 => ?_⟩, h.present, ?_, ?_⟩
  · rw [List.length_append, List.length_singleton]
    omega
  · rw [List.length_append, List.length_singleton] at hk
    show (Function.update r.slots slot _ ((r.current + k) % 4)).own = false ∧
      (Function.update r.slots slot _ ((r.current + k) % 4)).bytes = _
    by_cases hlast : k = pending.length
    · subst hlast
      rw [← hslot, Function.update_self]
      exact ⟨own_length hlen, by rw [bytes_copied hlen, List.getElem_concat_length rfl]⟩
    · have hlt : k < pending.length := by omega
      rw [Function.update_of_ne (by omega), List.getElem_append_left hlt]
      exact h.queued.held k hlt
  · rw [List.length_append, List.length_singleton] at hk
    show (Function.update r.slots slot _ ((r.current + k) % 4)).own = true
    rw [Function.update_of_ne (by omega)]
    exact h.queued.free k (by omega) hk4
  · show (slot + 1) % 4 = (r.current + (pending ++ [frame]).length) % 4
    rw [List.length_append, List.length_singleton]
    omega
  · show r.wire ++ (pending ++ [frame]) = _
    rw [← List.append_assoc, h.sent]

/-- A send while the card gets a turn succeeds and keeps the order. -/
theorem InOrder.send {sent : List (List Byte)} (h : InOrder r r.txNext sent pending) {frame : List Byte}
    (hlen : frame.length ≤ ethMaxFrame) {turns : Nat → Bool} (hturn : ∃ i ≤ txWaitMaxIterations, turns i = true) :
    ∃ r' pending', rtl8139Send turns r frame = (1, r') ∧ InOrder r' r'.txNext (sent ++ [frame]) pending' := by
  have h₁ : InOrder { r with txNext := (r.txNext + 1) % txDescriptorCount } r.txNext sent pending :=
    ⟨⟨h.queued.current, h.queued.room, h.queued.held, h.queued.free⟩, h.present, h.slot, h.sent⟩
  obtain ⟨i, hi, hturn⟩ := hturn
  obtain ⟨r', pending', hawait, hnext, h', hroom⟩ :=
    h₁.await (n := txWaitMaxIterations + 1) ⟨i, Nat.lt_succ_of_le hi, hturn⟩
  have hpush := h'.push hroom hlen ((r.txNext + 1) % txDescriptorCount) (r'.slots r.txNext).buffer
  refine ⟨_, pending' ++ [frame], ?_, hpush⟩
  have hnext : r'.txNext = (r.txNext + 1) % txDescriptorCount := hnext
  rw [rtl8139Send, if_neg (by rw [h.present]; decide), if_neg (Nat.not_lt.2 hlen)]
  simp only [hawait, hnext]

/-- The events of a run, one after the other. -/
theorem InOrder.run {events : List TxEvent} {sent : List (List Byte)} (h : InOrder r r.txNext sent pending)
    (hserved : ∀ e ∈ events, e.Served) (hlen : ∀ frame ∈ TxEvent.frames events, frame.length ≤ ethMaxFrame) :
    (∀ result ∈ (r.run events).1, result = 1) ∧
      ∃ pending', InOrder (r.run events).2 (r.run events).2.txNext (sent ++ TxEvent.frames events) pending' := by
  induction events generalizing r sent pending with
  | nil =>
    refine ⟨fun _ hr => absurd hr List.not_mem_nil, pending, ?_⟩
    rw [TxEvent.frames, List.filterMap_nil, List.append_nil]
    exact h
  | cons e events ih =>
    have hrest : ∀ e ∈ events, e.Served := fun e he => hserved e (List.mem_cons_of_mem _ he)
    cases e with
    | transmit =>
      have ht := h.transmit
      rw [← (transmit_frame r).1] at ht
      exact ih ht hrest hlen
    | send frame turns =>
      have hframes : TxEvent.frames (.send frame turns :: events) = frame :: TxEvent.frames events := rfl
      rw [hframes] at hlen
      obtain ⟨r', pending', hsend, h'⟩ :=
        h.send (hlen frame List.mem_cons_self) (hserved _ List.mem_cons_self)
      obtain ⟨hresults, pending'', hrun⟩ := ih h' hrest fun frame hf => hlen frame (List.mem_cons_of_mem _ hf)
      simp only [TxRing.run, hsend, hframes, ← List.append_cons] at hrun ⊢
      refine ⟨fun result hr => ?_, pending'', ?_⟩
      · rcases List.mem_cons.1 hr with rfl | hr
        · rfl
        · exact hresults result hr
      · exact hrun

end Ring

/-- If the card gets a turn whenever the driver waits, every send succeeds, and what went out is what was sent,
in that order and whole, up to the frames still queued: at most four, which lie whole in the descriptors from
the card's on, handed over, while the descriptors behind them are free. -/
theorem transmit_inOrder (events : List TxEvent) (hserved : ∀ e ∈ events, e.Served)
    (hlen : ∀ frame ∈ TxEvent.frames events, frame.length ≤ ethMaxFrame) :
    (∀ result ∈ (TxRing.start.run events).1, result = 1) ∧
      ∃ pending, pending.length ≤ txDescriptorCount ∧ Queued (TxRing.start.run events).2 pending ∧
        (TxRing.start.run events).2.wire ++ pending = TxEvent.frames events := by
  have hstart : InOrder .start TxRing.start.txNext [] [] := ⟨queued_start, rfl, rfl, rfl⟩
  obtain ⟨hresults, pending, hrun⟩ := hstart.run hserved hlen
  exact ⟨hresults, pending, hrun.queued.room, hrun.queued, hrun.sent⟩

/-- Six frames: the last two find the ring full, and the card gets a turn after the first look at TSD. -/
def sixFrames : List TxEvent :=
  (List.range 6).map fun k => .send [BitVec.ofNat 8 k, 0xFF] fun i => decide (i < txWaitMaxIterations)

theorem transmit_inOrder_six :
    (∀ result ∈ (TxRing.start.run sixFrames).1, result = 1) ∧
      ∃ pending, pending.length ≤ txDescriptorCount ∧ Queued (TxRing.start.run sixFrames).2 pending ∧
        (TxRing.start.run sixFrames).2.wire ++ pending =
          [[0, 0xFF], [1, 0xFF], [2, 0xFF], [3, 0xFF], [4, 0xFF], [5, 0xFF]] := by
  refine transmit_inOrder sixFrames (fun e he => ?_) (by decide)
  obtain ⟨k, -, rfl⟩ := List.mem_map.1 he
  exact ⟨0, Nat.zero_le _, rfl⟩

end SpectreOS
