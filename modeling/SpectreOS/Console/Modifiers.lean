/-
The modifier flags against the keys of a physical keyboard. A key is pressed, repeats while it is
held and is released, in any interleaving with the others; each of these sends the key's code. Shift
and Alt are tracked through every stream. Ctrl loses track when one of the two keys is released
while the other is held, for they share one flag, and Caps Lock when it repeats.
-/
import SpectreOS.Console.Keyboard

namespace SpectreOS

open BlockIO

/-! ## The physical keyboard -/

/-- A key: its make code, and whether the prefix 0xE0 goes before it. A make code has no top bit, and
0x60 is none, for its break code would be the prefix. -/
structure PhysicalKey where
  extended : Bool
  code : Byte
  valid : code &&& 0x80 = 0 ∧ code ≠ 0x60
  deriving DecidableEq

def leftShiftKey : PhysicalKey := ⟨false, 0x2A, by decide⟩
def rightShiftKey : PhysicalKey := ⟨false, 0x36, by decide⟩
def leftCtrlKey : PhysicalKey := ⟨false, 0x1D, by decide⟩
def rightCtrlKey : PhysicalKey := ⟨true, 0x1D, by decide⟩
def leftAltKey : PhysicalKey := ⟨false, 0x38, by decide⟩
def capsLockKey : PhysicalKey := ⟨false, 0x3A, by decide⟩

/-- What happens to a key: it goes down, repeats while it is down, or goes up. -/
inductive Motion where
  | press
  | typematic
  | release
  deriving DecidableEq

structure KeyEvent where
  motion : Motion
  key : PhysicalKey
  deriving DecidableEq

namespace KeyEvent

variable (e : KeyEvent)

/-- The code without its prefix. -/
def code : Byte := if e.motion = .release then e.key.code ||| 0x80 else e.key.code

/-- The bytes sent for an event. -/
def bytes : List Byte := if e.key.extended then [0xE0, e.code] else [e.code]

end KeyEvent

/-- The keys that are down, and how often Caps Lock has gone down. -/
structure Physical where
  down : PhysicalKey → Bool
  capsPresses : Nat

def Physical.released : Physical := ⟨fun _ => false, 0⟩

/-- One event; `none` where it cannot happen. -/
def Physical.step (s : Physical) (e : KeyEvent) : Option Physical :=
  match e.motion with
  | .press =>
    if s.down e.key then none
    else some ⟨Function.update s.down e.key true, if e.key = capsLockKey then s.capsPresses + 1 else s.capsPresses⟩
  | .typematic => if s.down e.key then some s else none
  | .release => if s.down e.key then some { s with down := Function.update s.down e.key false } else none

def Physical.run (s : Physical) (events : List KeyEvent) : Option Physical := events.foldlM Physical.step s

/-- The events whose codes are complete after so many bytes. -/
def completed : List KeyEvent → Nat → List KeyEvent
  | [], _ => []
  | e :: rest, n => if e.bytes.length ≤ n then e :: completed rest (n - e.bytes.length) else []

/-- `keyboard_handler` on the bytes in turn. -/
def Keyboard.feed (k : Keyboard) (bytes : List Byte) : Keyboard := bytes.foldl (fun k b => (k.decode b).1) k

/-- The flags say what is down. -/
def Tracks (k : Keyboard) (s : Physical) : Prop :=
  k.shiftActive = (s.down leftShiftKey || s.down rightShiftKey) ∧
    k.ctrlPressed = (s.down leftCtrlKey || s.down rightCtrlKey) ∧ k.altPressed = s.down leftAltKey ∧
    k.capsLock = decide (s.capsPresses % 2 = 1)

/-- No repeat of Caps Lock, and no release of a Ctrl key while the other one is down. -/
def Trackable (s : Physical) (e : KeyEvent) : Prop :=
  ¬ (e.motion = .typematic ∧ e.key = capsLockKey) ∧
    ¬ (e.motion = .release ∧ (e.key = leftCtrlKey ∧ s.down rightCtrlKey = true ∨
      e.key = rightCtrlKey ∧ s.down leftCtrlKey = true))

/-! ## One code -/

/-- A make code is the prefix for no key, and a break code is no make code. -/
theorem make_code : ∀ c : Byte, c &&& 0x80 = 0 → c ≠ 0xE0 ∧ c ≠ 0xAA ∧ c ≠ 0xB6 ∧ c ≠ 0x9D ∧ c ≠ 0xB8 := by
  decide

theorem break_code : ∀ c : Byte, c &&& 0x80 = 0 → (c ||| 0x80) ≠ 0x2A ∧ (c ||| 0x80) ≠ 0x36 ∧ (c ||| 0x80) ≠ 0x1D ∧
    (c ||| 0x80) ≠ 0x38 ∧ (c ||| 0x80) ≠ 0x3A ∧ (c ||| 0x80) &&& 0x80 ≠ 0 := by
  decide

theorem break_code_eq_iff : ∀ c : Byte, c &&& 0x80 = 0 → ((c ||| 0x80) = 0xE0 ↔ c = 0x60) ∧
    ((c ||| 0x80) = 0xAA ↔ c = 0x2A) ∧ ((c ||| 0x80) = 0xB6 ↔ c = 0x36) ∧ ((c ||| 0x80) = 0x9D ↔ c = 0x1D) ∧
    ((c ||| 0x80) = 0xB8 ↔ c = 0x38) := by
  decide

namespace Keyboard

/-- The flags that a complete code leaves. -/
def after (k : Keyboard) (e : KeyEvent) : Keyboard :=
  { k with
    leftShift := if e.key = leftShiftKey then decide (e.motion ≠ .release) else k.leftShift
    rightShift := if e.key = rightShiftKey then decide (e.motion ≠ .release) else k.rightShift
    ctrlPressed := if e.key = leftCtrlKey ∨ e.key = rightCtrlKey then decide (e.motion ≠ .release) else k.ctrlPressed
    altPressed := if e.key = leftAltKey then decide (e.motion ≠ .release) else k.altPressed
    capsLock := if e.key = capsLockKey ∧ e.motion ≠ .release then !k.capsLock else k.capsLock }

theorem decode_make (k : Keyboard) (hk : k.extended = false) {c : Byte} (hv : c &&& 0x80 = 0 ∧ c ≠ 0x60)
    {m : Motion} (hm : m ≠ .release) : (k.decode c).1 = k.after ⟨m, ⟨false, c, hv⟩⟩ := by
  obtain ⟨hE0, hAA, hB6, h9D, hB8⟩ := make_code c hv.1
  simp only [decode, after, leftShiftKey, rightShiftKey, leftCtrlKey, rightCtrlKey, leftAltKey, capsLockKey,
    PhysicalKey.mk.injEq, hE0, hk, hAA, hB6, h9D, hB8, hm, true_and, and_true, ne_eq, not_false_eq_true, decide_true,
    if_false, Bool.false_eq_true, false_and, or_false]
  by_cases h2A : c = 0x2A
  · subst h2A; rfl
  by_cases h36 : c = 0x36
  · subst h36; rfl
  by_cases h1D : c = 0x1D
  · subst h1D; rfl
  by_cases h38 : c = 0x38
  · subst h38; rfl
  by_cases h3A : c = 0x3A
  · subst h3A; rfl
  simp only [h2A, h36, h1D, h38, h3A, if_false]
  rw [← hk]

theorem decode_break (k : Keyboard) (hk : k.extended = false) {c : Byte} (hv : c &&& 0x80 = 0 ∧ c ≠ 0x60) :
    (k.decode (c ||| 0x80)).1 = k.after ⟨.release, ⟨false, c, hv⟩⟩ := by
  obtain ⟨h2A, h36, h1D, h38, h3A, -⟩ := break_code c hv.1
  obtain ⟨hE0, hAA, hB6, h9D, hB8⟩ := break_code_eq_iff c hv.1
  simp only [decode, after, leftShiftKey, rightShiftKey, leftCtrlKey, rightCtrlKey, leftAltKey, capsLockKey,
    PhysicalKey.mk.injEq, hE0, hv.2, hk, hAA, hB6, h9D, hB8, h2A, h36, h1D, h38, h3A, true_and, ne_eq,
    not_true_eq_false, decide_false, if_false, Bool.false_eq_true, false_and, and_false, or_false]
  by_cases h2A : c = 0x2A
  · subst h2A; rfl
  by_cases h36 : c = 0x36
  · subst h36; rfl
  by_cases h1D : c = 0x1D
  · subst h1D; rfl
  by_cases h38 : c = 0x38
  · subst h38; rfl
  simp only [h2A, h36, h1D, h38, if_false]
  rw [← hk]

/-- The second byte of an extended key touches no flag but that of Ctrl. -/
theorem decode_extended (k : Keyboard) (hk : k.extended = false) (e : KeyEvent) (he : e.key.extended = true) :
    (({ k with extended := true } : Keyboard).decode e.code).1 = k.after e := by
  obtain ⟨m, ⟨x, c, hv⟩⟩ := e
  obtain rfl : x = true := he
  simp only [decode, after, leftShiftKey, rightShiftKey, leftCtrlKey, rightCtrlKey, leftAltKey, capsLockKey,
    PhysicalKey.mk.injEq, Bool.true_eq_false, false_and, if_false, true_and, false_or, if_true, KeyEvent.code]
  by_cases hm : m = .release
  · obtain ⟨-, -, h1D, -, -, htop⟩ := break_code c hv.1
    obtain ⟨hE0, -, -, h9D, -⟩ := break_code_eq_iff c hv.1
    simp only [hm, if_true, hE0, hv.2, h1D, h9D, htop, ne_eq, not_false_eq_true, not_true_eq_false, if_false,
      decide_false]
    by_cases h : c = 0x1D
    · simp only [h, if_true, ← hk]
    · simp only [h, if_false, ← hk]
  · obtain ⟨hE0, -, -, h9D, -⟩ := make_code c hv.1
    simp only [hm, if_false, hE0, h9D, hv.1, ne_eq, not_true_eq_false, not_false_eq_true, decide_true]
    by_cases h : c = 0x1D
    · simp only [h, if_true, ← hk]
    · simp only [h, if_false, ← hk]

/-- Between codes, the bytes of an event leave what `after` says. -/
theorem feed_bytes (k : Keyboard) (hk : k.extended = false) (e : KeyEvent) : k.feed e.bytes = k.after e := by
  unfold KeyEvent.bytes
  cases he : e.key.extended with
  | true =>
    simp only [if_true, feed, List.foldl_cons, List.foldl_nil]
    exact decode_extended k hk e he
  | false =>
    simp only [Bool.false_eq_true, if_false, feed, List.foldl_cons, List.foldl_nil, KeyEvent.code]
    obtain ⟨m, ⟨x, c, hv⟩⟩ := e
    obtain rfl : x = false := he
    by_cases hm : m = .release
    · subst hm
      exact decode_break k hk hv
    · rw [if_neg hm]
      exact decode_make k hk hv hm

end Keyboard

/-! ## Runs -/

/-- The flags between codes: one for each key, but for Ctrl. -/
structure Follows (k : Keyboard) (s : Physical) : Prop where
  leftShift : k.leftShift = s.down leftShiftKey
  rightShift : k.rightShift = s.down rightShiftKey
  ctrl : k.ctrlPressed = (s.down leftCtrlKey || s.down rightCtrlKey)
  alt : k.altPressed = s.down leftAltKey
  caps : k.capsLock = decide (s.capsPresses % 2 = 1)
  between : k.extended = false

theorem Follows.tracks {k : Keyboard} {s : Physical} (h : Follows k s) : Tracks k s := by
  refine ⟨?_, h.ctrl, h.alt, h.caps⟩
  rw [Keyboard.shiftActive, h.leftShift, h.rightShift]

/-- What an event does to the keys and to the count of Caps Lock. -/
theorem Physical.step_eq {s s' : Physical} {e : KeyEvent} (h : s.step e = some s') :
    s'.down = Function.update s.down e.key (decide (e.motion ≠ .release)) ∧
      s'.capsPresses = (if e.motion = .press ∧ e.key = capsLockKey then s.capsPresses + 1 else s.capsPresses) ∧
      s.down e.key = decide (e.motion ≠ .press) := by
  unfold Physical.step at h
  cases hm : e.motion with
  | press =>
    simp only [hm, Option.ite_none_left_eq_some, Option.some.injEq] at h
    obtain ⟨hd, rfl⟩ := h
    refine ⟨rfl, ?_, by simpa using hd⟩
    simp
  | typematic =>
    simp only [hm, Option.ite_none_right_eq_some, Option.some.injEq] at h
    obtain ⟨hd, rfl⟩ := h
    refine ⟨?_, rfl, by simpa using hd⟩
    rw [← Function.update_eq_self e.key s.down, hd]
    simp
  | release =>
    simp only [hm, Option.ite_none_right_eq_some, Option.some.injEq] at h
    obtain ⟨hd, rfl⟩ := h
    exact ⟨by simp, rfl, by simpa using hd⟩

section

variable {k : Keyboard} {s s' : Physical} {e : KeyEvent}

theorem update_down (f : PhysicalKey → Bool) (key other : PhysicalKey) (b : Bool) :
    Function.update f key b other = if key = other then b else f other := by
  rw [Function.update_apply]
  simp only [eq_comm]

/-- A trackable event keeps the flags right. -/
theorem Follows.step (h : Follows k s) (hs : s.step e = some s') (ht : Trackable s e) :
    Follows (k.feed e.bytes) s' := by
  obtain ⟨hdown, hcaps, hbefore⟩ := Physical.step_eq hs
  rw [k.feed_bytes h.between]
  constructor
  · rw [hdown, update_down]
    simp only [Keyboard.after, h.leftShift]
  · rw [hdown, update_down]
    simp only [Keyboard.after, h.rightShift]
  · rw [hdown, update_down, update_down]
    simp only [Keyboard.after, h.ctrl]
    have hne : leftCtrlKey ≠ rightCtrlKey := by decide
    by_cases hl : e.key = leftCtrlKey
    · have hr : e.key ≠ rightCtrlKey := fun hr => hne (hl.symm.trans hr)
      rw [if_pos (.inl hl), if_pos hl, if_neg hr]
      by_cases hm : e.motion = .release
      · have hup : s.down rightCtrlKey = false := by
          cases hd : s.down rightCtrlKey
          · rfl
          · exact absurd ⟨hm, .inl ⟨hl, hd⟩⟩ ht.2
        rw [hup, Bool.or_false]
      · simp [hm]
    · by_cases hr : e.key = rightCtrlKey
      · rw [if_pos (.inr hr), if_neg hl, if_pos hr]
        by_cases hm : e.motion = .release
        · have hup : s.down leftCtrlKey = false := by
            cases hd : s.down leftCtrlKey
            · rfl
            · exact absurd ⟨hm, .inr ⟨hr, hd⟩⟩ ht.2
          rw [hup, Bool.false_or]
        · simp [hm]
      · rw [if_neg (not_or.mpr ⟨hl, hr⟩), if_neg hl, if_neg hr]
  · rw [hdown, update_down]
    simp only [Keyboard.after, h.alt]
  · rw [hcaps]
    simp only [Keyboard.after, h.caps]
    by_cases hc : e.key = capsLockKey
    · cases hm : e.motion with
      | press =>
        simp only [hc, ne_eq, reduceCtorEq, not_false_eq_true, and_self, if_true]
        rw [← decide_not, decide_eq_decide]
        omega
      | typematic => exact absurd ⟨hm, hc⟩ ht.1
      | release => simp only [hc, ne_eq, not_true_eq_false, and_false, if_false, reduceCtorEq, false_and]
    · rw [if_neg (fun h => hc h.1), if_neg (fun h => hc h.2)]
  · exact h.between

/-- Any other event gets them wrong. -/
theorem Follows.lost (h : Follows k s) (hs : s.step e = some s') (ht : ¬ Trackable s e) :
    ¬ Tracks (k.feed e.bytes) s' := by
  obtain ⟨hdown, hcaps, hbefore⟩ := Physical.step_eq hs
  rw [k.feed_bytes h.between]
  rintro ⟨-, hctrl, -, hlock⟩
  apply ht
  constructor
  · rintro ⟨hm, hc⟩
    rw [hcaps] at hlock
    simp only [Keyboard.after, h.caps, hm, hc, ne_eq, reduceCtorEq, not_false_eq_true, and_self, if_true, false_and,
      if_false] at hlock
    exact Bool.not_ne_self _ hlock
  · rintro ⟨hm, hboth⟩
    rw [hdown, update_down, update_down] at hctrl
    have hne : leftCtrlKey ≠ rightCtrlKey := by decide
    rcases hboth with ⟨hl, hd⟩ | ⟨hr, hd⟩
    · simp [Keyboard.after, hm, hl, hd, hne] at hctrl
    · simp [Keyboard.after, hm, hr, hd, hne.symm] at hctrl

end

/-- The bytes of a stream of events. -/
def codes (events : List KeyEvent) : List Byte := events.flatMap KeyEvent.bytes

theorem Physical.run_cons (s : Physical) (e : KeyEvent) (rest : List KeyEvent) :
    s.run (e :: rest) = (s.step e).bind fun s' => s'.run rest := by
  unfold Physical.run
  rw [List.foldlM_cons]
  rfl

theorem Keyboard.feed_append (k : Keyboard) (l m : List Byte) : k.feed (l ++ m) = (k.feed l).feed m :=
  List.foldl_append ..

/-- Before its code is complete an event has changed nothing. -/
theorem Follows.partial_code {k : Keyboard} {s : Physical} (h : Follows k s) (e : KeyEvent) {n : Nat}
    (hn : n < e.bytes.length) : Tracks (k.feed (e.bytes.take n)) s := by
  unfold KeyEvent.bytes at hn ⊢
  cases he : e.key.extended with
  | false =>
    simp only [he, Bool.false_eq_true, if_false, List.length_singleton] at hn ⊢
    obtain rfl : n = 0 := by omega
    exact h.tracks
  | true =>
    simp only [he, if_true, List.length_cons, List.length_nil] at hn ⊢
    obtain rfl | rfl : n = 0 ∨ n = 1 := by omega
    · exact h.tracks
    · exact h.tracks

theorem completed_zero (events : List KeyEvent) : completed events 0 = [] := by
  cases events with
  | nil => rfl
  | cons e rest =>
    have hpos : ¬ e.bytes.length ≤ 0 := by
      unfold KeyEvent.bytes
      split <;> simp
    rw [completed, if_neg hpos]

/-- From flags that follow the keys, they are right after every byte of a stream just when every event
of it is trackable. -/
theorem Follows.run {events : List KeyEvent} {k : Keyboard} {s : Physical} (h : Follows k s)
    (hwf : (s.run events).isSome) :
    (∀ n, ∃ t, s.run (completed events n) = some t ∧ Tracks (k.feed ((codes events).take n)) t) ↔
      ∀ before e after t, events = before ++ e :: after → s.run before = some t → Trackable t e := by
  induction events generalizing k s with
  | nil =>
    constructor
    · intro _ before e after t heq
      simp at heq
    · intro _ n
      exact ⟨s, rfl, by rw [codes, List.flatMap_nil, List.take_nil]; exact h.tracks⟩
  | cons e rest ih =>
    rw [Physical.run_cons] at hwf
    obtain ⟨s', hs⟩ : ∃ s', s.step e = some s' := by
      cases hs : s.step e with
      | none => rw [hs] at hwf; simp at hwf
      | some s' => exact ⟨s', rfl⟩
    rw [hs, Option.bind_some] at hwf
    have hwhole : ∀ n, e.bytes.length ≤ n →
        s.run (completed (e :: rest) n) = s'.run (completed rest (n - e.bytes.length)) ∧
        k.feed ((codes (e :: rest)).take n) = (k.feed e.bytes).feed ((codes rest).take (n - e.bytes.length)) := by
      intro n hn
      constructor
      · rw [completed, if_pos hn, Physical.run_cons, hs, Option.bind_some]
      · rw [codes, List.flatMap_cons, List.take_append, List.take_of_length_le hn, k.feed_append]
        rfl
    by_cases ht : Trackable s e
    · have hnext := ih (h.step hs ht) hwf
      constructor
      · intro hall before e' after t heq hrun
        cases before with
        | nil =>
          obtain ⟨rfl, -⟩ := List.cons.inj heq
          cases hrun
          exact ht
        | cons b before =>
          obtain ⟨rfl, hrest⟩ := List.cons.inj heq
          rw [Physical.run_cons, hs, Option.bind_some] at hrun
          refine hnext.mp (fun n => ?_) before e' after t hrest hrun
          obtain ⟨hr, hf⟩ := hwhole (n + e.bytes.length) (by omega)
          rw [Nat.add_sub_cancel] at hr hf
          rw [← hr, ← hf]
          exact hall _
      · intro hall n
        by_cases hn : e.bytes.length ≤ n
        · obtain ⟨hr, hf⟩ := hwhole n hn
          rw [hr, hf]
          refine hnext.mpr (fun before e' after t heq hrun => ?_) _
          exact hall (e :: before) e' after t (by rw [heq]; rfl) (by rw [Physical.run_cons, hs, Option.bind_some, hrun])
        · refine ⟨s, by rw [completed, if_neg hn]; rfl, ?_⟩
          rw [codes, List.flatMap_cons, List.take_append_of_le_length (by omega)]
          exact h.partial_code e (by omega)
    · constructor
      · intro hall
        obtain ⟨t, hrun, htrack⟩ := hall e.bytes.length
        obtain ⟨hr, hf⟩ := hwhole e.bytes.length (le_refl _)
        rw [hr, Nat.sub_self, completed_zero] at hrun
        rw [hf, Nat.sub_self, List.take_zero] at htrack
        cases hrun
        exact absurd htrack (h.lost hs ht)
      · intro hall
        exact absurd (hall [] e rest s rfl rfl) ht

theorem keyboardInit_follows : Follows keyboardInit Physical.released := by
  constructor <;> rfl

/-- After every byte of a stream the flags say which modifiers are down and the parity of Caps Lock,
exactly if Caps Lock never repeats in it and neither Ctrl key is released while the other is down. -/
theorem modifiers_tracked {events : List KeyEvent} (hwf : (Physical.released.run events).isSome) :
    (∀ n, ∃ s, Physical.released.run (completed events n) = some s ∧
      Tracks (keyboardInit.feed ((codes events).take n)) s) ↔
      ∀ before e after s, events = before ++ e :: after → Physical.released.run before = some s → Trackable s e :=
  keyboardInit_follows.run hwf

/-- Both Ctrl keys go down and the right one up. -/
def ctrlOverlap : List KeyEvent := [⟨.press, leftCtrlKey⟩, ⟨.press, rightCtrlKey⟩, ⟨.release, rightCtrlKey⟩]

/-- Caps Lock is held until it repeats. -/
def capsHeld : List KeyEvent := [⟨.press, capsLockKey⟩, ⟨.typematic, capsLockKey⟩]

/-- The bytes 1D, E0 1D, E0 9D leave the left Ctrl key down and the flag clear; 3A, 3A toggle the lock
twice for one press. -/
theorem modifiers_lost :
    (∃ s, Physical.released.run ctrlOverlap = some s ∧ s.down leftCtrlKey = true ∧
      codes ctrlOverlap = [0x1D, 0xE0, 0x1D, 0xE0, 0x9D] ∧
      (keyboardInit.feed (codes ctrlOverlap)).ctrlPressed = false ∧
      ¬ Tracks (keyboardInit.feed (codes ctrlOverlap)) s) ∧
    ∃ s, Physical.released.run capsHeld = some s ∧ s.capsPresses = 1 ∧ codes capsHeld = [0x3A, 0x3A] ∧
      (keyboardInit.feed (codes capsHeld)).capsLock = false ∧ ¬ Tracks (keyboardInit.feed (codes capsHeld)) s := by
  refine ⟨⟨_, rfl, by decide, rfl, by decide, ?_⟩, ⟨_, rfl, rfl, rfl, by decide, ?_⟩⟩
  · rintro ⟨-, hctrl, -, -⟩
    revert hctrl
    decide
  · rintro ⟨-, -, -, hcaps⟩
    revert hcaps
    decide

/-- A Ctrl key held over the other one is tracked. -/
theorem modifiers_tracked_overlap : ∃ s,
    Physical.released.run (completed [⟨.press, leftCtrlKey⟩, ⟨.press, rightCtrlKey⟩] 3) = some s ∧
      Tracks (keyboardInit.feed ((codes [⟨.press, leftCtrlKey⟩, ⟨.press, rightCtrlKey⟩]).take 3)) s := by
  refine (@modifiers_tracked [⟨.press, leftCtrlKey⟩, ⟨.press, rightCtrlKey⟩] (by decide)).mpr ?_ 3
  intro before e after s heq _
  constructor
  · rintro ⟨hm, -⟩
    have : e ∈ [⟨.press, leftCtrlKey⟩, ⟨.press, rightCtrlKey⟩] := by rw [heq]; simp
    simp only [List.mem_cons, List.not_mem_nil, or_false] at this
    rcases this with rfl | rfl <;> cases hm
  · rintro ⟨hm, -⟩
    have : e ∈ [⟨.press, leftCtrlKey⟩, ⟨.press, rightCtrlKey⟩] := by rw [heq]; simp
    simp only [List.mem_cons, List.not_mem_nil, or_false] at this
    rcases this with rfl | rfl <;> cases hm

end SpectreOS
