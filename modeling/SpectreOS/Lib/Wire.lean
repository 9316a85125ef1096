/-
Parties that hear each other over a medium which keeps every message: what has been sent once may be
heard any number of times, by anyone, in any order, or never. So loss, delay, reordering and
duplication are all choices of the schedule. A message is good when the events before it justify it;
a party whose own invariant makes it send good messages, as long as those it hears are good, keeps
that invariant in every run (`Party.run_sound`).
-/
import Mathlib.Tactic

namespace Wire

/-- How a party of state `σ` does an event of `ε`: which messages the event takes from the medium, what
it makes of the state, and what has been sent in a state. -/
structure Party (σ ε μ : Type) where
  hears : ε → List μ
  step : ε → σ → Option σ
  sent : σ → List μ

namespace Party

variable {ι σ ε μ : Type} [DecidableEq ι] [Fintype ι] [DecidableEq μ] (P : Party σ ε μ)

/-- The message is on the medium. -/
def OnWire (s : ι → σ) (m : μ) : Prop := ∃ i, m ∈ P.sent (s i)

instance instDecidableOnWire (s : ι → σ) (m : μ) : Decidable (P.OnWire s m) :=
  inferInstanceAs (Decidable (∃ _, _))

/-- One party's event, when the messages it takes are on the medium. -/
def turn (s : ι → σ) (a : ι × ε) : Option (ι → σ) :=
  if ∀ m ∈ P.hears a.2, P.OnWire s m then (P.step a.2 (s a.1)).map (Function.update s a.1) else none

/-- The states after some events, if each was possible. -/
def run : (ι → σ) → List (ι × ε) → Option (ι → σ)
  | s, [] => some s
  | s, a :: as => (P.turn s a).bind fun s' => run s' as

variable {P} {s s' : ι → σ} {a : ι × ε}

theorem turn_eq_some : P.turn s a = some s' ↔
    (∀ m ∈ P.hears a.2, P.OnWire s m) ∧ ∃ t, P.step a.2 (s a.1) = some t ∧ Function.update s a.1 t = s' := by
  unfold turn
  split
  · rename_i h
    rw [Option.map_eq_some_iff]
    exact ⟨fun ht => ⟨h, ht⟩, fun ht => ht.2⟩
  · rename_i h
    exact ⟨fun hn => (by cases hn), fun hn => absurd hn.1 h⟩

theorem run_cons {as : List (ι × ε)} (h : P.turn s a = some s') : P.run s (a :: as) = P.run s' as := by
  rw [run, h, Option.bind_some]

theorem run_append {as bs : List (ι × ε)} (h : P.run s as = some s') : P.run s (as ++ bs) = P.run s' bs := by
  induction as generalizing s with
  | nil =>
    cases h
    rfl
  | cons a as ih =>
    obtain ⟨mid, hmid, h⟩ := Option.bind_eq_some_iff.1 h
    rw [List.cons_append, run_cons hmid, ih h]

/-- What the events justify, for messages and for states; both stay as more happens. -/
structure Sound (P : Party σ ε μ) (Good : List (ι × ε) → μ → Prop) (Inv : List (ι × ε) → ι → σ → Prop) : Prop where
  good_mono : ∀ {past a m}, Good past m → Good (past ++ [a]) m
  inv_mono : ∀ {past a i s}, Inv past i s → a.1 ≠ i → Inv (past ++ [a]) i s
  step : ∀ {past i e s s'}, Inv past i s → (∀ m ∈ P.hears e, Good past m) → P.step e s = some s' →
    Inv (past ++ [(i, e)]) i s' ∧ ∀ m ∈ P.sent s', m ∈ P.sent s ∨ Good (past ++ [(i, e)]) m

section

variable {Good : List (ι × ε) → μ → Prop} {Inv : List (ι × ε) → ι → σ → Prop} {past : List (ι × ε)}

/-- One event keeps the invariants of all parties and the medium good. -/
theorem Sound.turn (h : Sound P Good Inv) (hinv : ∀ i, Inv past i (s i)) (hgood : ∀ m, P.OnWire s m → Good past m)
    (hturn : P.turn s a = some s') :
    (∀ i, Inv (past ++ [a]) i (s' i)) ∧ ∀ m, P.OnWire s' m → Good (past ++ [a]) m := by
  obtain ⟨hhears, t, ht, rfl⟩ := turn_eq_some.1 hturn
  obtain ⟨hnew, hsent⟩ := h.step (hinv a.1) (fun m hm => hgood m (hhears m hm)) ht
  refine ⟨fun i => ?_, ?_⟩
  · by_cases hi : i = a.1
    · subst hi
      rw [Function.update_self]
      exact hnew
    · rw [Function.update_of_ne hi]
      exact h.inv_mono (hinv i) (Ne.symm hi)
  · rintro m ⟨i, hm⟩
    by_cases hi : i = a.1
    · subst hi
      rw [Function.update_self] at hm
      exact (hsent m hm).elim (fun hold => h.good_mono (hgood m ⟨_, hold⟩)) id
    · rw [Function.update_of_ne hi] at hm
      exact h.good_mono (hgood m ⟨i, hm⟩)

/-- A run keeps them. -/
theorem Sound.run (h : Sound P Good Inv) (hinv : ∀ i, Inv past i (s i)) (hgood : ∀ m, P.OnWire s m → Good past m)
    {events : List (ι × ε)} (hrun : P.run s events = some s') :
    (∀ i, Inv (past ++ events) i (s' i)) ∧ ∀ m, P.OnWire s' m → Good (past ++ events) m := by
  induction events generalizing s past with
  | nil =>
    cases hrun
    rw [List.append_nil]
    exact ⟨hinv, hgood⟩
  | cons a events ih =>
    obtain ⟨mid, hmid, hrest⟩ := Option.bind_eq_some_iff.1 hrun
    obtain ⟨hi, hg⟩ := h.turn hinv hgood hmid
    have := ih hi hg hrest
    rwa [List.append_assoc, List.singleton_append] at this

end

end Party

end Wire
