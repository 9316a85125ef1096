/-
Guarded transition systems: a step function that answers `none` where an action is not possible,
its runs, conditions on the steps of a run, and the induction rules the state machines of this
development are proved with.
-/
import Mathlib.Tactic

namespace Trace

variable {σ α : Type} (step : σ → α → Option σ)

/-- The state after a run, if every action of it was possible. -/
def exec : σ → List α → Option σ
  | s, [] => some s
  | s, a :: as => (step s a).bind fun s' => exec s' as

/-- Every step of the run meets `ok`, a condition on the state before the step and the action. -/
def Along (ok : σ → α → Prop) : σ → List α → Prop
  | _, [] => True
  | s, a :: as => ok s a ∧ ∀ s' ∈ step s a, Along ok s' as

/-- Every state of the run has `P`, from the first one to where the run ends or gets stuck. -/
def Always (P : σ → Prop) : σ → List α → Prop
  | s, [] => P s
  | s, a :: as => P s ∧ ∀ s' ∈ step s a, Always P s' as

variable {step} {ok : σ → α → Prop} {s s' : σ}

theorem exec_cons {a : α} {as : List α} (h : step s a = some s') : exec step s (a :: as) = exec step s' as := by
  rw [exec, h, Option.bind_some]

theorem exec_append (as bs : List α) :
    exec step s (as ++ bs) = (exec step s as).bind fun s' => exec step s' bs := by
  induction as generalizing s with
  | nil => rfl
  | cons a as ih =>
    simp only [List.cons_append, exec]
    cases step s a with
    | none => rfl
    | some t => exact ih

theorem exec_snoc {as : List α} {a : α} :
    exec step s (as ++ [a]) = some s' ↔ ∃ t, exec step s as = some t ∧ step t a = some s' := by
  rw [exec_append]
  cases exec step s as with
  | none => simp
  | some t => cases h : step t a <;> simp [exec, h]

theorem along_snoc {as : List α} {a : α} {t : σ} (h : exec step s as = some t) :
    Along step ok s (as ++ [a]) ↔ Along step ok s as ∧ ok t a := by
  induction as generalizing s with
  | nil =>
    cases h
    simp [Along]
  | cons b as ih =>
    simp only [exec, Option.bind_eq_some_iff] at h
    obtain ⟨u, hu, h⟩ := h
    simp only [List.cons_append, Along, hu, Option.mem_def, Option.some.injEq, forall_eq']
    rw [ih h, and_assoc]

/-- An invariant that every step keeps holds after every run. -/
theorem exec_invariant {P : σ → Prop} (hstep : ∀ s a s', P s → step s a = some s' → P s') {as : List α} (hs : P s)
    (h : exec step s as = some s') : P s' := by
  induction as generalizing s with
  | nil => cases h; exact hs
  | cons a as ih =>
    simp only [exec, Option.bind_eq_some_iff] at h
    obtain ⟨t, ht, h⟩ := h
    exact ih (hstep s a t hs ht) h

/-- A relation to a machine that is never stuck, kept by every step, holds after every run of both. -/
theorem exec_simulates {τ : Type} {next : τ → α → τ} {R : σ → τ → Prop}
    (hstep : ∀ s t a s', R s t → step s a = some s' → R s' (next t a)) {as : List α} {t : τ} (hst : R s t)
    (h : exec step s as = some s') : R s' (as.foldl next t) := by
  induction as generalizing s t with
  | nil => cases h; exact hst
  | cons a as ih =>
    simp only [exec, Option.bind_eq_some_iff] at h
    obtain ⟨u, hu, h⟩ := h
    exact ih (hstep s t a u hst hu) h

/-- An invariant that the permitted steps keep holds after every run of permitted steps. -/
theorem along_invariant {P : σ → Prop} (hstep : ∀ s a s', P s → ok s a → step s a = some s' → P s') {as : List α}
    (hs : P s) (hok : Along step ok s as) (h : exec step s as = some s') : P s' := by
  induction as generalizing s with
  | nil => cases h; exact hs
  | cons a as ih =>
    simp only [exec, Option.bind_eq_some_iff] at h
    obtain ⟨t, ht, h⟩ := h
    exact ih (hstep s a t hs hok.1 ht) (hok.2 t ht) h

/-- An invariant gives a property of every state of a run. -/
theorem always_of_invariant {I P : σ → Prop} (hstep : ∀ s a s', I s → ok s a → step s a = some s' → I s')
    (hP : ∀ s, I s → P s) {as : List α} (hs : I s) (hok : Along step ok s as) : Always step P s as := by
  induction as generalizing s with
  | nil => exact hP s hs
  | cons a as ih => exact ⟨hP s hs, fun t ht => ih (hstep s a t hs hok.1 ht) (hok.2 t ht)⟩

/-- Where each step keeps a property exactly when it meets a condition, all states of a run have the
property exactly when all its steps meet the condition. -/
theorem always_iff_along {I P : σ → Prop}
    (hstep : ∀ s a s', I s → P s → step s a = some s' → I s' ∧ (P s' ↔ ok s a))
    (hstuck : ∀ s a, I s → P s → step s a = none → ok s a) {as : List α} (hs : I s) (hp : P s) :
    Always step P s as ↔ Along step ok s as := by
  induction as generalizing s with
  | nil => exact iff_of_true hp trivial
  | cons a as ih =>
    simp only [Always, Along, hp, true_and]
    cases h : step s a with
    | none => simp [hstuck s a hs hp h]
    | some t =>
      obtain ⟨ht, hiff⟩ := hstep s a t hs hp h
      simp only [Option.mem_def, Option.some.injEq, forall_eq']
      constructor
      · intro hall
        have hpt : P t := by
          cases as with
          | nil => exact hall
          | cons _ _ => exact hall.1
        exact ⟨hiff.1 hpt, (ih ht hpt).1 hall⟩
      · rintro ⟨hok, hall⟩
        exact (ih ht (hiff.2 hok)).2 hall

end Trace
