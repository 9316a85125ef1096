/-
Two machines in lockstep: each takes an input, answers with some outputs or fails. If related states answer
alike, fail together and stay related, so do whole runs.
-/
import Mathlib.Logic.Basic

namespace Lockstep

variable {ι ο σ τ : Type}

/-- The outputs of a run, and the state after it. -/
def run (step : σ → ι → Option (List ο × σ)) (s : σ) : List ι → Option (List ο × σ)
  | [] => some ([], s)
  | x :: xs => (step s x).bind fun (outputs, s) => (run step s xs).bind fun (rest, s) => some (outputs ++ rest, s)

/-- Both fail, or the outputs are the same and the states are related. -/
abbrev Alike (R : σ → τ → Prop) : Option (List ο × σ) → Option (List ο × τ) → Prop :=
  Option.Rel fun p q => p.1 = q.1 ∧ R p.2 q.2

theorem Alike.mono {R S : σ → τ → Prop} {x : Option (List ο × σ)} {y : Option (List ο × τ)} (h : Alike R x y)
    (hRS : ∀ s t, R s t → S s t) : Alike S x y := by
  cases h with
  | some h => exact .some ⟨h.1, hRS _ _ h.2⟩
  | none => exact .none

theorem Alike.bind {R S : σ → τ → Prop} {x : Option (List ο × σ)} {y : Option (List ο × τ)}
    {k : List ο × σ → Option (List ο × σ)} {l : List ο × τ → Option (List ο × τ)} (h : Alike R x y)
    (hkl : ∀ outputs s t, R s t → Alike S (k (outputs, s)) (l (outputs, t))) : Alike S (x.bind k) (y.bind l) := by
  cases h with
  | @some p q h =>
    obtain ⟨outputs, s⟩ := p
    obtain ⟨outputs', t⟩ := q
    obtain ⟨rfl, hR⟩ := h
    exact hkl _ s t hR
  | none => exact .none

/-- An answer of one is an answer of the other. -/
theorem Alike.of_some {R : σ → τ → Prop} {x : Option (List ο × σ)} {outputs : List ο} {t : τ}
    (h : Alike R x (some (outputs, t))) : ∃ s, x = some (outputs, s) ∧ R s t := by
  cases h with
  | @some p _ h =>
    obtain ⟨outputs', s⟩ := p
    obtain ⟨rfl, hR⟩ := h
    exact ⟨s, rfl, hR⟩

theorem Alike.of_none {R : σ → τ → Prop} {x : Option (List ο × σ)} (h : Alike R x (none : Option (List ο × τ))) :
    x = none := by
  cases h
  rfl

variable {f : σ → ι → Option (List ο × σ)} {g : τ → ι → Option (List ο × τ)} {R : σ → τ → Prop} {ok : ι → Prop}

/-- Lockstep on each input carries over to runs. -/
theorem run_alike (hstep : ∀ {s t x}, R s t → ok x → Alike R (f s x) (g t x)) {s : σ} {t : τ} {xs : List ι} (h : R s t)
    (hxs : ∀ x ∈ xs, ok x) : Alike R (run f s xs) (run g t xs) := by
  induction xs generalizing s t with
  | nil => exact .some ⟨rfl, h⟩
  | cons x xs ih =>
    rw [List.forall_mem_cons] at hxs
    refine (hstep h hxs.1).bind fun outputs s t hst => ?_
    refine (ih hst hxs.2).bind fun rest s t hst => ?_
    exact .some ⟨rfl, hst⟩

end Lockstep
