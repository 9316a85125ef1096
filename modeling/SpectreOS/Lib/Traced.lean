/-
Computations that record events: what holds of every event of a composed computation is put
together from its parts.
-/
import Mathlib.Tactic

namespace BlockIO

/-- A value and the events on the way to it. -/
structure Traced (ε α : Type) where
  value : α
  events : List ε

namespace Traced

variable {ε α β : Type} {P : ε → Prop}

instance : Monad (Traced ε) where
  pure a := ⟨a, []⟩
  bind x f := ⟨(f x.value).value, x.events ++ (f x.value).events⟩

/-- Events without a value. -/
def emit (events : List ε) : Traced ε Unit := ⟨(), events⟩

/-- Every event has the property. -/
def All (P : ε → Prop) (x : Traced ε α) : Prop := ∀ e ∈ x.events, P e

@[simp] theorem value_pure (a : α) : (pure a : Traced ε α).value = a := rfl

@[simp] theorem value_bind (x : Traced ε α) (f : α → Traced ε β) : (x >>= f).value = (f x.value).value := rfl

@[simp] theorem all_pure (a : α) : (pure a : Traced ε α).All P := by
  intro e he
  cases he

@[simp] theorem all_bind (x : Traced ε α) (f : α → Traced ε β) : (x >>= f).All P ↔ x.All P ∧ (f x.value).All P := by
  show (∀ e ∈ x.events ++ (f x.value).events, P e) ↔ _
  simp only [List.mem_append, or_imp, forall_and]
  exact Iff.rfl

@[simp] theorem all_emit (events : List ε) : (emit events).All P ↔ ∀ e ∈ events, P e := Iff.rfl

theorem all_ite {c : Prop} [Decidable c] {x y : Traced ε α} (hx : c → x.All P) (hy : ¬ c → y.All P) :
    (if c then x else y).All P := by
  split
  · exact hx ‹_›
  · exact hy ‹_›

end Traced

end BlockIO
