/-
Chains of a relation: where a point leads to finitely many others, every chain from it comes to an
end exactly when none of the points it leads to lies on a cycle.
-/
import Mathlib.Order.WellFounded
import Mathlib.Data.Fintype.EquivFin
import Mathlib.Logic.Relation

namespace BlockIO

variable {α : Type*} {r : α → α → Prop} {a : α}

/-- `r` leads from `a` into no cycle. -/
def Acyclic (r : α → α → Prop) (a : α) : Prop := ∀ b, Relation.ReflTransGen r a b → ¬ Relation.TransGen r b b

theorem Acyclic.acc (h : Acyclic r a) (hfin : {b | Relation.ReflTransGen r a b}.Finite) : Acc (flip r) a := by
  let S := {b // Relation.ReflTransGen r a b}
  let after : S → S → Prop := fun x y => Relation.TransGen r y.1 x.1
  have : Finite S := hfin
  have : IsTrans S after := ⟨fun _ _ _ hxy hyz => hyz.trans hxy⟩
  have : Std.Irrefl after := ⟨fun x => h x.1 x.2⟩
  have hwf : WellFounded after := Finite.wellFounded_of_trans_of_irrefl after
  have hacc : ∀ x : S, Acc (flip r) x.1 := by
    intro x
    induction x using hwf.induction with
    | _ x ih => exact Acc.intro _ fun c hc => ih ⟨c, x.2.tail hc⟩ (.single hc)
  exact hacc ⟨a, .refl⟩

theorem acyclic_of_acc (h : Acc (flip r) a) : Acyclic r a := by
  induction h with
  | intro a _ ih =>
    intro b hab hcycle
    rcases hab.cases_head with rfl | ⟨c, hac, hcb⟩
    · obtain ⟨c, hac, hca⟩ := Relation.TransGen.head'_iff.1 hcycle
      exact ih c hac a hca hcycle
    · exact ih c hac b hcb hcycle

theorem acc_iff_acyclic (hfin : {b | Relation.ReflTransGen r a b}.Finite) : Acc (flip r) a ↔ Acyclic r a :=
  ⟨acyclic_of_acc, fun h => h.acc hfin⟩

end BlockIO
