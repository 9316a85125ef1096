/-
A table of slots, each in use or free, searched from the first slot on for the one that holds a key. As
long as no two slots in use share a key, the table is a partial function from keys to values, and
setting one slot changes it at one key.
-/
import Mathlib.Tactic

namespace BlockIO

/-- How a slot shows that it is in use, its key and its value. -/
structure Slots (S K V : Type) where
  used : S → Bool
  key : S → K
  value : S → V

namespace Slots

variable {S K V : Type} {n : ℕ} (L : Slots S K V) {t : Fin n → S} {k : K} {v : V} {i : Fin n} {s : S}

def free (t : Fin n → S) : Option (Fin n) := (List.finRange n).find? fun i => !L.used (t i)

/-- No two slots in use share a key. -/
def Unique (t : Fin n → S) : Prop :=
  ∀ i j, L.used (t i) = true → L.used (t j) = true → L.key (t i) = L.key (t j) → i = j

def Binds (t : Fin n → S) (k : K) (v : V) : Prop := ∃ i, L.used (t i) = true ∧ L.key (t i) = k ∧ L.value (t i) = v

theorem free_eq_none : L.free t = none ↔ ∀ i, L.used (t i) = true := by
  unfold free
  simp [List.find?_eq_none, List.mem_finRange]

theorem not_used_of_free (h : L.free t = some i) : L.used (t i) = false := by
  have := List.find?_some h
  simpa using this

/-- A full table has as many keys as slots. -/
theorem full_iff (hu : L.Unique t) :
    L.free t = none ↔ ∃ keys : Finset K, keys.card = n ∧ ∀ k ∈ keys, ∃ v, L.Binds t k v := by
  classical
  rw [free_eq_none]
  constructor
  · intro hall
    refine ⟨Finset.univ.image fun i => L.key (t i), ?_, fun k hk => ?_⟩
    · rw [Finset.card_image_of_injective _ fun i j h => hu i j (hall i) (hall j) h, Finset.card_univ, Fintype.card_fin]
    · obtain ⟨i, -, rfl⟩ := Finset.mem_image.1 hk
      exact ⟨_, i, hall i, rfl, rfl⟩
  · rintro ⟨keys, hcard, hbound⟩ i
    let taken := Finset.univ.filter fun i => L.used (t i) = true
    have hkeys : keys ⊆ taken.image fun i => L.key (t i) := by
      intro k hk
      obtain ⟨v, i, hi, hki, -⟩ := hbound k hk
      exact Finset.mem_image.2 ⟨i, by simp [taken, hi], hki⟩
    have hle : n ≤ taken.card := hcard.symm.trans_le ((Finset.card_le_card hkeys).trans Finset.card_image_le)
    have huniv : taken = Finset.univ := Finset.eq_univ_of_card _ (by
      rw [Fintype.card_fin]
      exact le_antisymm (card_finset_fin_le taken) hle)
    have hi : i ∈ taken := huniv ▸ Finset.mem_univ i
    simpa [taken] using hi

/-! ## Setting a slot -/

section Update

variable (hothers : ∀ j, j ≠ i → L.used (t j) = true → L.key (t j) ≠ L.key s)

include hothers in
theorem Unique.update (hu : L.Unique t) : L.Unique (Function.update t i s) := by
  intro a b ha hb hab
  by_cases hai : a = i
  · subst hai
    by_cases hba : b = a
    · exact hba.symm
    · rw [Function.update_self, Function.update_of_ne hba] at hab
      rw [Function.update_of_ne hba] at hb
      exact absurd hab.symm (hothers b hba hb)
  · rw [Function.update_of_ne hai] at ha hab
    by_cases hbi : b = i
    · subst hbi
      rw [Function.update_self] at hab
      exact absurd hab (hothers a hai ha)
    · rw [Function.update_of_ne hbi] at hb hab
      exact hu a b ha hb hab

variable [DecidableEq K]

include hothers in
/-- A slot that was free, or held the key, now tells the key's value; other keys are as before. -/
theorem binds_update (hs : L.used s = true) (hold : L.used (t i) = true → L.key (t i) = L.key s) :
    L.Binds (Function.update t i s) k v ↔ if k = L.key s then v = L.value s else L.Binds t k v := by
  split
  · rename_i hk
    subst hk
    constructor
    · rintro ⟨j, hj, hkj, hv⟩
      by_cases hji : j = i
      · subst hji
        rw [Function.update_self] at hv
        exact hv.symm
      · rw [Function.update_of_ne hji] at hj hkj
        exact absurd hkj (hothers j hji hj)
    · rintro rfl
      exact ⟨i, by rw [Function.update_self]; exact ⟨hs, rfl, rfl⟩⟩
  · rename_i hk
    constructor
    · rintro ⟨j, hj, hkj, hv⟩
      have hji : j ≠ i := by
        rintro rfl
        rw [Function.update_self] at hkj
        exact hk hkj.symm
      rw [Function.update_of_ne hji] at hj hkj hv
      exact ⟨j, hj, hkj, hv⟩
    · rintro ⟨j, hj, hkj, hv⟩
      have hji : j ≠ i := by
        rintro rfl
        exact hk (hkj.symm.trans (hold hj))
      exact ⟨j, by rw [Function.update_of_ne hji]; exact ⟨hj, hkj, hv⟩⟩

end Update

/-! ## Freeing the slots of a key -/

section Clear

variable {t' : Fin n → S}
  (hclear : ∀ i, (L.used (t' i) = true ↔ L.used (t i) = true ∧ L.key (t i) ≠ k) ∧ L.key (t' i) = L.key (t i) ∧
    L.value (t' i) = L.value (t i))

include hclear

theorem Unique.clear (hu : L.Unique t) : L.Unique t' := by
  intro a b ha hb hab
  obtain ⟨hused, hkey, -⟩ := hclear a
  obtain ⟨hused', hkey', -⟩ := hclear b
  exact hu a b (hused.1 ha).1 (hused'.1 hb).1 (hkey.symm.trans (hab.trans hkey'))

theorem binds_clear {q : K} : L.Binds t' q v ↔ q ≠ k ∧ L.Binds t q v := by
  constructor
  · rintro ⟨i, hi, rfl, rfl⟩
    obtain ⟨hused, hkey, hvalue⟩ := hclear i
    exact ⟨hkey ▸ (hused.1 hi).2, i, (hused.1 hi).1, hkey.symm, hvalue.symm⟩
  · rintro ⟨hq, i, hi, rfl, rfl⟩
    obtain ⟨hused, hkey, hvalue⟩ := hclear i
    exact ⟨i, hused.2 ⟨hi, hq⟩, hkey, hvalue⟩

end Clear

/-! ## Searching -/

variable [DecidableEq K]

/-- The first slot in use for a key. -/
def find (t : Fin n → S) (k : K) : Option (Fin n) := (List.finRange n).find? fun i => L.used (t i) && L.key (t i) == k

theorem used_of_find (h : L.find t k = some i) : L.used (t i) = true ∧ L.key (t i) = k := by
  have := List.find?_some h
  simpa using this

theorem find_eq_some (hu : L.Unique t) : L.find t k = some i ↔ L.used (t i) = true ∧ L.key (t i) = k := by
  refine ⟨L.used_of_find, fun ⟨hi, hk⟩ => ?_⟩
  cases hf : L.find t k with
  | none =>
    have := List.find?_eq_none.1 hf i (List.mem_finRange i)
    simp [hi, hk] at this
  | some j =>
    obtain ⟨hj, hkj⟩ := L.used_of_find hf
    rw [hu i j hi hj (hk.trans hkj.symm)]

theorem find_eq_none : L.find t k = none ↔ ∀ i, L.used (t i) = true → L.key (t i) ≠ k := by
  unfold find
  simp [List.find?_eq_none, List.mem_finRange]

theorem not_binds_of_find (h : L.find t k = none) : ¬ L.Binds t k v :=
  fun ⟨i, hi, hk, _⟩ => L.find_eq_none.1 h i hi hk

/-- The slot that is found tells the value. -/
theorem binds_of_find (hu : L.Unique t) (h : L.find t k = some i) : L.Binds t k v ↔ L.value (t i) = v := by
  obtain ⟨hi, hk⟩ := L.used_of_find h
  constructor
  · rintro ⟨j, hj, hkj, hv⟩
    rwa [hu i j hi hj (hk.trans hkj.symm)]
  · exact fun hv => ⟨i, hi, hk, hv⟩

end Slots

/-! ## What a history leaves -/

/-- A change of a partial function. -/
inductive TableEvent (K V : Type) where
  | put (k : K) (v : V)
  | drop (k : K)

def TableEvent.key {K V : Type} : TableEvent K V → K
  | .put k _ => k
  | .drop k => k

section History

variable {K V : Type} {history : List (TableEvent K V)} {k : K} {v : V} {e : TableEvent K V}

/-- The latest event of the key put this value. -/
def Latest (history : List (TableEvent K V)) (k : K) (v : V) : Prop :=
  ∃ before after, history = before ++ .put k v :: after ∧ ∀ e ∈ after, e.key ≠ k

theorem not_latest_nil : ¬ Latest ([] : List (TableEvent K V)) k v := by
  rintro ⟨before, after, h, -⟩
  simp at h

theorem latest_snoc : Latest (history ++ [e]) k v ↔ e = .put k v ∨ (e.key ≠ k ∧ Latest history k v) := by
  constructor
  · rintro ⟨before, after, h, hafter⟩
    induction after using List.reverseRecOn with
    | nil => exact .inl (List.singleton_inj.1 (List.append_inj' h rfl).2)
    | append_singleton after last _ =>
      rw [← List.cons_append, ← List.append_assoc] at h
      obtain ⟨hhistory, hlast⟩ := List.append_inj' h rfl
      obtain rfl : e = last := by simpa using hlast
      exact .inr ⟨hafter e (by simp), before, after, hhistory, fun e' he => hafter e' (by simp [he])⟩
  · rintro (rfl | ⟨hne, before, after, rfl, hafter⟩)
    · exact ⟨history, [], rfl, by simp⟩
    · refine ⟨before, after ++ [e], by simp, fun e' he => ?_⟩
      rcases List.mem_append.1 he with he | he
      · exact hafter e' he
      · exact List.mem_singleton.1 he ▸ hne

end History

end BlockIO
