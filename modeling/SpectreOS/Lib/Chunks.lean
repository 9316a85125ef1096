/-
Block-wise processing of a stream: whole blocks are folded into a state from the front, what is too
short for a block stays behind. How a stream is cut into pieces does not matter.
-/
import Mathlib.Tactic

namespace Chunks

variable {σ α : Type} (n : Nat) (f : σ → List α → σ)

/-- The state after the whole blocks of `n` at the front, and the rest. -/
def foldChunks (s : σ) (m : List α) : σ × List α :=
  if _h : n ≤ m.length ∧ 0 < n then foldChunks (f s (m.take n)) (m.drop n) else (s, m)
termination_by m.length
decreasing_by rw [List.length_drop]; omega

variable {n f} {s : σ} {m : List α}

theorem foldChunks_short (h : m.length < n) : foldChunks n f s m = (s, m) := by
  rw [foldChunks, dif_neg (by omega)]

theorem foldChunks_block (hn : 0 < n) (h : n ≤ m.length) :
    foldChunks n f s m = foldChunks n f (f s (m.take n)) (m.drop n) := by
  rw [foldChunks, dif_pos ⟨h, hn⟩]

theorem foldChunks_one (hn : 0 < n) (h : m.length = n) : foldChunks n f s m = (f s m, []) := by
  rw [foldChunks_block hn h.ge, List.take_of_length_le h.le, List.drop_eq_nil_of_le h.le,
    foldChunks_short (by simpa using hn)]

/-- The rest is the end of the stream. -/
theorem foldChunks_rest (hn : 0 < n) : (foldChunks n f s m).2 = m.drop (m.length / n * n) ∧
    (foldChunks n f s m).2.length = m.length % n := by
  induction hk : m.length using Nat.strong_induction_on generalizing s m with
  | _ k ih =>
    subst hk
    by_cases h : n ≤ m.length
    · rw [foldChunks_block hn h]
      obtain ⟨h1, h2⟩ := ih (m.drop n).length (by rw [List.length_drop]; omega) (s := f s (m.take n)) rfl
      rw [List.length_drop] at h1 h2
      refine ⟨?_, by rw [h2, Nat.mod_eq_sub_mod h]⟩
      rw [h1, List.drop_drop, Nat.div_eq_sub_div hn h, Nat.add_mul, Nat.one_mul, Nat.add_comm n]
    · rw [foldChunks_short (by omega), Nat.div_eq_of_lt (by omega), Nat.mod_eq_of_lt (by omega)]
      simp

/-- A stream in two pieces: the second is put behind what the first has left. -/
theorem foldChunks_append (hn : 0 < n) (x : List α) :
    foldChunks n f s (m ++ x) = foldChunks n f (foldChunks n f s m).1 ((foldChunks n f s m).2 ++ x) := by
  induction hk : m.length using Nat.strong_induction_on generalizing s m with
  | _ k ih =>
    subst hk
    by_cases h : n ≤ m.length
    · rw [foldChunks_block (m := m) hn h, foldChunks_block hn (by rw [List.length_append]; omega),
        List.take_append_of_le_length h, List.drop_append_of_le_length h]
      exact ih (m.drop n).length (by rw [List.length_drop]; omega) rfl
    · rw [foldChunks_short (m := m) (by omega)]

/-- A stream of whole blocks, block by block. -/
theorem foldChunks_blocks (hn : 0 < n) {k : Nat} (h : m.length = k * n) :
    (foldChunks n f s m).1 = (List.range k).foldl (fun s i => f s ((m.drop (i * n)).take n)) s := by
  induction k generalizing s m with
  | zero =>
    rw [Nat.zero_mul] at h
    rw [foldChunks_short (by omega)]
    rfl
  | succ k ih =>
    rw [Nat.succ_mul] at h
    rw [foldChunks_block hn (by omega), ih (by rw [List.length_drop]; omega), List.range_succ_eq_map, List.foldl_cons,
      List.foldl_map]
    simp only [Nat.zero_mul, List.drop_zero, List.drop_drop]
    congr 1
    funext s i
    rw [Nat.succ_mul, Nat.add_comm n]

end Chunks
