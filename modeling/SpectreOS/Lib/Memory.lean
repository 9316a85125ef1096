/-
A memory that keeps a record of what was written: a value at each index, and the indices written so
far. Ranges of it are moved and filled by loops that store one value after the other.
-/
import Mathlib.Tactic

namespace BlockIO

structure Memory (ι α : Type) where
  cell : ι → α
  written : List ι

namespace Memory

section

variable {ι α : Type} [DecidableEq ι] (m : Memory ι α) (i : ι) (a : α)

def store : Memory ι α := ⟨Function.update m.cell i a, m.written ++ [i]⟩

@[simp] theorem store_written : (m.store i a).written = m.written ++ [i] := rfl

@[simp] theorem store_cell_self : (m.store i a).cell i = a := Function.update_self ..

theorem store_cell_of_ne {i j : ι} (h : j ≠ i) : (m.store i a).cell j = m.cell j := Function.update_of_ne h ..

end

/-! ## Where stores go -/

section Within

variable {ι α : Type} {S T : Set ι} {m m' m'' : Memory ι α}

/-- The second memory comes from the first by stores in `S`. -/
def Within (S : Set ι) (m m' : Memory ι α) : Prop :=
  ∃ l, m'.written = m.written ++ l ∧ (∀ i ∈ l, i ∈ S) ∧ ∀ i, i ∉ l → m'.cell i = m.cell i

theorem Within.refl (S : Set ι) (m : Memory ι α) : Within S m m :=
  ⟨[], (List.append_nil _).symm, fun _ hi => absurd hi List.not_mem_nil, fun _ _ => rfl⟩

theorem Within.trans (h : Within S m m') (h' : Within S m' m'') : Within S m m'' := by
  obtain ⟨l, hw, hS, hcell⟩ := h
  obtain ⟨l', hw', hS', hcell'⟩ := h'
  refine ⟨l ++ l', by rw [hw', hw, List.append_assoc], fun i hi => ?_, fun i hi => ?_⟩
  · exact (List.mem_append.1 hi).elim (hS i) (hS' i)
  · rw [List.mem_append, not_or] at hi
    rw [hcell' i hi.2, hcell i hi.1]

theorem Within.mono (h : Within S m m') (hST : S ⊆ T) : Within T m m' := by
  obtain ⟨l, hw, hS, hcell⟩ := h
  exact ⟨l, hw, fun i hi => hST (hS i hi), hcell⟩

end Within

section Ranges

variable {α : Type} (m : Memory ℕ α) (dst src start n : ℕ) (a : α)

/-- `n` values from `src` on, in ascending order, to `dst` on. -/
def moveRange : Memory ℕ α := (List.range n).foldl (fun m x => m.store (dst + x) (m.cell (src + x))) m

def fillRange : Memory ℕ α := (List.range n).foldl (fun m x => m.store (start + x) a) m

theorem moveRange_succ :
    m.moveRange dst src (n + 1) = (m.moveRange dst src n).store (dst + n) ((m.moveRange dst src n).cell (src + n)) := by
  rw [moveRange, List.range_succ, List.foldl_append]
  rfl

theorem fillRange_succ : m.fillRange start (n + 1) a = (m.fillRange start n a).store (start + n) a := by
  rw [fillRange, List.range_succ, List.foldl_append]
  rfl

/-- A move downwards overwrites nothing that it still has to read. -/
theorem moveRange_cell {dst src : ℕ} (h : dst ≤ src) (k : ℕ) :
    (m.moveRange dst src n).cell k = if dst ≤ k ∧ k < dst + n then m.cell (src + (k - dst)) else m.cell k := by
  induction n generalizing k with
  | zero => exact (if_neg (by omega)).symm
  | succ n ih =>
    rw [moveRange_succ]
    by_cases hk : k = dst + n
    · subst hk
      rw [store_cell_self, ih, if_neg (by omega), if_pos (by omega), Nat.add_sub_cancel_left]
    · rw [store_cell_of_ne _ _ hk, ih]
      exact if_congr (by omega) rfl rfl

theorem fillRange_cell (k : ℕ) :
    (m.fillRange start n a).cell k = if start ≤ k ∧ k < start + n then a else m.cell k := by
  induction n generalizing k with
  | zero => exact (if_neg (by omega)).symm
  | succ n ih =>
    rw [fillRange_succ]
    by_cases hk : k = start + n
    · subst hk
      rw [store_cell_self, if_pos (by omega)]
    · rw [store_cell_of_ne _ _ hk, ih]
      exact if_congr (by omega) rfl rfl

theorem mem_written_moveRange {i : ℕ} (h : i ∈ (m.moveRange dst src n).written) : i ∈ m.written ∨ i < dst + n := by
  induction n with
  | zero => exact .inl h
  | succ n ih =>
    rw [moveRange_succ, store_written, List.mem_append, List.mem_singleton] at h
    rcases h with h | rfl
    · exact (ih h).imp_right fun _ => by omega
    · exact .inr (by omega)

theorem mem_written_fillRange {i : ℕ} (h : i ∈ (m.fillRange start n a).written) : i ∈ m.written ∨ i < start + n := by
  induction n with
  | zero => exact .inl h
  | succ n ih =>
    rw [fillRange_succ, store_written, List.mem_append, List.mem_singleton] at h
    rcases h with h | rfl
    · exact (ih h).imp_right fun _ => by omega
    · exact .inr (by omega)

/-! ## Rows -/

/-- Rows 1 to `n` in ascending order, each to the place of the row before it. -/
def moveRows (m : Memory ℕ α) (cols n : ℕ) : Memory ℕ α :=
  (List.range' 1 n).foldl (fun m y => m.moveRange ((y - 1) * cols) (y * cols) cols) m

def fillRows (m : Memory ℕ α) (cols n : ℕ) (a : α) : Memory ℕ α :=
  (List.range n).foldl (fun m y => m.fillRange (y * cols) cols a) m

theorem moveRows_succ (cols : ℕ) :
    m.moveRows cols (n + 1) = (m.moveRows cols n).moveRange (n * cols) ((n + 1) * cols) cols := by
  rw [moveRows, List.range'_1_concat, List.foldl_append, Nat.add_comm 1 n]
  rfl

theorem fillRows_succ (cols : ℕ) : m.fillRows cols (n + 1) a = (m.fillRows cols n a).fillRange (n * cols) cols a := by
  rw [fillRows, List.range_succ, List.foldl_append]
  rfl

theorem moveRows_cell (cols k : ℕ) :
    (m.moveRows cols n).cell k = if k < n * cols then m.cell (k + cols) else m.cell k := by
  induction n generalizing k with
  | zero => exact (if_neg (by omega)).symm
  | succ n ih =>
    have hmul : (n + 1) * cols = n * cols + cols := Nat.succ_mul ..
    rw [moveRows_succ, moveRange_cell _ _ (by omega), ih, ih]
    by_cases hlow : k < n * cols
    · rw [if_neg (by omega), if_pos hlow, if_pos (by omega)]
    · by_cases hrow : k < n * cols + cols
      · rw [if_pos (by omega), if_neg (by omega), if_pos (by omega)]
        congr 1
        omega
      · rw [if_neg (by omega), if_neg hlow, if_neg (by omega)]

theorem fillRows_cell (cols k : ℕ) : (m.fillRows cols n a).cell k = if k < n * cols then a else m.cell k := by
  induction n generalizing k with
  | zero => exact (if_neg (by omega)).symm
  | succ n ih =>
    have hmul : (n + 1) * cols = n * cols + cols := Nat.succ_mul ..
    rw [fillRows_succ, fillRange_cell, ih]
    by_cases hlow : k < n * cols
    · rw [if_neg (by omega), if_pos hlow, if_pos (by omega)]
    · by_cases hrow : k < n * cols + cols
      · rw [if_pos (by omega), if_pos (by omega)]
      · rw [if_neg (by omega), if_neg hlow, if_neg (by omega)]

theorem mem_written_moveRows {cols i : ℕ} (h : i ∈ (m.moveRows cols n).written) : i ∈ m.written ∨ i < n * cols := by
  induction n with
  | zero => exact .inl h
  | succ n ih =>
    have hmul : (n + 1) * cols = n * cols + cols := Nat.succ_mul ..
    rw [moveRows_succ] at h
    rcases mem_written_moveRange _ _ _ _ h with h | h
    · exact (ih h).imp_right fun _ => by omega
    · exact .inr (by omega)

theorem mem_written_fillRows {cols i : ℕ} (h : i ∈ (m.fillRows cols n a).written) : i ∈ m.written ∨ i < n * cols := by
  induction n with
  | zero => exact .inl h
  | succ n ih =>
    have hmul : (n + 1) * cols = n * cols + cols := Nat.succ_mul ..
    rw [fillRows_succ] at h
    rcases mem_written_fillRange _ _ _ _ h with h | h
    · exact (ih h).imp_right fun _ => by omega
    · exact .inr (by omega)

end Ranges

end Memory

end BlockIO
