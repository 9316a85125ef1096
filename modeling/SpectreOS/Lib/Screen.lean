/-
A text terminal: rows of cells, and a cursor that stands on one of them. Printing wraps at the end of
a row, and past the last row the screen scrolls by one. Below, the rows laid out one after the other in
a memory.
-/
import SpectreOS.Lib.Memory

namespace BlockIO

structure Screen (α : Type) (rows cols : ℕ) where
  cell : Fin rows → Fin cols → α
  row : Fin rows
  col : Fin cols

namespace Screen

section

variable {α : Type} {rows cols : ℕ} (blank : α) (s : Screen α rows cols)

def set (i : Fin rows) (j : Fin cols) (a : α) : Screen α rows cols :=
  { s with cell := fun i' j' => if i' = i ∧ j' = j then a else s.cell i' j' }

@[simp] theorem set_col (i : Fin rows) (j : Fin cols) (a : α) : (s.set i j a).col = s.col := rfl

/-- Each row moves to the one above it, and the last row is blank. -/
def scroll : Screen α rows cols :=
  { s with cell := fun i j => if h : i.val + 1 < rows then s.cell ⟨i + 1, h⟩ j else blank }

theorem scroll_cell (i : Fin rows) (j : Fin cols) :
    (s.scroll blank).cell i j = if h : i.val + 1 < rows then s.cell ⟨i + 1, h⟩ j else blank := rfl

/-- One cell back, which is erased; at the start of a row nothing happens. -/
def backspace : Screen α rows cols :=
  if s.col.val = 0 then s
  else
    let s := { s with col := ⟨s.col - 1, by omega⟩ }
    s.set s.row s.col blank

def putAt (x y : ℕ) (a : α) : Screen α rows cols :=
  if h : x < cols ∧ y < rows then s.set ⟨y, h.2⟩ ⟨x, h.1⟩ a else s

variable [NeZero rows] [NeZero cols]

def carriageReturn : Screen α rows cols := { s with col := 0 }

/-- To the start of the next row; in the last row the screen scrolls under the cursor. -/
def newline : Screen α rows cols :=
  if h : s.row.val + 1 < rows then { s with row := ⟨s.row + 1, h⟩, col := 0 } else (s.scroll blank).carriageReturn

def print (a : α) : Screen α rows cols :=
  let s := s.set s.row s.col a
  if h : s.col.val + 1 < cols then { s with col := ⟨s.col + 1, h⟩ } else s.newline blank

def clear : Screen α rows cols := { cell := fun _ _ => blank, row := 0, col := 0 }

def clearLine : Screen α rows cols :=
  { s with cell := fun i j => if i = s.row then blank else s.cell i j, col := 0 }

/-- The nearest cell to the given coordinates. -/
def moveTo (x y : ℕ) : Screen α rows cols :=
  { s with
    row := ⟨min y (rows - 1), by have := NeZero.pos rows; omega⟩
    col := ⟨min x (cols - 1), by have := NeZero.pos cols; omega⟩ }

end

/-! ## Row after row in a memory -/

section Layout

variable {α : Type} {rows cols : ℕ} {s : Screen α rows cols} {f g : ℕ → α}

/-- The cells are those of the memory. -/
def ShownBy (s : Screen α rows cols) (f : ℕ → α) : Prop := ∀ i j, f (i.val * cols + j.val) = s.cell i j

theorem index_lt (i : Fin rows) (j : Fin cols) : i.val * cols + j.val < rows * cols := by
  have h : (i.val + 1) * cols ≤ rows * cols := Nat.mul_le_mul_right cols i.isLt
  rw [Nat.succ_mul] at h
  have := j.isLt
  omega

theorem index_inj {i i' : Fin rows} {j j' : Fin cols} :
    i.val * cols + j.val = i'.val * cols + j'.val ↔ i = i' ∧ j = j' := by
  constructor
  · intro h
    have hpos : 0 < cols := Nat.lt_of_le_of_lt (Nat.zero_le _) j.isLt
    have hrow := congrArg (· / cols) h
    have hcol := congrArg (· % cols) h
    simp only [Nat.mul_comm _ cols, Nat.mul_add_div hpos, Nat.mul_add_mod, Nat.div_eq_of_lt j.isLt,
      Nat.div_eq_of_lt j'.isLt, Nat.mod_eq_of_lt j.isLt, Nat.mod_eq_of_lt j'.isLt, Nat.add_zero] at hrow hcol
    exact ⟨Fin.ext hrow, Fin.ext hcol⟩
  · rintro ⟨rfl, rfl⟩
    rfl

theorem ShownBy.set (h : s.ShownBy f) (i : Fin rows) (j : Fin cols) (a : α)
    (hg : ∀ k, g k = if k = i.val * cols + j.val then a else f k) : (s.set i j a).ShownBy g := by
  intro i' j'
  rw [hg, h i' j']
  exact if_congr index_inj rfl rfl

theorem ShownBy.scroll (h : s.ShownBy f) {blank : α}
    (hg : ∀ k < rows * cols, g k = if k + cols < rows * cols then f (k + cols) else blank) :
    (s.scroll blank).ShownBy g := by
  intro i j
  rw [hg _ (index_lt i j)]
  have hmul : (i.val + 1) * cols = i.val * cols + cols := Nat.succ_mul ..
  by_cases hi : i.val + 1 < rows
  · have hlt := index_lt ⟨i.val + 1, hi⟩ j
    simp only [hmul] at hlt
    have hnext : i.val * cols + j.val + cols = (⟨i.val + 1, hi⟩ : Fin rows).val * cols + j.val := by
      simp only [hmul]
      omega
    rw [if_pos (by omega), hnext, h, scroll_cell, dif_pos hi]
  · have hlast : (i.val + 1) * cols = rows * cols := congrArg (· * cols) (show i.val + 1 = rows by omega)
    rw [if_neg (by omega), scroll_cell, dif_neg hi]

theorem ShownBy.clearLine (h : s.ShownBy f) [NeZero cols] {blank : α}
    (hg : ∀ k, g k = if s.row.val * cols ≤ k ∧ k < s.row.val * cols + cols then blank else f k) :
    (s.clearLine blank).ShownBy g := by
  intro i j
  rw [hg, h i j]
  refine if_congr ⟨fun hk => ?_, fun hi => ?_⟩ rfl rfl
  · let j' : Fin cols := ⟨i.val * cols + j.val - s.row.val * cols, by omega⟩
    have hval : i.val * cols + j.val = s.row.val * cols + j'.val := by
      simp only [j']
      omega
    exact (index_inj.1 hval).1
  · subst hi
    exact ⟨by omega, by omega⟩

end Layout

end Screen

end BlockIO
