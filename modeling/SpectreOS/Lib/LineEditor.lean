/-
Text as a list of lines with a cursor, over any alphabet and with limits on the number and the
length of the lines: inserting, splitting, joining, deleting and moving. An operation that would
exceed a limit is refused. The first part is about arrays: the list of the first elements of a
sequence, and what shifting the sequence does to it.
-/
import Mathlib.Tactic

namespace LineEditor

/-! ## The first elements of a sequence -/

section Firsts

variable {α : Type} {f g : Nat → α} {n m i : Nat}

/-- The first `n` elements of a sequence. -/
def firsts (f : Nat → α) (n : Nat) : List α := (List.range n).map f

@[simp] theorem length_firsts : (firsts f n).length = n := by rw [firsts, List.length_map, List.length_range]

theorem getElem?_firsts (k : Nat) : (firsts f n)[k]? = if k < n then some (f k) else none := by
  rw [firsts, List.getElem?_map]
  split
  · rw [List.getElem?_range (by omega), Option.map_some]
  · rw [List.getElem?_eq_none (by rw [List.length_range]; omega), Option.map_none]

theorem getD_firsts (d : α) (h : i < n) : (firsts f n).getD i d = f i := by
  rw [List.getD_eq_getElem?_getD, getElem?_firsts, if_pos h, Option.getD_some]

theorem firsts_congr (h : ∀ k < n, f k = g k) : firsts f n = firsts g n :=
  List.map_congr_left fun k hk => h k (List.mem_range.1 hk)

/-- Element by element. -/
theorem firsts_eq {l : List α} (hlen : l.length = n) (h : ∀ k < n, l[k]? = some (f k)) : firsts f n = l := by
  apply List.ext_getElem?
  intro k
  rw [getElem?_firsts]
  split
  · rw [h k (by omega)]
  · rw [List.getElem?_eq_none (by omega)]

theorem firsts_take (h : i ≤ n) : firsts f i = (firsts f n).take i := by
  apply firsts_eq
  · rw [List.length_take, length_firsts]
    omega
  · intro k hk
    rw [List.getElem?_take_of_lt hk, getElem?_firsts, if_pos (by omega)]

theorem firsts_drop (h : ∀ k < n - i, g k = f (i + k)) : firsts g (n - i) = (firsts f n).drop i := by
  apply firsts_eq
  · rw [List.length_drop, length_firsts]
  · intro k hk
    rw [List.getElem?_drop, getElem?_firsts, if_pos (by omega), h k hk]

/-- The elements from `i` on move up by one and `g i` takes the place. -/
theorem firsts_insert (hi : i ≤ n) (hlo : ∀ k < i, g k = f k) (hhi : ∀ k, i < k → k ≤ n → g k = f (k - 1)) :
    firsts g (n + 1) = (firsts f n).insertIdx i (g i) := by
  apply firsts_eq
  · rw [List.length_insertIdx, length_firsts, if_pos hi]
  · intro k hk
    rcases Nat.lt_trichotomy k i with hlt | rfl | hgt
    · rw [List.getElem?_insertIdx_of_lt hlt, getElem?_firsts, if_pos (by omega), hlo k hlt]
    · rw [List.getElem?_insertIdx_self, length_firsts, if_pos hi]
    · rw [List.getElem?_insertIdx_of_gt hgt, getElem?_firsts, if_pos (by omega), hhi k hgt (by omega)]

/-- The elements after `i` move down by one. -/
theorem firsts_erase (hi : i < n) (hlo : ∀ k < i, g k = f k) (hhi : ∀ k, i ≤ k → k < n - 1 → g k = f (k + 1)) :
    firsts g (n - 1) = (firsts f n).eraseIdx i := by
  apply firsts_eq
  · rw [List.length_eraseIdx, length_firsts, if_pos hi]
  · intro k hk
    by_cases hlt : k < i
    · rw [List.getElem?_eraseIdx_of_lt hlt, getElem?_firsts, if_pos (by omega), hlo k hlt]
    · rw [List.getElem?_eraseIdx_of_ge (by omega), getElem?_firsts, if_pos (by omega), hhi k (by omega) hk]

theorem firsts_append (hlo : ∀ k < n, g k = f k) {f' : Nat → α} (hhi : ∀ k < m, g (n + k) = f' k) :
    firsts g (n + m) = firsts f n ++ firsts f' m := by
  apply firsts_eq
  · rw [List.length_append, length_firsts, length_firsts]
  · intro k hk
    by_cases hlt : k < n
    · rw [List.getElem?_append_left (by rwa [length_firsts]), getElem?_firsts, if_pos hlt, hlo k hlt]
    · rw [List.getElem?_append_right (by rw [length_firsts]; omega), length_firsts, getElem?_firsts, if_pos (by omega),
        ← hhi (k - n) (by omega), Nat.add_sub_cancel' (by omega)]

theorem firsts_update (v : α) : firsts (Function.update f i v) n = (firsts f n).set i v := by
  apply firsts_eq
  · rw [List.length_set, length_firsts]
  · intro k hk
    rw [List.getElem?_set, length_firsts, getElem?_firsts, if_pos hk]
    by_cases hki : i = k
    · subst hki
      rw [if_pos rfl, if_pos hk, Function.update_self]
    · rw [if_neg hki, Function.update_of_ne (Ne.symm hki)]

end Firsts

/-! ## Lines of a text -/

section Lines

variable {α : Type} [DecidableEq α] (newline : α)

/-- The lines of a text. Every newline ends one; what follows the last newline is a line unless it is
empty. -/
def linesOf : List α → List (List α)
  | [] => []
  | c :: text =>
    if c = newline then [] :: linesOf text
    else match linesOf text with
      | [] => [[c]]
      | l :: ls => (c :: l) :: ls

/-- The text of a list of lines, each ended by a newline. -/
def unlines (lines : List (List α)) : List α := lines.flatMap (· ++ [newline])

variable {newline}

omit [DecidableEq α] in
theorem unlines_cons (l : List α) (ls : List (List α)) :
    unlines newline (l :: ls) = l ++ newline :: unlines newline ls := by
  rw [unlines, List.flatMap_cons, List.append_assoc, List.singleton_append]
  rfl

theorem linesOf_eq_nil {text : List α} : linesOf newline text = [] ↔ text = [] := by
  cases text with
  | nil => exact iff_of_true rfl rfl
  | cons c text =>
    refine iff_of_false ?_ (List.cons_ne_nil c text)
    rw [linesOf]
    split
    · exact List.cons_ne_nil _ _
    · cases linesOf newline text <;> exact List.cons_ne_nil _ _

theorem newline_notMem_linesOf {text l : List α} (h : l ∈ linesOf newline text) : newline ∉ l := by
  induction text generalizing l with
  | nil => exact absurd h List.not_mem_nil
  | cons c text ih =>
    rw [linesOf] at h
    by_cases hc : c = newline
    · rw [if_pos hc] at h
      rcases List.mem_cons.1 h with rfl | h
      · exact List.not_mem_nil
      · exact ih h
    · rw [if_neg hc] at h
      -- the character joins the first line of the rest
      cases hls : linesOf newline text with
      | nil =>
        rw [hls] at h
        rw [List.mem_singleton.1 h, List.mem_singleton]
        exact Ne.symm hc
      | cons l' ls =>
        rw [hls] at h ih
        rcases List.mem_cons.1 h with rfl | h
        · exact List.not_mem_cons_of_ne_of_not_mem (Ne.symm hc) (ih List.mem_cons_self)
        · exact ih (List.mem_cons_of_mem _ h)

theorem linesOf_append {l : List α} (hl : newline ∉ l) (text : List α) :
    linesOf newline (l ++ newline :: text) = l :: linesOf newline text := by
  induction l with
  | nil => rw [List.nil_append, linesOf, if_pos rfl]
  | cons c l ih =>
    rw [List.mem_cons, not_or] at hl
    rw [List.cons_append, linesOf, if_neg (Ne.symm hl.1), ih hl.2]

/-- Lines without newlines are read back. -/
theorem linesOf_unlines {lines : List (List α)} (h : ∀ l ∈ lines, newline ∉ l) :
    linesOf newline (unlines newline lines) = lines := by
  induction lines with
  | nil => rfl
  | cons l ls ih =>
    rw [unlines_cons, linesOf_append (h l List.mem_cons_self), ih fun l' hl' => h l' (List.mem_cons_of_mem _ hl')]

/-- A text is written back with a newline at its end. -/
theorem unlines_linesOf {text : List α} (h : text ≠ []) : unlines newline (linesOf newline text) =
    if text.getLast? = some newline then text else text ++ [newline] := by
  induction text with
  | nil => exact absurd rfl h
  | cons c text ih =>
    rw [linesOf]
    by_cases ht : text = []
    · subst ht
      by_cases hc : c = newline
      · subst hc
        rw [if_pos rfl, List.getLast?_singleton, if_pos rfl, unlines_cons]
        rfl
      · rw [if_neg hc, List.getLast?_singleton, if_neg fun e => hc (Option.some.inj e)]
        exact unlines_cons [c] []
    · have hlast : (c :: text).getLast? = text.getLast? := by
        rw [List.getLast?_cons, List.getLast?_eq_getLast_of_ne_nil ht, Option.getD_some]
      have hrest : c :: unlines newline (linesOf newline text) =
          if (c :: text).getLast? = some newline then c :: text else c :: text ++ [newline] := by
        rw [ih ht, hlast]
        split_ifs <;> rfl
      rw [← hrest]
      by_cases hc : c = newline
      · rw [if_pos hc, unlines_cons, List.nil_append, hc]
      · rw [if_neg hc]
        cases hls : linesOf newline text with
        | nil => exact absurd (linesOf_eq_nil.1 hls) ht
        | cons l ls => rw [unlines_cons, unlines_cons, List.cons_append]

end Lines

/-! ## Buffers -/

/-- Lines and a cursor. -/
@[ext]
structure Buffer (α : Type) where
  lines : List (List α)
  row : Nat
  col : Nat

namespace Buffer

variable {α : Type} (maxLines maxLength : Nat) (b : Buffer α)

def line (i : Nat) : List α := b.lines.getD i []

/-- The line of the cursor. -/
def current : List α := b.line b.row

/-- The cursor is in the text, and the text within its limits. -/
structure Valid : Prop where
  row : b.row < b.lines.length
  col : b.col ≤ b.current.length
  count : b.lines.length ≤ maxLines
  width : ∀ l ∈ b.lines, l.length ≤ maxLength

/-! ### Operations -/

def insert (c : α) : Buffer α :=
  if maxLength ≤ b.current.length then b
  else { b with lines := b.lines.set b.row (b.current.insertIdx b.col c), col := b.col + 1 }

def split : Buffer α :=
  if maxLines ≤ b.lines.length then b
  else ⟨(b.lines.set b.row (b.current.take b.col)).insertIdx (b.row + 1) (b.current.drop b.col), b.row + 1, 0⟩

/-- The element at column `i` of the cursor's line is taken out. -/
def erase (i : Nat) : Buffer α := { b with lines := b.lines.set b.row (b.current.eraseIdx i) }

/-- Line `i` and the next one become one line. -/
def join (i : Nat) : Buffer α := { b with lines := (b.lines.set i (b.line i ++ b.line (i + 1))).eraseIdx (i + 1) }

def backspace : Buffer α :=
  if 0 < b.col then { b.erase (b.col - 1) with col := b.col - 1 }
  else if b.row = 0 then b
  else if maxLength < (b.line (b.row - 1)).length + b.current.length then b
  else { b.join (b.row - 1) with row := b.row - 1, col := (b.line (b.row - 1)).length }

def delete : Buffer α :=
  if b.col < b.current.length then b.erase b.col
  else if b.lines.length ≤ b.row + 1 then b
  else if maxLength < b.current.length + (b.line (b.row + 1)).length then b
  else b.join b.row

def left : Buffer α :=
  if 0 < b.col then { b with col := b.col - 1 }
  else if 0 < b.row then { b with row := b.row - 1, col := (b.line (b.row - 1)).length }
  else b

def right : Buffer α :=
  if b.col < b.current.length then { b with col := b.col + 1 }
  else if b.row + 1 < b.lines.length then { b with row := b.row + 1, col := 0 }
  else b

/-- The cursor on another line, no further right than its end. -/
def toLine (i : Nat) : Buffer α := { b with row := i, col := min b.col (b.line i).length }

def up : Buffer α := if b.row = 0 then b else b.toLine (b.row - 1)

def down : Buffer α := if b.lines.length ≤ b.row + 1 then b else b.toLine (b.row + 1)

def home : Buffer α := { b with col := 0 }

def toEnd : Buffer α := { b with col := b.current.length }

/-! ### The limits are kept -/

variable {maxLines maxLength b}

theorem Valid.line_le (h : b.Valid maxLines maxLength) (i : Nat) : (b.line i).length ≤ maxLength := by
  rw [line, List.getD_eq_getElem?_getD]
  cases hi : b.lines[i]? with
  | none => exact Nat.zero_le _
  | some l => exact h.width l (List.mem_of_getElem? hi)

theorem line_set (b : Buffer α) {i : Nat} (hi : i < b.lines.length) (l : List α) (j : Nat) :
    (b.lines.set i l).getD j [] = if j = i then l else b.line j := by
  rw [List.getD_eq_getElem?_getD, List.getElem?_set]
  by_cases h : i = j
  · subst h
    rw [if_pos rfl, if_pos hi, if_pos rfl, Option.getD_some]
  · rw [if_neg h, if_neg (Ne.symm h), line, List.getD_eq_getElem?_getD]

/-- A line is replaced by one within the limit. -/
theorem Valid.width_set (h : b.Valid maxLines maxLength) {i : Nat} {l : List α} (hl : l.length ≤ maxLength) :
    ∀ l' ∈ b.lines.set i l, l'.length ≤ maxLength := by
  intro l' hl'
  rcases List.mem_or_eq_of_mem_set hl' with hmem | rfl
  · exact h.width l' hmem
  · exact hl

theorem Valid.insert (h : b.Valid maxLines maxLength) (c : α) : (b.insert maxLength c).Valid maxLines maxLength := by
  unfold Buffer.insert
  split
  · exact h
  · rename_i hlt
    have hlen : (b.current.insertIdx b.col c).length = b.current.length + 1 :=
      List.length_insertIdx_of_le_length h.col c
    refine ⟨by simpa using h.row, ?_, by simpa using h.count, h.width_set (by omega)⟩
    change b.col + 1 ≤ ((b.lines.set b.row (b.current.insertIdx b.col c)).getD b.row []).length
    rw [line_set b h.row, if_pos rfl, hlen]
    exact Nat.succ_le_succ h.col

theorem Valid.split (h : b.Valid maxLines maxLength) : (b.split maxLines).Valid maxLines maxLength := by
  unfold Buffer.split
  split
  · exact h
  · rename_i hlt
    have hrow := h.row
    have hcur := h.line_le b.row
    have hlen : ((b.lines.set b.row (b.current.take b.col)).insertIdx (b.row + 1) (b.current.drop b.col)).length =
        b.lines.length + 1 := by
      rw [List.length_insertIdx_of_le_length (by rw [List.length_set]; omega), List.length_set]
    refine ⟨by rw [hlen]; simp only; omega, Nat.zero_le _, by rw [hlen]; omega, ?_⟩
    intro l hl
    rcases (List.mem_insertIdx (by rw [List.length_set]; omega)).1 hl with rfl | hset
    · rw [List.length_drop]
      exact le_trans (Nat.sub_le ..) hcur
    · exact h.width_set (by rw [List.length_take]; exact le_trans (Nat.min_le_right ..) hcur) l hset

theorem Valid.erase (h : b.Valid maxLines maxLength) {i : Nat} (hi : i < b.current.length) {j : Nat}
    (hj : j ≤ b.current.length - 1) :
    { b.erase i with col := j }.Valid maxLines maxLength := by
  have hlen : (b.current.eraseIdx i).length = b.current.length - 1 := List.length_eraseIdx_of_lt hi
  have hcur := h.line_le b.row
  refine ⟨by simpa [Buffer.erase] using h.row, ?_, by simpa [Buffer.erase] using h.count, h.width_set ?_⟩
  · simp only [current, line, Buffer.erase]
    rw [line_set b h.row, if_pos rfl]
    exact hlen ▸ hj
  · rw [hlen]
    exact le_trans (Nat.sub_le ..) hcur

theorem Valid.join (h : b.Valid maxLines maxLength) {i : Nat} (hi : i + 1 < b.lines.length)
    (hl : (b.line i).length + (b.line (i + 1)).length ≤ maxLength) {j : Nat} (hj : j ≤ (b.line i).length) :
    { b.join i with row := i, col := j }.Valid maxLines maxLength := by
  have hcount := h.count
  have hlen : ((b.lines.set i (b.line i ++ b.line (i + 1))).eraseIdx (i + 1)).length = b.lines.length - 1 := by
    rw [List.length_eraseIdx_of_lt (by rw [List.length_set]; omega), List.length_set]
  refine ⟨by simp only [Buffer.join]; omega, ?_, by simp only [Buffer.join]; omega, ?_⟩
  · simp only [current, line, Buffer.join]
    rw [List.getD_eq_getElem?_getD, List.getElem?_eraseIdx_of_lt (by omega), ← List.getD_eq_getElem?_getD,
      line_set b (by omega), if_pos rfl, List.length_append]
    exact le_trans hj (Nat.le_add_right ..)
  · intro l hmem
    exact h.width_set (by rw [List.length_append]; exact hl) l (List.mem_of_mem_eraseIdx hmem)

theorem Valid.backspace (h : b.Valid maxLines maxLength) : (b.backspace maxLength).Valid maxLines maxLength := by
  have hrow := h.row
  have hcol := h.col
  unfold Buffer.backspace
  split_ifs with h1 h2 h3
  · exact h.erase (by omega) (by omega)
  · exact h
  · exact h
  · have hprev : b.row - 1 + 1 = b.row := by omega
    exact h.join (by omega) (by rw [hprev]; exact Nat.not_lt.1 h3) (le_refl _)

theorem Valid.delete (h : b.Valid maxLines maxLength) : (b.delete maxLength).Valid maxLines maxLength := by
  have hcol := h.col
  unfold Buffer.delete
  split_ifs with h1 h2 h3
  · exact h.erase h1 (j := b.col) (by omega)
  · exact h
  · exact h
  · exact h.join (j := b.col) (by omega) (Nat.not_lt.1 h3) hcol

/-- The cursor moves only. -/
theorem Valid.move (h : b.Valid maxLines maxLength) {i j : Nat} (hi : i < b.lines.length) (hj : j ≤ (b.line i).length) :
    ({ b with row := i, col := j } : Buffer α).Valid maxLines maxLength := ⟨hi, hj, h.count, h.width⟩

theorem Valid.left (h : b.Valid maxLines maxLength) : b.left.Valid maxLines maxLength := by
  have hrow := h.row
  have hcol := h.col
  unfold Buffer.left
  split_ifs with h1 h2
  · exact h.move h.row (le_trans (Nat.sub_le ..) hcol)
  · exact h.move (by omega) (le_refl _)
  · exact h

theorem Valid.right (h : b.Valid maxLines maxLength) : b.right.Valid maxLines maxLength := by
  unfold Buffer.right
  split_ifs with h1 h2
  · exact h.move h.row h1
  · exact h.move h2 (Nat.zero_le _)
  · exact h

theorem Valid.toLine (h : b.Valid maxLines maxLength) {i : Nat} (hi : i < b.lines.length) :
    (b.toLine i).Valid maxLines maxLength := h.move hi (Nat.min_le_right ..)

theorem Valid.up (h : b.Valid maxLines maxLength) : b.up.Valid maxLines maxLength := by
  have hrow := h.row
  unfold Buffer.up
  split_ifs
  · exact h
  · exact h.toLine (by omega)

theorem Valid.down (h : b.Valid maxLines maxLength) : b.down.Valid maxLines maxLength := by
  unfold Buffer.down
  split_ifs
  · exact h
  · exact h.toLine (by omega)

theorem Valid.home (h : b.Valid maxLines maxLength) : b.home.Valid maxLines maxLength := h.move h.row (Nat.zero_le _)

theorem Valid.toEnd (h : b.Valid maxLines maxLength) : b.toEnd.Valid maxLines maxLength := h.move h.row (le_refl _)

/-! ### The elements of the text -/

/-- Every element of the text satisfies `p`. -/
def All (p : α → Prop) (b : Buffer α) : Prop := ∀ l ∈ b.lines, ∀ c ∈ l, p c

variable {p : α → Prop}

theorem All.line (h : b.All p) (i : Nat) : ∀ c ∈ b.line i, p c := by
  rw [Buffer.line, List.getD_eq_getElem?_getD]
  cases hi : b.lines[i]? with
  | none => exact fun c hc => absurd hc List.not_mem_nil
  | some l => exact h l (List.mem_of_getElem? hi)

/-- A line is replaced. -/
theorem All.set (h : b.All p) {i : Nat} {l : List α} (hl : ∀ c ∈ l, p c) : ∀ l' ∈ b.lines.set i l, ∀ c ∈ l', p c := by
  intro l' hl'
  rcases List.mem_or_eq_of_mem_set hl' with hmem | rfl
  · exact h l' hmem
  · exact hl

theorem All.insert (h : b.All p) {c : α} (hc : p c) : (b.insert maxLength c).All p := by
  unfold Buffer.insert
  split
  · exact h
  · refine h.set fun c' hc' => ?_
    rcases List.eq_or_mem_of_mem_insertIdx hc' with rfl | hmem
    · exact hc
    · exact h.line b.row c' hmem

theorem All.split (h : b.All p) : (b.split maxLines).All p := by
  unfold Buffer.split
  split
  · exact h
  · intro l hl
    rcases List.eq_or_mem_of_mem_insertIdx hl with rfl | hset
    · exact fun c hc => h.line b.row c (List.mem_of_mem_drop hc)
    · exact h.set (fun c hc => h.line b.row c (List.mem_of_mem_take hc)) l hset

theorem All.erase (h : b.All p) (i : Nat) : (b.erase i).All p :=
  h.set fun c hc => h.line b.row c (List.mem_of_mem_eraseIdx hc)

theorem All.join (h : b.All p) (i : Nat) : (b.join i).All p := by
  intro l hl
  refine h.set (fun c hc => ?_) l (List.mem_of_mem_eraseIdx hl)
  rcases List.mem_append.1 hc with hc | hc
  · exact h.line i c hc
  · exact h.line (i + 1) c hc

theorem All.backspace (h : b.All p) : (b.backspace maxLength).All p := by
  unfold Buffer.backspace
  split_ifs
  · exact h.erase _
  · exact h
  · exact h
  · exact h.join _

theorem All.delete (h : b.All p) : (b.delete maxLength).All p := by
  unfold Buffer.delete
  split_ifs
  · exact h.erase _
  · exact h
  · exact h
  · exact h.join _

theorem All.left (h : b.All p) : b.left.All p := by
  unfold Buffer.left
  split_ifs <;> exact h

theorem All.right (h : b.All p) : b.right.All p := by
  unfold Buffer.right
  split_ifs <;> exact h

theorem All.up (h : b.All p) : b.up.All p := by
  unfold Buffer.up
  split_ifs <;> exact h

theorem All.down (h : b.All p) : b.down.All p := by
  unfold Buffer.down
  split_ifs <;> exact h

end Buffer

end LineEditor
