/-
A line of text of bounded length with a cursor in it, and the history of the lines that were entered:
the operations of a line editor, the rules by which an array with a length and a cursor shows a line,
and a bounded history that drops what repeats its last entry.
-/
import SpectreOS.Lib.LineEditor

namespace LineEditor

/-! ## Lines -/

/-- At most `cap` elements, and a cursor among them or at their end. -/
structure Line (α : Type) (cap : Nat) where
  text : List α
  cursor : Nat
  inside : cursor ≤ text.length
  fits : text.length ≤ cap

namespace Line

variable {α : Type} {cap : Nat} (l : Line α cap)

/-- A text, as far as it fits, with the cursor at its end. -/
def ofText (text : List α) : Line α cap := ⟨text.take cap, (text.take cap).length, le_refl _, List.length_take_le ..⟩

def insert (c : α) : Line α cap :=
  if h : l.text.length < cap then
    ⟨l.text.insertIdx l.cursor c, l.cursor + 1,
      by rw [List.length_insertIdx_of_le_length l.inside]; exact Nat.succ_le_succ l.inside,
      by rw [List.length_insertIdx_of_le_length l.inside]; exact h⟩
  else l

/-- The element at `i` is taken out, and the cursor stands there. -/
def eraseAt (i : Nat) (h : i < l.text.length) : Line α cap :=
  ⟨l.text.eraseIdx i, i, by rw [List.length_eraseIdx_of_lt h]; omega,
    le_trans (List.length_eraseIdx_le ..) l.fits⟩

def backspace : Line α cap :=
  if h : 0 < l.cursor then l.eraseAt (l.cursor - 1) (by have := l.inside; omega) else l

def delete : Line α cap := if h : l.cursor < l.text.length then l.eraseAt l.cursor h else l

/-- The cursor moved to `i`. -/
def moveTo (i : Nat) (h : i ≤ l.text.length) : Line α cap := { l with cursor := i, inside := h }

def left : Line α cap := l.moveTo (l.cursor - 1) (le_trans (Nat.sub_le ..) l.inside)

def right : Line α cap := l.moveTo (min (l.cursor + 1) l.text.length) (Nat.min_le_right ..)

def home : Line α cap := l.moveTo 0 (Nat.zero_le _)

def toEnd : Line α cap := l.moveTo l.text.length (le_refl _)

/-- An array of which the first `n` elements are the line, with the index of the cursor. -/
structure ShownBy (f : Nat → α) (n i : Nat) : Prop where
  text : firsts f n = l.text
  cursor : i = l.cursor

section ShownBy

variable {l : Line α cap} {f g : Nat → α} {n i : Nat}

theorem ShownBy.length (h : l.ShownBy f n i) : l.text.length = n := by rw [← h.text, length_firsts]

theorem ShownBy.le (h : l.ShownBy f n i) : i ≤ n := by
  rw [h.cursor, ← h.length]
  exact l.inside

theorem ShownBy.le_cap (h : l.ShownBy f n i) : n ≤ cap := by
  rw [← h.length]
  exact l.fits

theorem ShownBy.insert (h : l.ShownBy f n i) {c : α} (hn : n < cap)
    (hg : firsts g (n + 1) = (firsts f n).insertIdx i c) :
    (l.insert c).ShownBy g (n + 1) (i + 1) := by
  have hlt : l.text.length < cap := by rwa [h.length]
  unfold Line.insert
  rw [dif_pos hlt]
  constructor
  · rw [hg, h.text, h.cursor]
  · rw [h.cursor]

/-- A full line takes nothing more. -/
theorem insert_full (h : cap ≤ l.text.length) (c : α) : l.insert c = l := dif_neg (by omega)

theorem ShownBy.eraseAt (h : l.ShownBy f n i) {j : Nat} (hj : j < n) (hg : firsts g (n - 1) = (firsts f n).eraseIdx j) :
    (l.eraseAt j (by rwa [h.length])).ShownBy g (n - 1) j := by
  constructor
  · rw [hg, h.text, Line.eraseAt]
  · rfl

theorem ShownBy.backspace (h : l.ShownBy f n i) (hi : 0 < i) (hg : firsts g (n - 1) = (firsts f n).eraseIdx (i - 1)) :
    l.backspace.ShownBy g (n - 1) (i - 1) := by
  have hle := h.le
  unfold Line.backspace
  rw [dif_pos (by rwa [← h.cursor])]
  simp only [← h.cursor]
  exact h.eraseAt (by omega) hg

theorem ShownBy.backspace_start (h : l.ShownBy f n 0) : l.backspace.ShownBy f n 0 := by
  unfold Line.backspace
  rwa [dif_neg (by rw [← h.cursor]; omega)]

theorem ShownBy.delete (h : l.ShownBy f n i) (hi : i < n) (hg : firsts g (n - 1) = (firsts f n).eraseIdx i) :
    l.delete.ShownBy g (n - 1) i := by
  unfold Line.delete
  rw [dif_pos (by rwa [← h.cursor, h.length])]
  simp only [← h.cursor]
  exact h.eraseAt hi hg

theorem ShownBy.moveTo (h : l.ShownBy f n i) {j k : Nat} (hj : j ≤ l.text.length) (hk : k = j) :
    (l.moveTo j hj).ShownBy f n k := ⟨h.text, hk⟩

theorem ShownBy.left (h : l.ShownBy f n i) : l.left.ShownBy f n (i - 1) := h.moveTo _ (by rw [h.cursor])

theorem ShownBy.right (h : l.ShownBy f n i) : l.right.ShownBy f n (min (i + 1) n) :=
  h.moveTo _ (by rw [h.cursor, h.length])

theorem ShownBy.home (h : l.ShownBy f n i) : l.home.ShownBy f n 0 := h.moveTo _ rfl

theorem ShownBy.toEnd (h : l.ShownBy f n i) : l.toEnd.ShownBy f n n := h.moveTo _ h.length.symm

/-- A text that was copied to the start of the array. -/
theorem shownBy_ofText {text : List α} (hlen : text.length ≤ cap) (hf : firsts f text.length = text) :
    (ofText text : Line α cap).ShownBy f text.length text.length := by
  have htake : (ofText text : Line α cap).text = text := List.take_of_length_le hlen
  constructor
  · rw [hf, htake]
  · exact (congrArg List.length htake).symm

end ShownBy

/-! ### Elements -/

section Mem

variable {l : Line α cap} {c x : α}

theorem mem_insert (h : x ∈ (l.insert c).text) : x = c ∨ x ∈ l.text := by
  unfold insert at h
  split at h
  · exact List.eq_or_mem_of_mem_insertIdx h
  · exact .inr h

theorem mem_backspace (h : x ∈ l.backspace.text) : x ∈ l.text := by
  unfold backspace at h
  split at h
  · exact List.mem_of_mem_eraseIdx h
  · exact h

theorem mem_delete (h : x ∈ l.delete.text) : x ∈ l.text := by
  unfold delete at h
  split at h
  · exact List.mem_of_mem_eraseIdx h
  · exact h

end Mem

end Line

/-! ## Histories -/

section History

variable {α : Type}

/-- The last `n` elements of a list. -/
def lasts (n : Nat) (l : List α) : List α := l.drop (l.length - n)

theorem length_lasts (n : Nat) (l : List α) : (lasts n l).length = min n l.length := by
  rw [lasts, List.length_drop]
  omega

theorem lasts_of_le {n : Nat} {l : List α} (h : l.length ≤ n) : lasts n l = l := by
  rw [lasts, Nat.sub_eq_zero_of_le h, List.drop_zero]

/-- One more element: it is added, and the first one goes once there are `n`. -/
theorem lasts_append {n : Nat} (hn : 0 < n) (l : List α) (x : α) :
    lasts n (l ++ [x]) = if (lasts n l).length < n then lasts n l ++ [x] else (lasts n l).drop 1 ++ [x] := by
  have hlen := length_lasts n l
  split
  · rw [lasts_of_le (l := l) (by omega), lasts_of_le (by rw [List.length_append, List.length_singleton]; omega)]
  · rw [lasts, lasts, List.length_append, List.length_singleton, List.drop_drop,
      List.drop_append_of_le_length (by omega)]
    congr 2
    omega

theorem getLast?_lasts {n : Nat} (hn : 0 < n) (l : List α) : (lasts n l).getLast? = l.getLast? := by
  cases l using List.reverseRecOn with
  | nil => rw [lasts_of_le (Nat.zero_le n)]
  | append_singleton l x =>
    rw [lasts_append hn]
    split <;> simp

variable [DecidableEq α]

/-- An element is stored unless it is the one stored last. -/
def remember (stored : List α) (x : α) : List α := if stored.getLast? = some x then stored else stored ++ [x]

end History

end LineEditor
