/-
Decimal numerals in ASCII: which texts are one, the number a numeral stands for, leading zeros or not,
and the text of a number. Then lists split at a separator.
-/
import SpectreOS.Lib.Bytes
import Mathlib.Data.Nat.Digits.Defs

namespace BlockIO

/-! ## Numerals -/

def IsDigit (c : Byte) : Prop := 48 ≤ c.toNat ∧ c.toNat ≤ 57

instance (c : Byte) : Decidable (IsDigit c) := inferInstanceAs (Decidable (_ ∧ _))

/-- One or more digits. -/
def IsNumeral (l : List Byte) : Prop := l ≠ [] ∧ ∀ c ∈ l, IsDigit c

instance (l : List Byte) : Decidable (IsNumeral l) := inferInstanceAs (Decidable (_ ∧ _))

/-- The number that digits stand for, the first of them the most significant. -/
def decimalValue (l : List Byte) : Nat := Nat.ofDigits 10 (l.map fun c => c.toNat - 48).reverse

theorem decimalValue_concat (l : List Byte) (c : Byte) :
    decimalValue (l ++ [c]) = decimalValue l * 10 + (c.toNat - 48) := by
  unfold decimalValue
  rw [List.map_append, List.map_singleton, List.reverse_append, List.reverse_singleton, List.singleton_append,
    Nat.ofDigits_cons, Nat.mul_comm 10, Nat.add_comm]

theorem decimalValue_le_append (l r : List Byte) : decimalValue l ≤ decimalValue (l ++ r) := by
  induction r using List.reverseRecOn with
  | nil => rw [List.append_nil]
  | append_singleton r c ih =>
    rw [← List.append_assoc, decimalValue_concat]
    omega

/-- The digits of a number, the lowest first. -/
def digitText (n : Nat) : List Byte := (Nat.digits 10 n).map fun d => BitVec.ofNat 8 (48 + d)

def decimalText (n : Nat) : List Byte := if n = 0 then [48] else (digitText n).reverse

theorem digitText_step {n : Nat} (h : 0 < n) : digitText n = BitVec.ofNat 8 (48 + n % 10) :: digitText (n / 10) := by
  rw [digitText, Nat.digits_def' (by decide) h]
  rfl

theorem isDigit_digitText {n : Nat} {c : Byte} (h : c ∈ digitText n) : IsDigit c := by
  obtain ⟨d, hd, rfl⟩ := List.mem_map.1 h
  have hlt : d < 10 := Nat.digits_lt_base (by decide) hd
  have hval : (BitVec.ofNat 8 (48 + d)).toNat = 48 + d := Nat.mod_eq_of_lt (by omega)
  rw [IsDigit, hval]
  omega

theorem decimalValue_decimalText (n : Nat) : decimalValue (decimalText n) = n := by
  unfold decimalText
  split
  · subst n
    rfl
  · rw [decimalValue, List.map_reverse, List.reverse_reverse, digitText, List.map_map]
    have hsame : (Nat.digits 10 n).map ((fun c : Byte => c.toNat - 48) ∘ fun d => BitVec.ofNat 8 (48 + d)) =
      Nat.digits 10 n := by
      refine (List.map_congr_left fun d hd => ?_).trans (List.map_id _)
      have hlt : d < 10 := Nat.digits_lt_base (by decide) hd
      have hval : (BitVec.ofNat 8 (48 + d)).toNat = 48 + d := Nat.mod_eq_of_lt (by omega)
      rw [Function.comp_apply, hval, Nat.add_sub_cancel_left, id]
    rw [hsame, Nat.ofDigits_digits]

theorem isNumeral_decimalText (n : Nat) : IsNumeral (decimalText n) := by
  unfold decimalText
  split
  · decide
  · refine ⟨fun h => ?_, fun c hc => isDigit_digitText (List.mem_reverse.1 hc)⟩
    rw [digitText_step (by omega)] at h
    simp at h

/-! ## Groups -/

section Groups

variable {α : Type} [BEq α] [LawfulBEq α] {a : α} {p : List α}

/-- What precedes the first separator belongs to the first group. -/
theorem splitOn_append (h : a ∉ p) (r : List α) : (p ++ r).splitOn a = (r.splitOn a).modifyHead (p ++ ·) := by
  induction p with
  | nil =>
    cases hr : r.splitOn a with
    | nil => exact absurd hr (List.splitOn_ne_nil a r)
    | cons head tail => exact hr
  | cons x p ih =>
    rw [List.mem_cons, not_or] at h
    have hx : (x == a) = false := beq_eq_false_iff_ne.2 (Ne.symm h.1)
    rw [List.cons_append, List.splitOn_cons_eq_if_modifyHead, hx, ih h.2]
    cases r.splitOn a <;> rfl

end Groups

end BlockIO
