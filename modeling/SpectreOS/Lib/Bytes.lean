/-
Fixed-size byte blocks and the little-endian words stored in them: writing a run of bytes into a
block, reading it back, the words of a byte image, and the bits of a byte.
-/
import Mathlib.Tactic

namespace BlockIO

abbrev Byte := BitVec 8

instance neZero_four : NeZero 4 := ⟨by decide⟩

instance neZero_eight : NeZero 8 := ⟨by decide⟩

/-! ## Blocks -/

/-- A block of `n` bytes. -/
abbrev Block (n : Nat) := Fin n → Byte

namespace Block

variable {n : Nat}

/-- The bytes from `off` on; past the end there are none, shown as zeros. -/
def slice (s : Block n) (off : Nat) : Nat → Byte :=
  fun k => if h : off + k < n then s ⟨off + k, h⟩ else 0

/-- The block with `len` bytes from `off` on replaced by the first bytes of `src`. -/
def patch (s : Block n) (off len : Nat) (src : Nat → Byte) : Block n :=
  fun i => if off ≤ i.val ∧ i.val < off + len then src (i.val - off) else s i

theorem slice_apply (s : Block n) {off k : Nat} (h : off + k < n) : s.slice off k = s ⟨off + k, h⟩ := by
  simp [slice, h]

/-- Reading inside a patch gives the patched bytes. -/
theorem slice_patch_inside (s : Block n) {off len off' k : Nat} (src : Nat → Byte) (h1 : off ≤ off' + k)
    (h2 : off' + k < off + len) (h3 : off' + k < n) :
    (s.patch off len src).slice off' k = src (off' + k - off) := by
  rw [slice_apply _ h3]; simp [patch, h1, h2]

/-- Reading outside a patch gives the old bytes. -/
theorem slice_patch_outside (s : Block n) {off len off' k : Nat} (src : Nat → Byte)
    (h : off' + k < off ∨ off + len ≤ off' + k) : (s.patch off len src).slice off' k = s.slice off' k := by
  unfold slice patch
  split
  · rw [if_neg (by simp only; omega)]
  · rfl

/-- The bytes of a block in which a list has been stored. -/
theorem ofFn_patch (s : Block n) {off : Nat} {l : List Byte} (h : off + l.length ≤ n) :
    List.ofFn (s.patch off l.length (l.getD · 0)) =
      (List.ofFn s).take off ++ (l ++ (List.ofFn s).drop (off + l.length)) := by
  refine List.ext_getElem (by simp; omega) fun k hk _ => ?_
  rw [List.length_ofFn] at hk
  have hoff : ((List.ofFn s).take off).length = off := by simp; omega
  rw [List.getElem_ofFn]
  by_cases h1 : k < off
  · rw [List.getElem_append_left (by omega), List.getElem_take, List.getElem_ofFn, patch, if_neg (by simp only; omega)]
  · rw [List.getElem_append_right (by omega)]
    by_cases h2 : k < off + l.length
    · rw [List.getElem_append_left (by omega), patch, if_pos (by simp only; omega)]
      simp only [hoff]
      rw [List.getD_eq_getElem?_getD, List.getElem?_eq_getElem (by omega), Option.getD_some]
    · rw [List.getElem_append_right (by omega), List.getElem_drop, List.getElem_ofFn, patch,
        if_neg (by simp only; omega)]
      congr 1
      exact Fin.ext (by simp only [hoff]; omega)

end Block

/-! ## Little-endian words -/

/-- Byte `k` of a 32-bit word. -/
def wordByte (w k : Nat) : Byte := BitVec.ofNat 8 (w / 256 ^ k)

/-- Word `j` of a byte image. -/
def wordAt (b : Nat → Byte) (j : Nat) : Nat :=
  (b (4 * j)).toNat + 256 * (b (4 * j + 1)).toNat + 65536 * (b (4 * j + 2)).toNat +
    16777216 * (b (4 * j + 3)).toNat

/-- The byte image of a sequence of words. -/
def wordsImage (w : Nat → Nat) (k : Nat) : Byte := wordByte (w (k / 4)) (k % 4)

theorem wordAt_lt (b : Nat → Byte) (j : Nat) : wordAt b j < 2 ^ 32 := by
  unfold wordAt
  have h0 := (b (4 * j)).isLt
  have h1 := (b (4 * j + 1)).isLt
  have h2 := (b (4 * j + 2)).isLt
  have h3 := (b (4 * j + 3)).isLt
  omega

theorem wordAt_congr {b b' : Nat → Byte} {j : Nat} (h : ∀ k, 4 * j ≤ k → k < 4 * j + 4 → b k = b' k) :
    wordAt b j = wordAt b' j := by
  unfold wordAt
  rw [h (4 * j) (by omega) (by omega), h (4 * j + 1) (by omega) (by omega), h (4 * j + 2) (by omega) (by omega),
    h (4 * j + 3) (by omega) (by omega)]

/-- A stored word reads back as it was. -/
theorem wordAt_image (w : Nat → Nat) (j : Nat) (h : w j < 2 ^ 32) : wordAt (wordsImage w) j = w j := by
  unfold wordAt wordsImage wordByte
  have e0 : 4 * j / 4 = j := by omega
  have e1 : (4 * j + 1) / 4 = j := by omega
  have e2 : (4 * j + 2) / 4 = j := by omega
  have e3 : (4 * j + 3) / 4 = j := by omega
  have m0 : 4 * j % 4 = 0 := by omega
  have m1 : (4 * j + 1) % 4 = 1 := by omega
  have m2 : (4 * j + 2) % 4 = 2 := by omega
  have m3 : (4 * j + 3) % 4 = 3 := by omega
  simp only [e0, e1, e2, e3, m0, m1, m2, m3, BitVec.toNat_ofNat]
  norm_num
  omega

/-- The bytes of a word that is put together from four. -/
theorem bytes_of_append (b₀ b₁ b₂ b₃ : Byte) :
    (b₃ ++ b₂ ++ b₁ ++ b₀).extractLsb' 0 8 = b₀ ∧ (b₃ ++ b₂ ++ b₁ ++ b₀).extractLsb' 8 8 = b₁ ∧
      (b₃ ++ b₂ ++ b₁ ++ b₀).extractLsb' 16 8 = b₂ ∧ (b₃ ++ b₂ ++ b₁ ++ b₀).extractLsb' 24 8 = b₃ := by
  refine ⟨?_, ?_, ?_, ?_⟩ <;> refine BitVec.eq_of_getLsbD_eq fun i hi => ?_ <;>
    simp only [BitVec.getLsbD_extractLsb', BitVec.getLsbD_append, hi, decide_true, Bool.true_and]
  · rw [if_pos (by omega), Nat.zero_add]
  · rw [if_neg (by omega), if_pos (by omega), Nat.add_sub_cancel_left]
  · rw [if_neg (by omega), if_neg (by omega), if_pos (by omega), Nat.sub_sub, Nat.add_sub_cancel_left]
  · rw [if_neg (by omega), if_neg (by omega), if_neg (by omega), Nat.sub_sub, Nat.sub_sub, Nat.add_sub_cancel_left]

/-- Four bytes shifted to their places are the word they make up. -/
theorem or_shifts (a b c d : Byte) :
    a.setWidth 32 <<< 24 ||| b.setWidth 32 <<< 16 ||| c.setWidth 32 <<< 8 ||| d.setWidth 32 = a ++ b ++ c ++ d := by
  refine BitVec.eq_of_getLsbD_eq fun i hi => ?_
  have hhi : ∀ (v : Byte) (k : Nat), 8 ≤ k → v.getLsbD k = false := fun v k hk => BitVec.getLsbD_of_ge v k hk
  simp only [BitVec.getLsbD_or, BitVec.getLsbD_shiftLeft, BitVec.getLsbD_setWidth, BitVec.getLsbD_append]
  grind

/-! ## Bits of a byte -/

/-- The byte with only bit `k` set. -/
def bit (k : Nat) : Byte := 1#8 <<< k

theorem getLsbD_bit {k j : Nat} (hj : j < 8) : (bit k).getLsbD j = decide (j = k) := by
  unfold bit
  rw [BitVec.getLsbD_shiftLeft]
  by_cases h : j = k
  · subst h; simp [hj]
  · by_cases hlt : j < k
    · simp [hlt, h]
    · have : j - k ≠ 0 := by omega
      simp [hlt, h, hj, this]

theorem and_bit_ne_zero (b : Byte) {k : Nat} (hk : k < 8) : (b &&& bit k != 0) = b.getLsbD k := by
  rw [Bool.eq_iff_iff, bne_iff_ne, ne_eq]
  constructor
  · intro h
    by_contra hb
    apply h
    ext j hj
    rw [← BitVec.getLsbD_eq_getElem, BitVec.getLsbD_and, getLsbD_bit hj]
    by_cases e : j = k
    · subst e; simp [hb]
    · simp [e]
  · intro hb h
    have := congrArg (fun x : Byte => x.getLsbD k) h
    simp [BitVec.getLsbD_and, getLsbD_bit hk, hb] at this

theorem getLsbD_or_bit (b : Byte) {k j : Nat} (hj : j < 8) :
    (b ||| bit k).getLsbD j = (b.getLsbD j || decide (j = k)) := by
  rw [BitVec.getLsbD_or, getLsbD_bit hj]

theorem getLsbD_and_not_bit (b : Byte) {k j : Nat} (hj : j < 8) :
    (b &&& ~~~(bit k)).getLsbD j = (b.getLsbD j && !decide (j = k)) := by
  rw [BitVec.getLsbD_and, BitVec.getLsbD_not, getLsbD_bit hj]
  simp [hj]

/-- Setting a clear bit and clearing it again gives the byte back. -/
theorem or_bit_and_not_bit (b : Byte) {k : Nat} (hk : k < 8) (h : b.getLsbD k = false) :
    (b ||| bit k) &&& ~~~(bit k) = b := by
  ext j hj
  rw [← BitVec.getLsbD_eq_getElem, ← BitVec.getLsbD_eq_getElem, getLsbD_and_not_bit _ hj, getLsbD_or_bit _ hj]
  by_cases e : j = k
  · subst e; simp [h]
  · simp [e]

end BlockIO
