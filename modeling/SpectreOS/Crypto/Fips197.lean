/-
The kernel's AES-256 is the cipher of FIPS 197: the S-box is the affine transformation of the inverse
in the field of bytes, `gmul` multiplies in it, and so the key expansion and every round compute what
the standard's do.
-/
import SpectreOS.Crypto.Aes
import SpectreOS.Lib.Rijndael

namespace SpectreOS

open BlockIO Rijndael Gf256

/-! ## The field -/

theorem ofByte_double (a : Byte) : ofByte (double a) = x * ofByte a := by
  have hbits : ∀ a : Byte, bits (double a) = ![bits a 7, bits a 0 + bits a 7, bits a 1, bits a 2 + bits a 7,
      bits a 3 + bits a 7, bits a 4, bits a 5, bits a 6] := by decide +kernel
  exact x_mul_ofByte (hbits a)

/-- What the loop of `gmul` adds up in `n` turns. -/
theorem ofByte_gmulStep (n : Nat) (p a b : Byte) :
    ofByte (gmulStep^[n] (p, a, b)).1 =
      ofByte p + ofByte a * ∑ i ∈ Finset.range n, if b.getLsbD i then x ^ i else 0 := by
  induction n generalizing p a b with
  | zero => simp
  | succ n ih =>
    have hfirst : ofByte (if b &&& 1 ≠ 0 then p ^^^ a else p) = ofByte p + ofByte a * if b.getLsbD 0 then 1 else 0 := by
      have hlow : b &&& 1 ≠ 0 ↔ b.getLsbD 0 = true := by
        revert b
        decide +kernel
      by_cases h : b.getLsbD 0 = true
      · rw [if_pos (hlow.2 h), if_pos h, ofByte_xor, mul_one]
      · rw [if_neg (mt hlow.1 h), if_neg h, mul_zero, add_zero]
    have hrest : (∑ i ∈ Finset.range n, if (b >>> 1).getLsbD i then x ^ (i + 1) else 0) =
        ∑ i ∈ Finset.range n, if b.getLsbD (i + 1) then x ^ (i + 1) else 0 := by
      refine Finset.sum_congr rfl fun i _ => ?_
      rw [BitVec.getLsbD_ushiftRight, Nat.add_comm 1 i]
    have hshift : x * (∑ i ∈ Finset.range n, if (b >>> 1).getLsbD i then x ^ i else 0) =
        ∑ i ∈ Finset.range n, if (b >>> 1).getLsbD i then x ^ (i + 1) else 0 := by
      rw [Finset.mul_sum]
      refine Finset.sum_congr rfl fun i _ => ?_
      split
      · rw [pow_succ']
      · rw [mul_zero]
    rw [Function.iterate_succ_apply, gmulStep_eq, ih, hfirst, ofByte_double, Finset.sum_range_succ', ← hrest, ← hshift,
      pow_zero]
    ring

/-- `gmul` is the product of the field. -/
theorem ofByte_gmul (a b : Byte) : ofByte (gmul a b) = ofByte a * ofByte b := by
  rw [gmul, ofByte_gmulStep, ← ofByte_eq_sum, ofByte_zero, zero_add]

/-- The affine transformation, undone. -/
def inverseAffine (c : Byte) : Byte := c.rotateLeft 1 ^^^ c.rotateLeft 3 ^^^ c.rotateLeft 6 ^^^ 0x05

/-- The inverse that the table stands for. -/
def byteInverse (b : Byte) : Byte := inverseAffine (sbox b)

theorem gmul_byteInverse {b : Byte} (h : b ≠ 0) : gmul b (byteInverse b) = 1 := by
  revert b
  decide +kernel

theorem ofByte_mul_inverse {b : Byte} (h : b ≠ 0) : ofByte b * ofByte (byteInverse b) = 1 := by
  rw [← ofByte_gmul, gmul_byteInverse h, ofByte_one]

instance : Fact (Irreducible modulus) := ⟨irreducible_of_inverses fun _ h => ⟨_, ofByte_mul_inverse h⟩⟩

theorem ofByte_byteInverse (b : Byte) : ofByte (byteInverse b) = (ofByte b)⁻¹ := by
  by_cases h : b = 0
  · rw [h, show byteInverse 0 = 0 by decide, ofByte_zero, inv_zero]
  · exact eq_inv_of_mul_eq_one_right (ofByte_mul_inverse h)

/-- The S-box of FIPS 197. -/
noncomputable def sBox (a : Gf256) : Gf256 := coefficients.symm (affine (coefficients a⁻¹))

/-- The table has the S-box's value for every byte. -/
theorem ofByte_sbox (b : Byte) : ofByte (sbox b) = sBox (ofByte b) := by
  have haffine : ∀ c : Byte, affine (bits (inverseAffine c)) = bits c := by decide +kernel
  rw [sBox, ← ofByte_byteInverse, coefficients_ofByte, byteInverse, haffine]
  rfl

/-! ## The rounds -/

/-- The state of FIPS 197: bytes run down the columns. -/
noncomputable def stateOf (block : Block 16) : State Gf256 := Matrix.of fun r c => ofByte (block ⟨4 * c + r, by omega⟩)

noncomputable def blockOf (s : State Gf256) : Block 16 := fun i => toByte (s ⟨i % 4, row_lt i⟩ ⟨i / 4, col_lt i⟩)

theorem blockOf_stateOf (block : Block 16) : blockOf (stateOf block) = block := by
  funext i
  simp only [blockOf, stateOf, Matrix.of_apply, toByte_ofByte]
  congr 1
  exact Fin.ext (Nat.div_add_mod i.val 4)

theorem stateOf_subBytes (block : Block 16) : stateOf (subBytes block) = SubBytes sBox (stateOf block) := by
  ext r c
  exact ofByte_sbox _

theorem stateOf_shiftRows (block : Block 16) : stateOf (shiftRows block) = ShiftRows (stateOf block) := by
  have hsource : ∀ r c : Fin 4, shiftSource ⟨4 * c + r, by omega⟩ = ⟨4 * (c + r : Fin 4) + r, by omega⟩ := by decide
  ext r c
  simp only [stateOf, ShiftRows, Matrix.of_apply, shiftRows_apply, hsource]

theorem stateOf_mixColumns (block : Block 16) : stateOf (mixColumns block) = MixColumns x (stateOf block) := by
  have htwo : ∀ a : Byte, ofByte (gmul a 2) = x * ofByte a := fun a => by rw [ofByte_gmul, ofByte_two, mul_comm]
  have hthree : ∀ a : Byte, ofByte (gmul a 3) = (x + 1) * ofByte a :=
    fun a => by rw [ofByte_gmul, ofByte_three, mul_comm]
  ext r c
  have hcolumn : ∀ k : Fin 4, stateOf block k c = ofByte (column block c k) := by
    intro k
    simp only [stateOf, column, Matrix.of_apply, Nat.mul_comm 4]
  have hentry : stateOf (mixColumns block) r c = ofByte (mixColumn (column block c) r) := by
    have hc : (⟨(4 * c + r : Nat) / 4, by omega⟩ : Fin 4) = c := Fin.ext (by simp only; omega)
    have hr : (⟨(4 * c + r : Nat) % 4, by omega⟩ : Fin 4) = r := Fin.ext (by simp only; omega)
    simp only [stateOf, mixColumns, Matrix.of_apply, hc, hr]
  rw [hentry, mixColumn_apply, ofByte_xor, ofByte_xor, ofByte_xor, htwo, hthree, MixColumns, Matrix.mul_apply,
    Fin.sum_univ_four]
  simp only [hcolumn]
  fin_cases r
  · simp [mixMatrix]
  · simp [mixMatrix]
    ring
  · simp [mixMatrix]
    ring
  · simp [mixMatrix]
    ring

/-! ## The key expansion -/

/-- The key, four bytes a word. -/
noncomputable def keyWords (key : Block aes256KeySize) : Fin 8 → Word Gf256 :=
  fun j i => ofByte (key ⟨4 * j + i, show 4 * j.val + i.val < 32 by omega⟩)

theorem ofByte_rcon {j : Nat} (h0 : 0 < j) (h8 : j ≤ 8) : ofByte (rcon.getD j 0) = x ^ (j - 1) := by
  have hbit : ∀ j < 9, 0 < j → rcon.getD j 0 = bit (j - 1) := by decide
  rw [hbit j (by omega) h0, ofByte_eq_sum]
  rw [Finset.sum_eq_single_of_mem (j - 1) (Finset.mem_range.2 (by omega))]
  · rw [getLsbD_bit (by omega), if_pos (by simp)]
  · intro i hi hne
    rw [getLsbD_bit (Finset.mem_range.1 hi), if_neg (by simp [hne])]

section Expand

variable {key : Block aes256KeySize} {rk : RoundKeys} {n : Nat}

/-- The words of FIPS 197 for a key. -/
noncomputable abbrev wordsOf (key : Block aes256KeySize) : Nat → Word Gf256 :=
  expandedKey sBox x 8 (keyWords key)

/-- The first `n` words of the round keys are the standard's. -/
def Expanded (key : Block aes256KeySize) (rk : RoundKeys) (n : Nat) : Prop :=
  ∀ j < n, ∀ i : Fin 4, ofByte (rk.slice (4 * j) i) = wordsOf key j i

/-- The word the loop of `aes256_init` computes next. -/
def nextWord (rk : RoundKeys) (bytesGenerated wordCount : Nat) : Nat → Byte :=
  let temp := rk.slice (bytesGenerated - 4)
  let temp : Nat → Byte :=
    if wordCount % aes256Nk = 0 then
      fun i => if i = 0 then sbox (temp 1) ^^^ rcon.getD (wordCount / aes256Nk) 0 else sbox (temp ((i + 1) % 4))
    else if aes256Nk > 6 ∧ wordCount % aes256Nk = 4 then fun i => sbox (temp i)
    else temp
  fun i => rk.slice (bytesGenerated - aes256KeySize) i ^^^ temp i

theorem aes256Expand_eq (rk : RoundKeys) (bytesGenerated wordCount : Nat) :
    aes256Expand rk bytesGenerated wordCount =
      if bytesGenerated < (aes256Nr + 1) * aes256Nb * 4 then
        aes256Expand (rk.patch bytesGenerated 4 (nextWord rk bytesGenerated wordCount))
          (bytesGenerated + 4) (wordCount + 1)
      else rk := by
  rw [aes256Expand]
  rfl

theorem ofByte_nextWord (h : Expanded key rk n) (h8 : 8 ≤ n) (h60 : n < 60) (i : Fin 4) :
    ofByte (nextWord rk (4 * n) n i) = wordsOf key n i := by
  have hold : ofByte (rk.slice (4 * n - aes256KeySize) i) = wordsOf key (n - 8) i := by
    rw [show 4 * n - aes256KeySize = 4 * (n - 8) by simp only [aes256KeySize]; omega]
    exact h _ (by omega) i
  have hlast : ∀ i : Fin 4, ofByte (rk.slice (4 * n - 4) i) = wordsOf key (n - 1) i := by
    intro i
    rw [show 4 * n - 4 = 4 * (n - 1) by omega]
    exact h _ (by omega) i
  have hrot : ofByte (sbox (rk.slice (4 * n - 4) ((i + 1) % 4))) = SubWord sBox (RotWord (wordsOf key (n - 1))) i := by
    have hval : ((i.val + 1) % 4) = (i + 1 : Fin 4).val := by
      rw [Fin.val_add]
      rfl
    rw [hval, ofByte_sbox, hlast]
    rfl
  rw [wordsOf, expandedKey_next _ h8, nextWord]
  simp only [ofByte_xor, hold, Pi.add_apply]
  congr 1
  split
  · rename_i hround
    have hrcon := @ofByte_rcon (n / aes256Nk) (Nat.div_pos h8 (by decide)) (by simp only [aes256Nk]; omega)
    rw [Pi.add_apply, ← hrot]
    beta_reduce
    by_cases hi : i = 0
    · subst hi
      rw [if_pos (show (0 : Fin 4).val = 0 from rfl), ofByte_xor, hrcon]
      rfl
    · have hzero : Rcon x (n / aes256Nk) i = 0 := by
        fin_cases i
        · exact absurd rfl hi
        · rfl
        · rfl
        · rfl
      have hval : i.val ≠ 0 := fun hv => hi (Fin.ext hv)
      rw [if_neg hval, hzero, add_zero]
  · split
    · rw [ofByte_sbox, hlast]
      rfl
    · exact hlast i

theorem Expanded.next (h : Expanded key rk n) (h8 : 8 ≤ n) (h60 : n < 60) :
    Expanded key (rk.patch (4 * n) 4 (nextWord rk (4 * n) n)) (n + 1) := by
  intro j hj i
  by_cases hjn : j = n
  · subst hjn
    rw [Block.slice_patch_inside _ _ (by omega) (by omega) (by omega), Nat.add_sub_cancel_left]
    exact ofByte_nextWord h h8 h60 i
  · rw [Block.slice_patch_outside _ _ (by omega)]
    exact h j (by omega) i

/-- The loop of `aes256_init` fills in the words that are missing. -/
theorem Expanded.rest (h : Expanded key rk n) (h8 : 8 ≤ n) (h60 : n ≤ 60) :
    Expanded key (aes256Expand rk (4 * n) n) 60 := by
  induction hk : 60 - n generalizing n rk with
  | zero =>
    obtain rfl : n = 60 := by omega
    rwa [aes256Expand_eq, if_neg (by decide)]
  | succ k ih =>
    have hrest := ih (h.next h8 (by omega)) (by omega) (by omega) (by omega)
    rwa [aes256Expand_eq, if_pos (by simp only [aes256Nr, aes256Nb]; omega)]

theorem expanded_init (rk : RoundKeys) (key : Block aes256KeySize) : Expanded key (aes256Init rk key) 60 := by
  have hkey : Expanded key (rk.patch 0 aes256KeySize (key.slice 0)) 8 := by
    intro j hj i
    have hlt : 4 * j + i.val < 32 := by omega
    rw [Block.slice_patch_inside _ _ (by omega) (by simp only [aes256KeySize]; omega) (by omega), Nat.sub_zero,
      Block.slice_apply _ (by simp only [aes256KeySize]; omega), wordsOf, expandedKey_key _ hj]
    simp only [keyWords, Nat.zero_add]
  exact hkey.rest (by omega) (by omega)

end Expand

/-! ## The cipher -/

theorem stateOf_addRoundKey {key : Block aes256KeySize} {rk : RoundKeys} (h : Expanded key rk 60) (block : Block 16)
    {round : Nat} (hround : round ≤ 14) :
    stateOf (addRoundKey block (rk.slice (round * 16))) = AddRoundKey (wordsOf key) round (stateOf block) := by
  ext r c
  have hword := h (4 * round + c) (by omega) r
  have hslice : rk.slice (round * 16) (4 * c + r) = rk.slice (4 * (4 * round + c)) r := by
    simp only [Block.slice, show round * 16 + (4 * c.val + r.val) = 4 * (4 * round + c.val) + r.val by ring]
  simp only [stateOf, addRoundKey, AddRoundKey, roundKey, Matrix.add_apply, Matrix.of_apply, ofByte_xor, hslice, hword]

theorem stateOf_rounds {key : Block aes256KeySize} {rk : RoundKeys} (h : Expanded key rk 60) (rounds : List Nat)
    (hle : ∀ round ∈ rounds, round ≤ 14) (s : AesState) :
    stateOf (rounds.foldl (fun state round =>
      addRoundKey (mixColumns (shiftRows (subBytes state))) (rk.slice (round * 16))) s) =
    rounds.foldl (fun s round => AddRoundKey (wordsOf key) round (MixColumns x (ShiftRows (SubBytes sBox s))))
      (stateOf s) := by
  induction rounds generalizing s with
  | nil => rfl
  | cons round rounds ih =>
    rw [List.foldl_cons, List.foldl_cons, ih fun round h => hle round (List.mem_cons_of_mem _ h),
      stateOf_addRoundKey h _ (hle round List.mem_cons_self), stateOf_mixColumns, stateOf_shiftRows, stateOf_subBytes]

theorem stateOf_encrypt {key : Block aes256KeySize} {rk : RoundKeys} (h : Expanded key rk 60) (block : Block 16) :
    stateOf (aes256EncryptBlock rk block) = Cipher sBox x aes256Nr (wordsOf key) (stateOf block) := by
  have hle : ∀ round ∈ List.range' 1 (aes256Nr - 1), round ≤ 14 := by decide
  have hfirst := stateOf_addRoundKey h block (Nat.zero_le 14)
  rw [Nat.zero_mul] at hfirst
  rw [aes256EncryptBlock, Cipher, stateOf_addRoundKey h _ (Nat.le_refl 14), stateOf_shiftRows, stateOf_subBytes,
    stateOf_rounds h _ hle, hfirst]

/-- For every key and every block the code computes the cipher of FIPS 197 with eight key words and
fourteen rounds. -/
theorem aes256_is_fips197 (rk : RoundKeys) (key : Block aes256KeySize) (block : Block 16) :
    aes256EncryptBlock (aes256Init rk key) block =
      blockOf (Cipher sBox x 14 (expandedKey sBox x 8 (keyWords key)) (stateOf block)) := by
  rw [← stateOf_encrypt (expanded_init rk key), blockOf_stateOf]

end SpectreOS
