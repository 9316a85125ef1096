/-
AES as FIPS 197 defines it: the field of bytes of section 4, the transformations of a round and the
cipher of section 5.1, the key expansion of section 5.2. The state is a matrix over the field, so that
MixColumns is a product of matrices; the cipher itself is stated over any ring, for any substitution.
-/
import SpectreOS.Lib.Bytes

namespace Rijndael

open BlockIO Polynomial

/-! ## The cipher -/

section Cipher

variable {K : Type} [CommRing K]

/-- Row by column. -/
abbrev State (K : Type) := Matrix (Fin 4) (Fin 4) K

abbrev Word (K : Type) := Fin 4 → K

variable (S : K → K) (x : K)

def SubBytes (s : State K) : State K := s.map S

def ShiftRows (s : State K) : State K := Matrix.of fun r c => s r (c + r)

/-- The matrix of MixColumns, where `x` is the byte 02. -/
def mixMatrix : Matrix (Fin 4) (Fin 4) K :=
  !![x, x + 1, 1, 1;
    1, x, x + 1, 1;
    1, 1, x, x + 1;
    x + 1, 1, 1, x]

def MixColumns (s : State K) : State K := mixMatrix x * s

def RotWord (w : Word K) : Word K := fun i => w (i + 1)

def SubWord (w : Word K) : Word K := fun i => S (w i)

def Rcon (j : ℕ) : Word K := ![x ^ (j - 1), 0, 0, 0]

/-- The words of KeyExpansion. -/
def expandedKey (nk : ℕ) [NeZero nk] (key : Fin nk → Word K) (i : ℕ) : Word K :=
  if h : i < nk then key ⟨i, h⟩
  else
    have := NeZero.pos nk
    expandedKey nk key (i - nk) +
      if i % nk = 0 then SubWord S (RotWord (expandedKey nk key (i - 1))) + Rcon x (i / nk)
      else if nk > 6 ∧ i % nk = 4 then SubWord S (expandedKey nk key (i - 1))
      else expandedKey nk key (i - 1)

/-- Four words, a column each. -/
def roundKey (w : ℕ → Word K) (round : ℕ) : State K := Matrix.of fun r c => w (4 * round + c) r

def AddRoundKey (w : ℕ → Word K) (round : ℕ) (s : State K) : State K := s + roundKey w round

def Cipher (nr : ℕ) (w : ℕ → Word K) (input : State K) : State K :=
  let s := AddRoundKey w 0 input
  let s := (List.range' 1 (nr - 1)).foldl (fun s round =>
    AddRoundKey w round (MixColumns x (ShiftRows (SubBytes S s)))) s
  AddRoundKey w nr (ShiftRows (SubBytes S s))

variable {S x}

theorem expandedKey_key {nk : ℕ} [NeZero nk] (key : Fin nk → Word K) {i : ℕ} (h : i < nk) :
    expandedKey S x nk key i = key ⟨i, h⟩ := by
  rw [expandedKey, dif_pos h]

theorem expandedKey_next {nk : ℕ} [NeZero nk] (key : Fin nk → Word K) {i : ℕ} (h : nk ≤ i) :
    expandedKey S x nk key i = expandedKey S x nk key (i - nk) +
      if i % nk = 0 then SubWord S (RotWord (expandedKey S x nk key (i - 1))) + Rcon x (i / nk)
      else if nk > 6 ∧ i % nk = 4 then SubWord S (expandedKey S x nk key (i - 1))
      else expandedKey S x nk key (i - 1) := by
  rw [expandedKey, dif_neg (not_lt.2 h)]

end Cipher

/-! ## The field of bytes -/

/-- `x^8 + x^4 + x^3 + x + 1`. -/
noncomputable def modulus : (ZMod 2)[X] := X ^ 8 + X ^ 4 + X ^ 3 + X + 1

theorem modulus_natDegree : modulus.natDegree = 8 := by
  unfold modulus
  compute_degree!

theorem modulus_monic : modulus.Monic := by
  unfold modulus
  monicity!

/-- Polynomials over the integers modulo 2, modulo `modulus`. -/
abbrev Gf256 := AdjoinRoot modulus

/-- The byte 02. -/
noncomputable abbrev Gf256.x : Gf256 := AdjoinRoot.root modulus

instance ringHomInvPair_zmod : RingHomInvPair (RingHom.id (ZMod 2)) (RingHom.id (ZMod 2)) := .ids

/-- The coefficients of the polynomial of degree below 8. -/
noncomputable def coefficients : Gf256 ≃ₗ[ZMod 2] (Fin 8 → ZMod 2) :=
  ((AdjoinRoot.powerBasis' modulus_monic).basis.reindex (finCongr modulus_natDegree)).equivFun

theorem coefficients_symm (v : Fin 8 → ZMod 2) : coefficients.symm v = ∑ i, v i • Gf256.x ^ i.val := by
  rw [coefficients, Module.Basis.equivFun_symm_apply]
  refine Finset.sum_congr rfl fun i _ => ?_
  rw [Module.Basis.reindex_apply, PowerBasis.basis_eq_pow, AdjoinRoot.powerBasis'_gen]
  rfl

/-- The affine transformation of section 5.1.1; indices are modulo 8. -/
def affine (b : Fin 8 → ZMod 2) : Fin 8 → ZMod 2 :=
  fun i => b i + b (i + 4) + b (i + 5) + b (i + 6) + b (i + 7) + (![1, 1, 0, 0, 0, 1, 1, 0] : Fin 8 → ZMod 2) i

/-! ## Bytes -/

/-- A byte is the polynomial whose coefficients are its bits. -/
def bits (b : Byte) : Fin 8 → ZMod 2 := fun i => if b.getLsbD i then 1 else 0

def ofBits (v : Fin 8 → ZMod 2) : Byte :=
  BitVec.ofBoolListLE [v 0 = 1, v 1 = 1, v 2 = 1, v 3 = 1, v 4 = 1, v 5 = 1, v 6 = 1, v 7 = 1]

theorem getLsbD_ofBits (v : Fin 8 → ZMod 2) (i : Fin 8) : (ofBits v).getLsbD i = decide (v i = 1) := by
  rw [ofBits, BitVec.getLsbD_ofBoolListLE]
  fin_cases i <;> rfl

theorem ofBits_bits (b : Byte) : ofBits (bits b) = b := by
  apply BitVec.eq_of_getLsbD_eq
  intro i hi
  rw [getLsbD_ofBits (bits b) ⟨i, hi⟩]
  simp [bits]

theorem bits_ofBits (v : Fin 8 → ZMod 2) : bits (ofBits v) = v := by
  funext i
  have htwo : ∀ a : ZMod 2, (if a = 1 then (1 : ZMod 2) else 0) = a := by decide
  rw [bits, getLsbD_ofBits]
  simpa using htwo (v i)

noncomputable def Gf256.ofByte (b : Byte) : Gf256 := coefficients.symm (bits b)

noncomputable def Gf256.toByte (a : Gf256) : Byte := ofBits (coefficients a)

namespace Gf256

theorem coefficients_ofByte (b : Byte) : coefficients (ofByte b) = bits b := coefficients.apply_symm_apply _

@[simp] theorem toByte_ofByte (b : Byte) : toByte (ofByte b) = b := by rw [toByte, coefficients_ofByte, ofBits_bits]

@[simp] theorem ofByte_toByte (a : Gf256) : ofByte (toByte a) = a := by
  rw [ofByte, toByte, bits_ofBits, coefficients.symm_apply_apply]

theorem bits_xor (a b : Byte) : bits (a ^^^ b) = bits a + bits b := by
  funext i
  simp only [bits, BitVec.getLsbD_xor, Pi.add_apply]
  cases a.getLsbD i <;> cases b.getLsbD i <;> decide

/-- Bytes are added with XOR. -/
theorem ofByte_xor (a b : Byte) : ofByte (a ^^^ b) = ofByte a + ofByte b := by
  rw [ofByte, bits_xor, map_add]
  rfl

theorem ofByte_eq_sum (b : Byte) : ofByte b = ∑ i ∈ Finset.range 8, if b.getLsbD i then x ^ i else 0 := by
  rw [ofByte, coefficients_symm, Finset.sum_range]
  refine Finset.sum_congr rfl fun i _ => ?_
  unfold bits
  split <;> simp

theorem ofByte_zero : ofByte 0 = 0 := by simp [ofByte_eq_sum]

theorem ofByte_one : ofByte 1 = 1 := by simp [ofByte_eq_sum]

theorem ofByte_two : ofByte 2 = x := by simp [ofByte_eq_sum, Finset.sum_range_succ]

theorem ofByte_three : ofByte 3 = x + 1 := by
  rw [show (3 : Byte) = 2 ^^^ 1 by decide, ofByte_xor, ofByte_two, ofByte_one]

theorem add_self (a : Gf256) : a + a = 0 := by
  have htwo : (1 + 1 : ZMod 2) = 0 := by decide
  rw [← one_smul (ZMod 2) a, ← add_smul, htwo, zero_smul]

theorem x_pow_eight : x ^ 8 = x ^ 4 + x ^ 3 + x + 1 := by
  have hroot : AdjoinRoot.mk modulus (X ^ 8 + X ^ 4 + X ^ 3 + X + 1) = 0 := AdjoinRoot.mk_self
  have hsum : x ^ 8 + x ^ 4 + x ^ 3 + x + 1 = 0 := by
    simpa only [map_add, map_pow, AdjoinRoot.mk_X, map_one] using hroot
  linear_combination hsum - add_self (x ^ 4 + x ^ 3 + x + 1)

/-- A shift by one bit, reduced, is a product with `x`. -/
theorem x_mul_ofByte {a b : Byte} (h : bits b = ![bits a 7, bits a 0 + bits a 7, bits a 1, bits a 2 + bits a 7,
    bits a 3 + bits a 7, bits a 4, bits a 5, bits a 6]) : ofByte b = x * ofByte a := by
  rw [ofByte, ofByte, h, coefficients_symm, coefficients_symm]
  simp only [Fin.sum_univ_eight, Algebra.smul_def, AdjoinRoot.algebraMap_eq]
  simp
  linear_combination -(AdjoinRoot.of modulus (bits a 7)) * x_pow_eight

/-- Where every byte but zero has an inverse the polynomials form a field. -/
theorem irreducible_of_inverses (h : ∀ b : Byte, b ≠ 0 → ∃ c, ofByte b * ofByte c = 1) : Irreducible modulus := by
  have hne : (0 : Gf256) ≠ 1 := by
    intro heq
    rw [← ofByte_zero, ← ofByte_one] at heq
    have := congrArg toByte heq
    rw [toByte_ofByte, toByte_ofByte] at this
    cases this
  have hfield : IsField Gf256 := by
    constructor
    · exact ⟨0, 1, hne⟩
    · exact mul_comm
    · intro a ha
      have hbyte : toByte a ≠ 0 := by
        intro hzero
        apply ha
        rw [← ofByte_toByte a, hzero, ofByte_zero]
      obtain ⟨c, hc⟩ := h (toByte a) hbyte
      rw [ofByte_toByte] at hc
      exact ⟨ofByte c, hc⟩
  have hmax := Ideal.Quotient.maximal_of_isField _ hfield
  exact ((Ideal.span_singleton_prime modulus_monic.ne_zero).1 hmax.isPrime).irreducible

end Gf256

end Rijndael
