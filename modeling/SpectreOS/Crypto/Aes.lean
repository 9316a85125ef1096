/-
AES-256, the forward cipher (aes256.c): key expansion, the four steps of a round, and a block
encrypted under any round keys. Every step is injective, so the cipher is.
-/
import SpectreOS.Lib.Text

namespace SpectreOS

open BlockIO

abbrev aes256Nk : Nat := 8
abbrev aes256Nb : Nat := 4
abbrev aes256Nr : Nat := 14
abbrev aes256KeySize : Nat := 32

/-- The round keys of an `aes256_ctx_t`. -/
abbrev RoundKeys := Block 240

def sboxTable : List Nat :=
  [0x63, 0x7c, 0x77, 0x7b, 0xf2, 0x6b, 0x6f, 0xc5, 0x30, 0x01, 0x67, 0x2b, 0xfe, 0xd7, 0xab, 0x76,
    0xca, 0x82, 0xc9, 0x7d, 0xfa, 0x59, 0x47, 0xf0, 0xad, 0xd4, 0xa2, 0xaf, 0x9c, 0xa4, 0x72, 0xc0,
    0xb7, 0xfd, 0x93, 0x26, 0x36, 0x3f, 0xf7, 0xcc, 0x34, 0xa5, 0xe5, 0xf1, 0x71, 0xd8, 0x31, 0x15,
    0x04, 0xc7, 0x23, 0xc3, 0x18, 0x96, 0x05, 0x9a, 0x07, 0x12, 0x80, 0xe2, 0xeb, 0x27, 0xb2, 0x75,
    0x09, 0x83, 0x2c, 0x1a, 0x1b, 0x6e, 0x5a, 0xa0, 0x52, 0x3b, 0xd6, 0xb3, 0x29, 0xe3, 0x2f, 0x84,
    0x53, 0xd1, 0x00, 0xed, 0x20, 0xfc, 0xb1, 0x5b, 0x6a, 0xcb, 0xbe, 0x39, 0x4a, 0x4c, 0x58, 0xcf,
    0xd0, 0xef, 0xaa, 0xfb, 0x43, 0x4d, 0x33, 0x85, 0x45, 0xf9, 0x02, 0x7f, 0x50, 0x3c, 0x9f, 0xa8,
    0x51, 0xa3, 0x40, 0x8f, 0x92, 0x9d, 0x38, 0xf5, 0xbc, 0xb6, 0xda, 0x21, 0x10, 0xff, 0xf3, 0xd2,
    0xcd, 0x0c, 0x13, 0xec, 0x5f, 0x97, 0x44, 0x17, 0xc4, 0xa7, 0x7e, 0x3d, 0x64, 0x5d, 0x19, 0x73,
    0x60, 0x81, 0x4f, 0xdc, 0x22, 0x2a, 0x90, 0x88, 0x46, 0xee, 0xb8, 0x14, 0xde, 0x5e, 0x0b, 0xdb,
    0xe0, 0x32, 0x3a, 0x0a, 0x49, 0x06, 0x24, 0x5c, 0xc2, 0xd3, 0xac, 0x62, 0x91, 0x95, 0xe4, 0x79,
    0xe7, 0xc8, 0x37, 0x6d, 0x8d, 0xd5, 0x4e, 0xa9, 0x6c, 0x56, 0xf4, 0xea, 0x65, 0x7a, 0xae, 0x08,
    0xba, 0x78, 0x25, 0x2e, 0x1c, 0xa6, 0xb4, 0xc6, 0xe8, 0xdd, 0x74, 0x1f, 0x4b, 0xbd, 0x8b, 0x8a,
    0x70, 0x3e, 0xb5, 0x66, 0x48, 0x03, 0xf6, 0x0e, 0x61, 0x35, 0x57, 0xb9, 0x86, 0xc1, 0x1d, 0x9e,
    0xe1, 0xf8, 0x98, 0x11, 0x69, 0xd9, 0x8e, 0x94, 0x9b, 0x1e, 0x87, 0xe9, 0xce, 0x55, 0x28, 0xdf,
    0x8c, 0xa1, 0x89, 0x0d, 0xbf, 0xe6, 0x42, 0x68, 0x41, 0x99, 0x2d, 0x0f, 0xb0, 0x54, 0xbb, 0x16]

def sbox (b : Byte) : Byte := BitVec.ofNat 8 (sboxTable.getD b.toNat 0)

def rcon : List Byte := [0x00, 0x01, 0x02, 0x04, 0x08, 0x10, 0x20, 0x40, 0x80, 0x1b, 0x36, 0x6c, 0xd8, 0xab, 0x4d]

/-! ## Key expansion -/

/-- The loop of `aes256_init`. -/
def aes256Expand (rk : RoundKeys) (bytesGenerated wordCount : Nat) : RoundKeys :=
  if bytesGenerated < (aes256Nr + 1) * aes256Nb * 4 then
    let temp := rk.slice (bytesGenerated - 4)
    let temp : Nat → Byte :=
      if wordCount % aes256Nk = 0 then
        -- RotWord, SubWord, and the round constant on the first byte
        fun i => if i = 0 then sbox (temp 1) ^^^ rcon.getD (wordCount / aes256Nk) 0 else sbox (temp ((i + 1) % 4))
      else if aes256Nk > 6 ∧ wordCount % aes256Nk = 4 then fun i => sbox (temp i)
      else temp
    let word := fun i => rk.slice (bytesGenerated - aes256KeySize) i ^^^ temp i
    aes256Expand (rk.patch bytesGenerated 4 word) (bytesGenerated + 4) (wordCount + 1)
  else rk
termination_by (aes256Nr + 1) * aes256Nb * 4 - bytesGenerated

/-- `aes256_init`; all bytes of the old round keys are overwritten. -/
def aes256Init (rk : RoundKeys) (key : Block aes256KeySize) : RoundKeys :=
  aes256Expand (rk.patch 0 aes256KeySize (key.slice 0)) aes256KeySize aes256Nk

/-! ## The steps of a round -/

/-- One turn of the loop of `gmul`, on `p`, `a` and `b`. -/
def gmulStep (v : Byte × Byte × Byte) : Byte × Byte × Byte :=
  let (p, a, b) := v
  let p := if b &&& 1 ≠ 0 then p ^^^ a else p
  let highBitSet := a &&& 0x80
  let a := a <<< 1
  let a := if highBitSet ≠ 0 then a ^^^ 0x1b else a
  (p, a, b >>> 1)

def gmul (a b : Byte) : Byte := (gmulStep^[8] (0, a, b)).1

/-- The state, column by column: byte `4 * col + row`. -/
abbrev AesState := Block 16

def addRoundKey (state : AesState) (roundKey : Nat → Byte) : AesState := fun i => state i ^^^ roundKey i

def subBytes (state : AesState) : AesState := fun i => sbox (state i)

def shiftRows (state : AesState) : AesState :=
  -- row 1
  let temp := state 1
  let state := Function.update state 1 (state 5)
  let state := Function.update state 5 (state 9)
  let state := Function.update state 9 (state 13)
  let state := Function.update state 13 temp
  -- row 2
  let temp := state 2
  let state := Function.update state 2 (state 10)
  let state := Function.update state 10 temp
  let temp := state 6
  let state := Function.update state 6 (state 14)
  let state := Function.update state 14 temp
  -- row 3
  let temp := state 15
  let state := Function.update state 15 (state 11)
  let state := Function.update state 11 (state 7)
  let state := Function.update state 7 (state 3)
  Function.update state 3 temp

/-- One column of `mix_columns`. -/
def mixColumn (a : Fin 4 → Byte) : Fin 4 → Byte :=
  ![gmul (a 0) 2 ^^^ gmul (a 1) 3 ^^^ a 2 ^^^ a 3, a 0 ^^^ gmul (a 1) 2 ^^^ gmul (a 2) 3 ^^^ a 3,
    a 0 ^^^ a 1 ^^^ gmul (a 2) 2 ^^^ gmul (a 3) 3, gmul (a 0) 3 ^^^ a 1 ^^^ a 2 ^^^ gmul (a 3) 2]

def column (state : AesState) (c : Fin 4) : Fin 4 → Byte := fun r => state ⟨c * 4 + r, by omega⟩

theorem col_lt (i : Fin 16) : i.val / 4 < 4 := by omega

theorem row_lt (i : Fin 16) : i.val % 4 < 4 := by omega

def mixColumns (state : AesState) : AesState :=
  fun i => mixColumn (column state ⟨i / 4, col_lt i⟩) ⟨i % 4, row_lt i⟩

/-- `aes256_encrypt_block`. -/
def aes256EncryptBlock (roundKeys : RoundKeys) (input : Block 16) : Block 16 :=
  let state := addRoundKey input (roundKeys.slice 0)
  let state := (List.range' 1 (aes256Nr - 1)).foldl (fun state round =>
    addRoundKey (mixColumns (shiftRows (subBytes state))) (roundKeys.slice (round * 16))) state
  addRoundKey (shiftRows (subBytes state)) (roundKeys.slice (aes256Nr * 16))

/-! ## Every step is injective -/

theorem addRoundKey_injective (roundKey : Nat → Byte) : Function.Injective (addRoundKey · roundKey) := by
  intro s t h
  funext i
  have hi : s i ^^^ roundKey i = t i ^^^ roundKey i := congrFun h i
  simpa using hi

/-- The bits set for the elements of a list. -/
theorem mem_of_testBit {l : List Nat} {m n : Nat} (h : (l.foldl (fun m k => m ||| 1 <<< k) m).testBit n = true) :
    m.testBit n = true ∨ n ∈ l := by
  induction l generalizing m with
  | nil => exact .inl h
  | cons k l ih =>
    rcases ih h with hm | hl
    · rw [Nat.testBit_or, Bool.or_eq_true, Nat.one_shiftLeft, Nat.testBit_two_pow] at hm
      rcases hm with hm | hk
      · exact .inl hm
      · exact .inr (by simp [of_decide_eq_true hk])
    · exact .inr (List.mem_cons_of_mem _ hl)

/-- Every byte is in the table, hence none is in it twice. -/
theorem sbox_injective : Function.Injective sbox := by
  have hfinite : Finite Byte := Finite.of_injective BitVec.toFin fun a b => BitVec.eq_of_toFin_eq
  apply Finite.injective_iff_surjective.2
  intro c
  have hall : sboxTable.foldl (fun m k => m ||| 1 <<< k) 0 = 2 ^ 256 - 1 := by decide +kernel
  have hbit : (sboxTable.foldl (fun m k => m ||| 1 <<< k) 0).testBit c.toNat = true := by
    rw [hall, Nat.testBit_two_pow_sub_one]
    exact decide_eq_true c.isLt
  rcases mem_of_testBit hbit with h0 | hmem
  · simp at h0
  · obtain ⟨i, hi, hget⟩ := List.getElem_of_mem hmem
    have hlen : sboxTable.length = 256 := by decide +kernel
    have hlt : i < 256 := hlen ▸ hi
    refine ⟨BitVec.ofNat 8 i, ?_⟩
    rw [sbox, BitVec.toNat_ofNat, Nat.mod_eq_of_lt hlt, List.getD_eq_getElem?_getD, List.getElem?_eq_getElem hi,
      Option.getD_some, hget, BitVec.ofNat_toNat, BitVec.setWidth_eq]

theorem subBytes_injective : Function.Injective subBytes := by
  intro s t h
  funext i
  exact sbox_injective (congrFun h i)

/-- Where each byte of the state comes from. -/
def shiftSource : Fin 16 → Fin 16 := ![0, 5, 10, 15, 4, 9, 14, 3, 8, 13, 2, 7, 12, 1, 6, 11]

theorem shiftRows_apply (s : AesState) (i : Fin 16) : shiftRows s i = s (shiftSource i) := by
  fin_cases i <;> rfl

theorem shiftRows_injective : Function.Injective shiftRows := by
  intro s t h
  funext i
  have hsurj : ∀ i, ∃ j, shiftSource j = i := by decide
  obtain ⟨j, rfl⟩ := hsurj i
  rw [← shiftRows_apply s, ← shiftRows_apply t, h]

/-! ### The columns -/

/-- What the loop of `gmul` makes of `a`. -/
def double (a : Byte) : Byte := if a &&& 0x80 ≠ 0 then a <<< 1 ^^^ 0x1b else a <<< 1

theorem double_xor (a b : Byte) : double (a ^^^ b) = double a ^^^ double b := by
  have hbit : ∀ a : Byte, a &&& 0x80 = 0 ∨ a &&& 0x80 = 0x80 := by decide +kernel
  have hand : (a ^^^ b) &&& 0x80 = (a &&& 0x80) ^^^ (b &&& 0x80) := by
    apply BitVec.eq_of_getElem_eq
    intro i hi
    simp [Bool.and_xor_distrib_right]
  have hshift : (a ^^^ b) <<< 1 = a <<< 1 ^^^ b <<< 1 := BitVec.shiftLeft_xor_distrib ..
  rw [double, double, double, hand, hshift]
  rcases hbit a with ha | ha <;> rcases hbit b with hb | hb <;> rw [ha, hb]
  · rfl
  · simp [BitVec.xor_assoc]
  · simp [BitVec.xor_comm _ 27#8, ← BitVec.xor_assoc]
  · have hcancel : ∀ x y z : Byte, x ^^^ y = x ^^^ z ^^^ (y ^^^ z) := by
      intro x y z
      rw [BitVec.xor_comm y, BitVec.xor_assoc, ← BitVec.xor_assoc z, BitVec.xor_self, BitVec.zero_xor]
    simpa using hcancel (a <<< 1) (b <<< 1) 0x1b

theorem gmulStep_eq (p a b : Byte) : gmulStep (p, a, b) = (if b &&& 1 ≠ 0 then p ^^^ a else p, double a, b >>> 1) := rfl

/-- The loop of `gmul` on XORed bytes, with the same `b`. -/
theorem gmulStep_xor (n : Nat) (p q a b k : Byte) :
    (gmulStep^[n] (p ^^^ q, a ^^^ b, k)).1 = (gmulStep^[n] (p, a, k)).1 ^^^ (gmulStep^[n] (q, b, k)).1 := by
  induction n generalizing p q a b k with
  | zero => rfl
  | succ n ih =>
    rw [Function.iterate_succ_apply, Function.iterate_succ_apply, Function.iterate_succ_apply, gmulStep_eq,
      gmulStep_eq, gmulStep_eq, double_xor, ← ih]
    congr 2
    split
    · rw [BitVec.xor_assoc, BitVec.xor_assoc, ← BitVec.xor_assoc q, BitVec.xor_comm q, BitVec.xor_assoc]
    · rfl

theorem gmul_xor (a b k : Byte) : gmul (a ^^^ b) k = gmul a k ^^^ gmul b k := by
  rw [gmul, gmul, gmul, ← gmulStep_xor]
  rfl

theorem gmul_turns (a b : Byte) :
    gmul a b = (gmulStep (gmulStep (gmulStep (gmulStep (gmulStep (gmulStep (gmulStep (gmulStep (0, a, b))))))))).1 :=
  rfl

/-- The factors of the columns and of their inverse, as sums of doublings. -/
theorem gmul_factors (a : Byte) :
    gmul a 2 = double a ∧ gmul a 3 = a ^^^ double a ∧ gmul a 9 = a ^^^ double (double (double a)) ∧
      gmul a 11 = a ^^^ double a ^^^ double (double (double a)) ∧
      gmul a 13 = a ^^^ double (double a) ^^^ double (double (double a)) ∧
      gmul a 14 = double a ^^^ double (double a) ^^^ double (double (double a)) := by
  simp [gmul_turns, gmulStep_eq]

/-- The coefficients of the columns' inverse. -/
theorem gmul_inverse (a : Byte) :
    gmul (gmul a 2) 14 ^^^ gmul a 11 ^^^ gmul a 13 ^^^ gmul (gmul a 3) 9 = a ∧
      gmul (gmul a 3) 14 ^^^ gmul (gmul a 2) 11 ^^^ gmul a 13 ^^^ gmul a 9 = 0 ∧
      gmul a 14 ^^^ gmul (gmul a 3) 11 ^^^ gmul (gmul a 2) 13 ^^^ gmul a 9 = 0 ∧
      gmul a 14 ^^^ gmul a 11 ^^^ gmul (gmul a 3) 13 ^^^ gmul (gmul a 2) 9 = 0 := by
  simp only [gmul_factors, double_xor]
  generalize double (double (double (double a))) = a4
  generalize double (double (double a)) = a3
  generalize double (double a) = a2
  generalize double a = a1
  refine ⟨?_, ?_, ?_, ?_⟩ <;>
  · apply BitVec.eq_of_getElem_eq
    intro i hi
    simp only [BitVec.getElem_xor]
    cases a[i] <;> cases a1[i] <;> cases a2[i] <;> cases a3[i] <;> cases a4[i] <;> simp

/-- The four rows are one row turned round. -/
theorem mixColumn_apply (a : Fin 4 → Byte) (r : Fin 4) :
    mixColumn a r = gmul (a r) 2 ^^^ gmul (a (r + 1)) 3 ^^^ a (r + 2) ^^^ a (r + 3) := by
  fin_cases r
  · rfl
  · change a 0 ^^^ gmul (a 1) 2 ^^^ gmul (a 2) 3 ^^^ a 3 = gmul (a 1) 2 ^^^ gmul (a 2) 3 ^^^ a 3 ^^^ a 0
    ac_rfl
  · change a 0 ^^^ a 1 ^^^ gmul (a 2) 2 ^^^ gmul (a 3) 3 = gmul (a 2) 2 ^^^ gmul (a 3) 3 ^^^ a 0 ^^^ a 1
    ac_rfl
  · change gmul (a 0) 3 ^^^ a 1 ^^^ a 2 ^^^ gmul (a 3) 2 = gmul (a 3) 2 ^^^ gmul (a 0) 3 ^^^ a 1 ^^^ a 2
    ac_rfl

/-- The first byte of a column is found again from the four bytes `mix_columns` makes of it. -/
theorem unmix (a0 a1 a2 a3 : Byte) :
    gmul (gmul a0 2 ^^^ gmul a1 3 ^^^ a2 ^^^ a3) 14 ^^^ gmul (gmul a1 2 ^^^ gmul a2 3 ^^^ a3 ^^^ a0) 11 ^^^
      gmul (gmul a2 2 ^^^ gmul a3 3 ^^^ a0 ^^^ a1) 13 ^^^ gmul (gmul a3 2 ^^^ gmul a0 3 ^^^ a1 ^^^ a2) 9 = a0 := by
  obtain ⟨h0, -, -, -⟩ := gmul_inverse a0
  obtain ⟨-, h1, -, -⟩ := gmul_inverse a1
  obtain ⟨-, -, h2, -⟩ := gmul_inverse a2
  obtain ⟨-, -, -, h3⟩ := gmul_inverse a3
  simp only [gmul_xor]
  calc _ = (gmul (gmul a0 2) 14 ^^^ gmul a0 11 ^^^ gmul a0 13 ^^^ gmul (gmul a0 3) 9) ^^^
        (gmul (gmul a1 3) 14 ^^^ gmul (gmul a1 2) 11 ^^^ gmul a1 13 ^^^ gmul a1 9) ^^^
        (gmul a2 14 ^^^ gmul (gmul a2 3) 11 ^^^ gmul (gmul a2 2) 13 ^^^ gmul a2 9) ^^^
        (gmul a3 14 ^^^ gmul a3 11 ^^^ gmul (gmul a3 3) 13 ^^^ gmul (gmul a3 2) 9) := by ac_rfl
    _ = a0 := by rw [h0, h1, h2, h3]; simp

theorem mixColumn_injective : Function.Injective mixColumn := by
  intro a b h
  have hrow : ∀ x : Fin 4 → Byte, ∀ r : Fin 4,
      gmul (mixColumn x r) 14 ^^^ gmul (mixColumn x (r + 1)) 11 ^^^ gmul (mixColumn x (r + 2)) 13 ^^^
        gmul (mixColumn x (r + 3)) 9 = x r := by
    intro x r
    simp only [mixColumn_apply]
    fin_cases r <;> exact unmix ..
  funext r
  rw [← hrow a r, ← hrow b r, h]

theorem mixColumns_injective : Function.Injective mixColumns := by
  intro s t h
  have hcol : ∀ c, column s c = column t c := by
    intro c
    apply mixColumn_injective
    funext r
    have := congrFun h ⟨c * 4 + r, by omega⟩
    simpa [mixColumns, show (c.val * 4 + r.val) / 4 = c.val by omega,
      show (c.val * 4 + r.val) % 4 = r.val by omega] using this
  funext i
  have := congrFun (hcol ⟨i / 4, by omega⟩) ⟨i % 4, by omega⟩
  simpa [column, Nat.div_add_mod'] using this

/-! ### The cipher -/

theorem foldl_injective {σ α : Type} {f : σ → α → σ} (h : ∀ a, Function.Injective (f · a)) (l : List α) :
    Function.Injective fun s => l.foldl f s := by
  induction l with
  | nil => exact Function.injective_id
  | cons a l ih => exact ih.comp (h a)

/-- Under any round keys two blocks are never encrypted to the same one. -/
theorem aes256EncryptBlock_injective (roundKeys : RoundKeys) : Function.Injective (aes256EncryptBlock roundKeys) := by
  have hround : ∀ round : Nat, Function.Injective fun state : AesState =>
      addRoundKey (mixColumns (shiftRows (subBytes state))) (roundKeys.slice (round * 16)) := by
    intro round
    exact (addRoundKey_injective _).comp (mixColumns_injective.comp (shiftRows_injective.comp subBytes_injective))
  have hlast : Function.Injective fun state : AesState =>
      addRoundKey (shiftRows (subBytes state)) (roundKeys.slice (aes256Nr * 16)) :=
    (addRoundKey_injective _).comp (shiftRows_injective.comp subBytes_injective)
  intro s t h
  apply addRoundKey_injective (roundKeys.slice 0)
  apply foldl_injective hround (List.range' 1 (aes256Nr - 1))
  exact hlast h

end SpectreOS
