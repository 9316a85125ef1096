/-
`sha256.c` computes SHA-256 however a message is cut: the transform is the compression function of
the standard, a context carries the blocks taken so far and the bytes of the block begun, and the
padding that `sha256_final` feeds byte by byte is the standard's.
-/
import SpectreOS.Crypto.Sha256

namespace SpectreOS

open BlockIO Chunks

/-! ## The transform -/

theorem rotr_eq (x : Word32) {n : Nat} (h : n < 32) : rotr x n = x.rotateRight n := by
  rw [rotr, BitVec.rotateRight_def, Nat.mod_eq_of_lt h]

theorem sha256K_eq {i : Nat} (h : i < 64) : sha256K.getD i 0 = Sha2.K i := by
  revert i
  decide +kernel

theorem loadWord_eq {block : Nat → Byte} {l : List Byte} {i : Nat} (h : ∀ k < 64, block k = l.getD k 0) (hi : i < 16) :
    loadWord block i = Sha2.blockWord l i := by
  rw [loadWord, Sha2.blockWord, Sha2.wordOf, Nat.mul_comm 4 i]
  rw [h (i * 4) (by omega), h (i * 4 + 1) (by omega), h (i * 4 + 2) (by omega), h (i * 4 + 3) (by omega)]
  apply BitVec.eq_of_getLsbD_eq
  intro j hj
  have hge : ∀ (b : Byte) (k : Nat), 8 ≤ k → b.getLsbD k = false := fun b k h => BitVec.getLsbD_of_ge b k h
  simp only [BitVec.getLsbD_or, BitVec.getLsbD_shiftLeft, BitVec.getLsbD_setWidth, BitVec.getLsbD_append]
  -- the byte that bit `j` lies in
  by_cases h1 : j < 8
  · simp [h1, hj, show j < 16 by omega, show j < 24 by omega]
  · by_cases h2 : j < 16
    · simp [h1, hj, h2, show j < 24 by omega, show j - 8 < 8 by omega, show j - 8 < 32 by omega, hge _ j (by omega)]
    · by_cases h3 : j < 24
      · simp [h1, hj, h2, h3, show ¬ j - 8 < 8 by omega, show j - 16 < 8 by omega,
          show j - 16 < 32 by omega, Nat.sub_sub, hge _ j (by omega), hge _ (j - 8) (by omega)]
      · simp [h1, hj, h2, h3, show ¬ j - 8 < 8 by omega, show ¬ j - 16 < 8 by omega,
          show j - 24 < 32 by omega, Nat.sub_sub, hge _ j (by omega), hge _ (j - 8) (by omega),
          hge _ (j - 16) (by omega)]

/-- The schedule, word by word: each round of the loop adds the next one and keeps those before. -/
theorem extend_eq {M w : Nat → Word32} (k : Nat) (h : ∀ t < 16, w t = M t) :
    ∀ t < 16 + k, ((List.range' 16 k).foldl extendWord w) t = Sha2.W M t := by
  induction k with
  | zero =>
    intro t ht
    rw [Sha2.W, if_pos ht]
    exact h t ht
  | succ k ih =>
    intro t ht
    rw [List.range'_concat, List.foldl_append, List.foldl_cons, List.foldl_nil, Nat.one_mul]
    generalize (List.range' 16 k).foldl extendWord w = v at ih ⊢
    by_cases he : t = 16 + k
    · subst he
      rw [extendWord, Function.update_self, Sha2.W, if_neg (by omega)]
      rw [ih _ (by omega), ih _ (by omega), ih _ (by omega), ih _ (by omega)]
      simp only [rotr_eq _ (show 7 < 32 by decide), rotr_eq _ (show 18 < 32 by decide),
        rotr_eq _ (show 17 < 32 by decide), rotr_eq _ (show 19 < 32 by decide)]
      rw [Sha2.sigma0, Sha2.sigma1]
      ac_rfl
    · rw [extendWord, Function.update_of_ne he]
      exact ih t (by omega)

theorem messageWords_eq {block : Nat → Byte} {l : List Byte} (h : ∀ k < 64, block k = l.getD k 0)
    {t : Nat} (ht : t < 64) :
    messageWords block t = Sha2.W (Sha2.blockWord l) t := by
  apply extend_eq 48 _ t ht
  intro i hi
  rw [if_pos hi]
  exact loadWord_eq h hi

theorem sha256Round_eq {w w' : Nat → Word32} {i : Nat} (hi : i < 64) (hw : w i = w' i) (v : Sha256Vars) :
    sha256Round w v i = Sha2.round w' v i := by
  simp only [sha256Round, Sha2.round, hw, sha256K_eq hi, Sha2.bigSigma0, Sha2.bigSigma1, Sha2.Ch, Sha2.Maj,
    rotr_eq _ (show 6 < 32 by decide), rotr_eq _ (show 11 < 32 by decide), rotr_eq _ (show 25 < 32 by decide),
    rotr_eq _ (show 2 < 32 by decide), rotr_eq _ (show 13 < 32 by decide), rotr_eq _ (show 22 < 32 by decide)]

/-- The transform is the compression function. -/
theorem sha256Transform_eq (ctx : Sha256Ctx) {block : Nat → Byte} {l : List Byte} (h : ∀ k < 64, block k = l.getD k 0) :
    Sha256Vars.load (sha256Transform ctx block).state = Sha2.compress (Sha256Vars.load ctx.state) l := by
  have hrounds : (List.range 64).foldl (sha256Round (messageWords block)) (Sha256Vars.load ctx.state) =
      (List.range 64).foldl (Sha2.round (Sha2.W (Sha2.blockWord l))) (Sha256Vars.load ctx.state) := by
    apply List.foldl_ext
    intro v i hi
    exact sha256Round_eq (List.mem_range.1 hi) (messageWords_eq h (List.mem_range.1 hi)) v
  simp only [sha256Transform, Sha2.compress]
  rw [hrounds]
  rfl

@[simp] theorem sha256Transform_buffer (ctx : Sha256Ctx) (block : Nat → Byte) :
    (sha256Transform ctx block).buffer = ctx.buffer := rfl

@[simp] theorem sha256Transform_bufferLength (ctx : Sha256Ctx) (block : Nat → Byte) :
    (sha256Transform ctx block).bufferLength = ctx.bufferLength := rfl

/-! ## What a context carries -/

/-- The context has the hash value `H` and the bytes `rest` of the block begun. -/
structure Carries (ctx : Sha256Ctx) (H : Sha2.Words) (rest : List Byte) : Prop where
  words : Sha256Vars.load ctx.state = H
  length : ctx.bufferLength = rest.length
  buffer : ∀ k < rest.length, ctx.buffer.slice 0 k = rest.getD k 0
  short : rest.length < sha256BlockSize

theorem carries_init (stack : Sha256Ctx) : Carries (sha256Init stack) Sha2.H0 [] := by
  constructor
  · exact show Sha256Vars.load (sha256Init stack).state = Sha2.H0 by
      simp only [sha256Init, Sha256Vars.load]
      decide +kernel
  · rfl
  · intro k hk
    exact absurd hk (Nat.not_lt_zero k)
  · decide

section Carries

variable {ctx : Sha256Ctx} {H : Sha2.Words} {rest x : List Byte}

/-- A whole block goes into the hash value. -/
theorem Carries.transform (h : Carries ctx H []) {block : Nat → Byte} {l : List Byte}
    (hl : ∀ k < 64, block k = l.getD k 0) :
    Carries (sha256Transform ctx block) (Sha2.compress H l) [] := by
  constructor
  · rw [sha256Transform_eq ctx hl, h.words]
  · exact h.length
  · intro k hk
    exact absurd hk (Nat.not_lt_zero k)
  · decide

/-- Bytes put behind those of the block begun. -/
theorem Carries.bytes (h : Carries ctx H rest) (hn : (rest ++ x).length ≤ sha256BlockSize) {k : Nat}
    (hk : k < (rest ++ x).length) {src : Nat → Byte} (hsrc : ∀ k < x.length, src k = x.getD k 0) :
    (ctx.buffer.patch ctx.bufferLength x.length src).slice 0 k = (rest ++ x).getD k 0 := by
  rw [List.length_append] at hn hk
  have hlen := h.length
  by_cases hr : k < rest.length
  · rw [Block.slice_patch_outside _ _ (by omega), h.buffer k hr, List.getD_eq_getElem?_getD, List.getD_eq_getElem?_getD,
      List.getElem?_append_left hr]
  · rw [Block.slice_patch_inside _ _ (by omega) (by omega) (by omega), hsrc _ (by omega), Nat.zero_add, hlen,
      List.getD_eq_getElem?_getD, List.getD_eq_getElem?_getD, List.getElem?_append_right (by omega)]

/-- The block begun has room for all of the input. -/
theorem sha256Fill_short (h0 : 0 < ctx.bufferLength) (hx : x.length < sha256BlockSize - ctx.bufferLength) :
    sha256Fill ctx x = ({ ctx with
      buffer := ctx.buffer.patch ctx.bufferLength x.length (x.getD · 0)
      bufferLength := ctx.bufferLength + x.length }, x.length) := by
  simp only [sha256Fill, if_pos h0, if_pos hx]
  exact if_neg (by omega)

/-- The input fills the block begun. -/
theorem sha256Fill_full (h0 : 0 < ctx.bufferLength) (hn : ctx.bufferLength ≤ sha256BlockSize)
    (hx : ¬ x.length < sha256BlockSize - ctx.bufferLength) :
    ∃ c, sha256Fill ctx x = ({ sha256Transform c (c.buffer.slice 0) with bufferLength := 0 },
      sha256BlockSize - ctx.bufferLength) ∧
      c.state = ctx.state ∧
      c.buffer = ctx.buffer.patch ctx.bufferLength (sha256BlockSize - ctx.bufferLength) (x.getD · 0) := by
  simp only [sha256Fill, if_pos h0, if_neg hx]
  exact ⟨_, if_pos (by omega), rfl, rfl⟩

/-- The first part fills up the block begun, or takes all of the input. -/
theorem Carries.fill (h : Carries ctx H rest) (x : List Byte) :
    ∃ H' rest', Carries (sha256Fill ctx x).1 H' rest' ∧ (sha256Fill ctx x).2 ≤ x.length ∧
      (rest' = [] ∨ (sha256Fill ctx x).2 = x.length) ∧
      foldChunks 64 Sha2.compress H' (rest' ++ x.drop (sha256Fill ctx x).2) =
      foldChunks 64 Sha2.compress H (rest ++ x) := by
  have hlen := h.length
  have hshort := h.short
  by_cases h0 : 0 < ctx.bufferLength
  · by_cases hx : x.length < sha256BlockSize - ctx.bufferLength
    · rw [sha256Fill_short h0 hx]
      refine ⟨H, rest ++ x, ⟨h.words, ?_, ?_, ?_⟩, le_refl _, .inr rfl, by rw [List.drop_length, List.append_nil]⟩
      · rw [List.length_append, ← hlen]
      · intro k hk
        exact h.bytes (by rw [List.length_append]; omega) hk fun _ _ => rfl
      · rw [List.length_append]
        omega
    · obtain ⟨c, hfill, hstate, hbuffer⟩ := sha256Fill_full h0 (by omega) hx
      obtain ⟨t, ht⟩ : ∃ t, t = x.take (sha256BlockSize - ctx.bufferLength) := ⟨_, rfl⟩
      have htl : t.length = sha256BlockSize - ctx.bufferLength := by rw [ht, List.length_take]; omega
      have hall : (rest ++ t).length = sha256BlockSize := by rw [List.length_append]; omega
      have hl : ∀ k < 64, c.buffer.slice 0 k = (rest ++ t).getD k 0 := by
        intro k hk
        rw [hbuffer, ← htl]
        apply h.bytes hall.le (by rw [hall]; exact hk)
        intro j hj
        rw [ht, List.getD_eq_getElem?_getD, List.getD_eq_getElem?_getD, List.getElem?_take_of_lt (by omega)]
      rw [hfill]
      refine ⟨Sha2.compress H (rest ++ t), [], ⟨?_, rfl, ?_, by decide⟩, by simp only; omega, .inl rfl, ?_⟩
      · refine (sha256Transform_eq c hl).trans ?_
        rw [hstate, h.words]
      · intro k hk
        exact absurd hk (Nat.not_lt_zero k)
      · have hsplit : rest ++ x = (rest ++ t) ++ x.drop (sha256BlockSize - ctx.bufferLength) := by
          rw [List.append_assoc, ht, List.take_append_drop]
        rw [hsplit, foldChunks_append (m := rest ++ t) (by decide),
          foldChunks_one (n := 64) (m := rest ++ t) (by decide) hall]
  · rw [sha256Fill, if_neg h0]
    obtain rfl : rest = [] := List.length_eq_zero_iff.1 (by omega)
    exact ⟨H, [], h, Nat.zero_le _, .inl rfl, by rw [List.drop_zero]⟩

/-- The second part takes the whole blocks. -/
theorem Carries.blocks (h : Carries ctx H []) {offset : Nat} (hoff : offset ≤ x.length) :
    ∃ H', Carries (sha256Blocks ctx x offset).1 H' [] ∧ (sha256Blocks ctx x offset).2 ≤ x.length ∧
      x.length - (sha256Blocks ctx x offset).2 < sha256BlockSize ∧
      foldChunks 64 Sha2.compress H' (x.drop (sha256Blocks ctx x offset).2) =
      foldChunks 64 Sha2.compress H (x.drop offset) := by
  induction hk : x.length - offset using Nat.strong_induction_on generalizing ctx H offset with
  | _ k ih =>
    subst hk
    rw [sha256Blocks]
    by_cases hb : x.length - offset ≥ sha256BlockSize
    · rw [dif_pos hb]
      have hl : ∀ k < 64, x.getD (offset + k) 0 = ((x.drop offset).take 64).getD k 0 := by
        intro k hk
        rw [List.getD_eq_getElem?_getD, List.getD_eq_getElem?_getD, List.getElem?_take_of_lt hk, List.getElem?_drop]
      have hnext : offset + sha256BlockSize ≤ x.length := by omega
      obtain ⟨H', h1, h2, h3, h4⟩ := ih _ (by simp only [sha256BlockSize] at *; omega) (h.transform hl) hnext rfl
      refine ⟨H', h1, h2, h3, h4.trans ?_⟩
      rw [foldChunks_block (m := x.drop offset) (by decide) (by rw [List.length_drop]; exact hb), List.drop_drop]
    · rw [dif_neg hb]
      exact ⟨H, h, hoff, by omega, rfl⟩

/-- With nothing left of the input there is no whole block. -/
theorem sha256Blocks_end (ctx : Sha256Ctx) (x : List Byte) : sha256Blocks ctx x x.length = (ctx, x.length) := by
  rw [sha256Blocks, dif_neg (by simp)]

/-- The third part keeps the bytes that are left. -/
theorem Carries.tail (h : Carries ctx H rest) {offset : Nat}
    (hn : rest.length + (x.length - offset) < sha256BlockSize) :
    Carries (sha256Rest ctx x offset) H (rest ++ x.drop offset) := by
  induction hk : x.length - offset using Nat.strong_induction_on generalizing ctx rest offset with
  | _ k ih =>
    subst hk
    rw [sha256Rest]
    by_cases hoff : offset < x.length
    · rw [dif_pos hoff, List.drop_eq_getElem_cons hoff, ← List.singleton_append, ← List.append_assoc]
      apply ih _ (by omega) _ (by rw [List.length_append, List.length_singleton]; omega) rfl
      refine ⟨h.words, by rw [List.length_append, ← h.length]; rfl, ?_,
        by rw [List.length_append, List.length_singleton]; omega⟩
      intro k hk
      have hsrc : ∀ j < [x[offset]].length, (fun _ => x[offset] : Nat → Byte) j = [x[offset]].getD j 0 := by
        intro j hj
        obtain rfl : j = 0 := by rw [List.length_singleton] at hj; omega
        rfl
      exact h.bytes (by rw [List.length_append, List.length_singleton]; omega) hk hsrc
    · rw [dif_neg hoff, List.drop_eq_nil_of_le (by omega), List.append_nil]
      exact h

/-- One call of `sha256_update`, on all of `x`. -/
theorem Carries.update (h : Carries ctx H rest) (hx : x.length < 2 ^ 32) :
    Carries (sha256Update ctx x (BitVec.ofNat 32 x.length)) (foldChunks 64 Sha2.compress H (rest ++ x)).1
      (foldChunks 64 Sha2.compress H (rest ++ x)).2 := by
  rw [sha256Update, BitVec.toNat_ofNat, Nat.mod_eq_of_lt hx, List.take_length]
  generalize ctx.bitLength + BitVec.setWidth 64 (BitVec.ofNat 32 x.length) * 8 = bits
  have h0 : Carries { ctx with bitLength := bits } H rest := ⟨h.1, h.2, h.3, h.4⟩
  obtain ⟨H', rest', hfill, hoff, hend, hfold⟩ := h0.fill x
  rw [← hfold]
  dsimp only
  generalize sha256Fill { ctx with bitLength := bits } x = p at *
  obtain ⟨c, offset⟩ := p
  simp only at *
  rcases hend with rfl | rfl
  · obtain ⟨H'', h1, h2, h3, h4⟩ := hfill.blocks hoff
    rw [List.nil_append, ← h4, foldChunks_short (by rw [List.length_drop]; exact h3)]
    exact h1.tail (by rw [List.length_nil]; omega)
  · rw [sha256Blocks_end, List.drop_length, List.append_nil, foldChunks_short hfill.short]
    have hend : rest'.length + (x.length - x.length) < sha256BlockSize := by have := hfill.short; omega
    have := hfill.tail hend
    rwa [List.drop_length, List.append_nil] at this

end Carries

/-! ## Final -/

/-- The bytes taken so far are `m`. -/
def Absorbed (ctx : Sha256Ctx) (m : List Byte) : Prop :=
  Carries ctx (foldChunks 64 Sha2.compress Sha2.H0 m).1 (foldChunks 64 Sha2.compress Sha2.H0 m).2

theorem absorbed_init (stack : Sha256Ctx) : Absorbed (sha256Init stack) [] := by
  rw [Absorbed, foldChunks_short (by decide)]
  exact carries_init stack

theorem Absorbed.update {ctx : Sha256Ctx} {m x : List Byte} (h : Absorbed ctx m) (hx : x.length < 2 ^ 32) :
    Absorbed (sha256Update ctx x (BitVec.ofNat 32 x.length)) (m ++ x) := by
  rw [Absorbed, foldChunks_append (by decide)]
  exact Carries.update h hx

theorem Absorbed.bufferLength {ctx : Sha256Ctx} {m : List Byte} (h : Absorbed ctx m) :
    ctx.bufferLength = m.length % 64 :=
  h.length.trans (foldChunks_rest (by decide)).2

theorem sha256Blocks_bitLength (ctx : Sha256Ctx) (x : List Byte) (offset : Nat) :
    (sha256Blocks ctx x offset).1.bitLength = ctx.bitLength := by
  induction hk : x.length - offset using Nat.strong_induction_on generalizing ctx offset with
  | _ k ih =>
    subst hk
    rw [sha256Blocks]
    by_cases hb : x.length - offset ≥ sha256BlockSize
    · rw [dif_pos hb]
      exact ih _ (by simp only [sha256BlockSize] at *; omega) _ _ rfl
    · rw [dif_neg hb]

theorem sha256Rest_bitLength (ctx : Sha256Ctx) (x : List Byte) (offset : Nat) :
    (sha256Rest ctx x offset).bitLength = ctx.bitLength := by
  induction hk : x.length - offset using Nat.strong_induction_on generalizing ctx offset with
  | _ k ih =>
    subst hk
    rw [sha256Rest]
    by_cases hoff : offset < x.length
    · rw [dif_pos hoff]
      exact ih _ (by omega) _ _ rfl
    · rw [dif_neg hoff]

theorem sha256Fill_bitLength (ctx : Sha256Ctx) (x : List Byte) : (sha256Fill ctx x).1.bitLength = ctx.bitLength := by
  rw [sha256Fill]
  dsimp only
  split_ifs <;> rfl

/-- The message length is counted in bits. -/
theorem sha256Update_bitLength (ctx : Sha256Ctx) {x : List Byte} (hx : x.length < 2 ^ 32) :
    (sha256Update ctx x (BitVec.ofNat 32 x.length)).bitLength = ctx.bitLength + BitVec.ofNat 64 (8 * x.length) := by
  have hbits : BitVec.setWidth 64 (BitVec.ofNat 32 x.length) * 8 = BitVec.ofNat 64 (8 * x.length) := by
    apply BitVec.eq_of_toNat_eq
    rw [BitVec.toNat_mul, BitVec.toNat_setWidth, BitVec.toNat_ofNat, BitVec.toNat_ofNat, Nat.mod_eq_of_lt hx]
    change x.length % 2 ^ 64 * 8 % 2 ^ 64 = 8 * x.length % 2 ^ 64
    omega
  rw [sha256Update, hbits]
  dsimp only
  rw [sha256Rest_bitLength, sha256Blocks_bitLength, sha256Fill_bitLength]

/-- The loop of `sha256_final` comes to an end, with the least number of zeros that leave room for the length. -/
theorem Absorbed.padZeros {ctx : Sha256Ctx} {m : List Byte} (h : Absorbed ctx m) {fuel : Nat}
    (hfuel : (120 - m.length % 64) % 64 < fuel) :
    ∃ ctx', sha256PadZeros fuel ctx = some ctx' ∧
    Absorbed ctx' (m ++ List.replicate ((120 - m.length % 64) % 64) 0) := by
  induction fuel generalizing ctx m with
  | zero => exact absurd hfuel (Nat.not_lt_zero _)
  | succ fuel ih =>
    rw [sha256PadZeros, h.bufferLength]
    by_cases he : m.length % 64 = 56
    · rw [if_pos he, he]
      exact ⟨ctx, rfl, by simpa using h⟩
    · rw [if_neg he]
      have hlen : (120 - (m ++ [0x00]).length % 64) % 64 + 1 = (120 - m.length % 64) % 64 := by
        rw [List.length_append, List.length_singleton]
        omega
      obtain ⟨ctx', h1, h2⟩ := ih (h.update (x := [0x00]) (by decide)) (by omega)
      refine ⟨ctx', h1, ?_⟩
      rw [← hlen, List.replicate_succ]
      rwa [List.append_assoc, List.singleton_append] at h2

theorem storeWord_eq (w : Word32) : storeWord w = Sha2.wordBytes w := by
  simp only [storeWord, Sha2.wordBytes, List.cons.injEq, and_true]
  refine ⟨?_, ?_, ?_, ?_⟩ <;>
  · apply BitVec.eq_of_toNat_eq
    simp

theorem storeWords_eq (state : Fin 8 → Word32) :
    ((List.finRange 8).flatMap fun i => storeWord (state i)) = Sha2.digest (Sha256Vars.load state) := by
  simp only [storeWord_eq, Sha2.digest, Sha256Vars.load, List.append_assoc]
  rfl

/-- The eight bytes that `sha256_final` appends. -/
theorem lengthBytes_eq {n : Nat} (h : n < 2 ^ 61) :
    ((List.range 8).map fun i => ((BitVec.ofNat 64 (8 * n)) >>> (56 - i * 8)).setWidth 8) = Sha2.lengthBytes n := by
  apply List.map_congr_left
  intro i hi
  rw [List.mem_range] at hi
  apply BitVec.eq_of_toNat_eq
  rw [BitVec.toNat_setWidth, BitVec.toNat_ushiftRight, BitVec.toNat_ofNat, BitVec.toNat_ofNat,
    Nat.mod_eq_of_lt (show 8 * n < 2 ^ 64 by omega), Nat.shiftRight_eq_div_pow]
  rw [show 256 = 2 ^ 8 by rfl, ← Nat.pow_mul, show 8 * (7 - i) = 56 - i * 8 by omega]

/-- Padding and digest of a message taken whole. -/
theorem sha256Final_eq {ctx : Sha256Ctx} {m : List Byte} (h : Absorbed ctx m)
    (hbits : ctx.bitLength = BitVec.ofNat 64 (8 * m.length)) (hm : m.length < 2 ^ 61) :
    sha256Final ctx = some (Sha2.sha256 m) := by
  have h80 : Absorbed (sha256Update ctx [0x80] 1) (m ++ [0x80]) := h.update (x := [0x80]) (by decide)
  have hfuel : (120 - (m ++ [0x80]).length % 64) % 64 < 64 := Nat.mod_lt _ (by decide)
  obtain ⟨ctx', hpad, habs⟩ := h80.padZeros hfuel
  have hz : (120 - (m ++ [0x80]).length % 64) % 64 = Sha2.zeroBytes m.length := by
    rw [List.length_append, List.length_singleton, Sha2.zeroBytes]
    omega
  rw [hz] at habs
  generalize hp : m ++ [0x80] ++ List.replicate (Sha2.zeroBytes m.length) 0 = p at habs
  have hfull : ctx'.bufferLength = 56 := by
    rw [habs.bufferLength, ← hp, List.length_append, List.length_append, List.length_replicate,
      List.length_singleton, Sha2.zeroBytes]
    omega
  have hl8 : (Sha2.lengthBytes m.length).length = 8 := by rw [Sha2.lengthBytes, List.length_map, List.length_range]
  have hrest : (foldChunks 64 Sha2.compress Sha2.H0 p).2.length = 56 := habs.length.symm.trans hfull
  have hlen : ((foldChunks 64 Sha2.compress Sha2.H0 p).2 ++ Sha2.lengthBytes m.length).length = 64 := by
    rw [List.length_append]
    omega
  -- the last block
  have hlast : ∀ k < 64, (ctx'.buffer.patch ctx'.bufferLength 8 ((Sha2.lengthBytes m.length).getD · 0)).slice 0 k =
      ((foldChunks 64 Sha2.compress Sha2.H0 p).2 ++ Sha2.lengthBytes m.length).getD k 0 := by
    intro k hk
    have := habs.bytes hlen.le (k := k) (by rw [hlen]; exact hk) fun _ _ => rfl
    rwa [hl8] at this
  have hwhole : Sha2.compress (foldChunks 64 Sha2.compress Sha2.H0 p).1 ((foldChunks 64 Sha2.compress Sha2.H0 p).2 ++
      Sha2.lengthBytes m.length) = (foldChunks 64 Sha2.compress Sha2.H0 (Sha2.pad m)).1 := by
    rw [Sha2.pad, hp, foldChunks_append (by decide), foldChunks_one (n := 64) (by decide) hlen]
  have hstate := (sha256Transform_eq { ctx' with
    buffer := ctx'.buffer.patch ctx'.bufferLength 8 ((Sha2.lengthBytes m.length).getD · 0)
    bufferLength := ctx'.bufferLength + 8 } hlast).trans ((congrArg (Sha2.compress · _) habs.words).trans hwhole)
  rw [sha256Final, hpad, hbits, Option.bind_eq_bind, Option.bind_some, lengthBytes_eq hm, Sha2.sha256]
  rw [foldChunks_blocks (by decide) (Nat.div_mul_cancel (Nat.dvd_of_mod_eq_zero (Sha2.length_pad m))).symm] at hstate
  dsimp only at hstate ⊢
  rw [← hstate, storeWords_eq]
  rfl

/-! ## Streaming -/

/-- `sha256_update` on one chunk after the other. -/
def sha256Updates (ctx : Sha256Ctx) (chunks : List (List Byte)) : Sha256Ctx :=
  chunks.foldl (fun ctx chunk => sha256Update ctx chunk (BitVec.ofNat 32 chunk.length)) ctx

theorem Absorbed.updates {ctx : Sha256Ctx} {m : List Byte} (h : Absorbed ctx m) {chunks : List (List Byte)}
    (hsize : ∀ chunk ∈ chunks, chunk.length < 2 ^ 32) : Absorbed (sha256Updates ctx chunks) (m ++ chunks.flatten) := by
  induction chunks generalizing ctx m with
  | nil => rwa [List.flatten_nil, List.append_nil]
  | cons chunk chunks ih =>
    rw [List.flatten_cons, ← List.append_assoc]
    exact ih (h.update (hsize chunk List.mem_cons_self)) fun c hc => hsize c (List.mem_cons_of_mem _ hc)

theorem sha256Updates_bitLength {ctx : Sha256Ctx} {n : Nat} (h : ctx.bitLength = BitVec.ofNat 64 (8 * n))
    {chunks : List (List Byte)} (hsize : ∀ chunk ∈ chunks, chunk.length < 2 ^ 32) :
    (sha256Updates ctx chunks).bitLength = BitVec.ofNat 64 (8 * (n + chunks.flatten.length)) := by
  induction chunks generalizing ctx n with
  | nil => rwa [List.flatten_nil, List.length_nil, Nat.add_zero]
  | cons chunk chunks ih =>
    rw [List.flatten_cons, List.length_append, ← Nat.add_assoc]
    refine ih ?_ fun c hc => hsize c (List.mem_cons_of_mem _ hc)
    rw [sha256Update_bitLength _ (hsize chunk List.mem_cons_self), h, Nat.mul_add, BitVec.ofNat_add]

/-- A message cut into chunks: the digest is that of the message. -/
theorem sha256Updates_digest (stack : Sha256Ctx) {chunks : List (List Byte)}
    (hsize : ∀ chunk ∈ chunks, chunk.length < 2 ^ 32) (hm : chunks.flatten.length < 2 ^ 61) :
    sha256Final (sha256Updates (sha256Init stack) chunks) = some (Sha2.sha256 chunks.flatten) := by
  have habs := (absorbed_init stack).updates hsize
  have hinit : (sha256Init stack).bitLength = BitVec.ofNat 64 (8 * 0) := rfl
  have hbits := sha256Updates_bitLength hinit hsize
  rw [List.nil_append] at habs
  rw [Nat.zero_add] at hbits
  exact sha256Final_eq habs hbits hm

/-- However a message is cut, init, the updates and final produce its SHA-256 digest; `sha256` on the
whole message, where its length fits the parameter, produces the same. -/
theorem sha256_streaming (stack : Sha256Ctx) (chunks : List (List Byte))
    (hsize : ∀ chunk ∈ chunks, chunk.length < 2 ^ 32) (hm : chunks.flatten.length < 2 ^ 61) :
    sha256Final (sha256Updates (sha256Init stack) chunks) = some (Sha2.sha256 chunks.flatten) ∧
      (chunks.flatten.length < 2 ^ 32 → ∀ stack', sha256 stack' chunks.flatten (BitVec.ofNat 32 chunks.flatten.length) =
        sha256Final (sha256Updates (sha256Init stack) chunks)) := by
  have hcut := sha256Updates_digest stack hsize hm
  refine ⟨hcut, fun hwhole stack' => ?_⟩
  have hchunk : ∀ chunk ∈ [chunks.flatten], chunk.length < 2 ^ 32 := by simpa using hwhole
  have hone := sha256Updates_digest stack' hchunk (by simpa using hm)
  rw [List.flatten_singleton] at hone
  rw [hcut, ← hone]
  rfl

/-- A message in three chunks, one of them empty. -/
theorem sha256_streaming_abc : ∃ stack,
    sha256Final (sha256Updates (sha256Init stack) [[0x61], [], [0x62, 0x63]]) = some (Sha2.sha256 [0x61, 0x62, 0x63]) :=
  ⟨⟨fun _ => 0, 0, fun _ => 0, 0⟩, (sha256_streaming _ [[0x61], [], [0x62, 0x63]] (by simp) (by simp)).1⟩

end SpectreOS
