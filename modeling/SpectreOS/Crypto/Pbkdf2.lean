/-
Keys from passwords (hmac_sha256.c, pbkdf2.c): the arrays on the stack are given with what they hold
before, and `pbkdf2_hmac_sha256` writes its blocks into the memory behind `out`. They compute HMAC
and PBKDF2 with SHA-256. The loops of `hmac_sha256` that wipe its arrays are left out: nothing reads
these arrays again.
-/
import SpectreOS.Lib.Kdf
import SpectreOS.Crypto.Digest

namespace SpectreOS

open BlockIO

abbrev sha256DigestSize : Nat := 32

abbrev pbkdf2MaxSalt : Nat := 64

/-! ## hmac_sha256 -/

/-- What the context holds before each of the three hash computations of an HMAC. -/
structure HmacStack where
  shortened : Sha256Ctx
  inner : Sha256Ctx
  outer : Sha256Ctx

/-- `key_block`: the key, or its digest, behind which the array stays zero. -/
def hmacKeyBlock (stack : HmacStack) (key : List Byte) (keyLength : Word32) : Option (Block sha256BlockSize) := do
  let keyBlock : Block sha256BlockSize := fun _ => 0
  if keyLength.toNat > sha256BlockSize then
    let shortenedKey ← sha256 stack.shortened key keyLength
    return keyBlock.patch 0 sha256DigestSize (shortenedKey.getD · 0)
  else return keyBlock.patch 0 keyLength.toNat (key.getD · 0)

/-- `hmac_sha256`, on the first bytes of `key` and `message`: what it writes to `out`. -/
def hmacSha256 (stack : HmacStack) (key : List Byte) (keyLength : Word32) (message : List Byte)
    (messageLength : Word32) :
    Option (List Byte) := do
  let keyBlock ← hmacKeyBlock stack key keyLength
  let ipad := List.ofFn fun i => keyBlock i ^^^ 0x36
  let opad := List.ofFn fun i => keyBlock i ^^^ 0x5c
  let ctx := sha256Update (sha256Init stack.inner) ipad (BitVec.ofNat 32 sha256BlockSize)
  let inner ← sha256Final (sha256Update ctx message messageLength)
  let ctx := sha256Update (sha256Init stack.outer) opad (BitVec.ofNat 32 sha256BlockSize)
  sha256Final (sha256Update ctx inner (BitVec.ofNat 32 sha256DigestSize))

/-! ## pbkdf2_hmac_sha256 -/

/-- The loops that copy `n` bytes from one array to another. -/
def copyBytes (src : List Byte) (n : Nat) : List Byte := (List.range n).map (src.getD · 0)

/-- `xor_block`: `dest` afterwards. -/
def xorBlock (dest src : List Byte) (length : Nat) : List Byte :=
  dest.mapIdx fun i b => if i < length then b ^^^ src.getD i 0 else b

/-- Big-endian bytes of `block_index`. -/
def indexBytes (blockIndex : Word32) : List Byte :=
  [(blockIndex >>> 24).setWidth 8, (blockIndex >>> 16).setWidth 8, (blockIndex >>> 8).setWidth 8, blockIndex.setWidth 8]

section Pbkdf2

variable (stack : Nat → Nat → HmacStack) (password : List Byte) (passwordLength : Word32)

/-- The inner loop: `u` and `t` after its rounds. -/
def pbkdf2Rounds (block : Nat) (iterations : Nat) (u t : List Byte) : Option (List Byte × List Byte) :=
  (List.range' 1 (iterations - 1)).foldlM (fun (u, t) iteration => do
    let next ← hmacSha256 (stack block iteration) password passwordLength u (BitVec.ofNat 32 sha256DigestSize)
    let u := copyBytes next sha256DigestSize
    return (u, xorBlock t u sha256DigestSize)) (u, t)

/-- One round of the outer loop: the block `t`. -/
def pbkdf2Block (saltBlock : Block (pbkdf2MaxSalt + 4)) (saltLength : Nat) (iterations : Nat) (blockIndex : Word32) :
    Option (List Byte) := do
  let u ← hmacSha256 (stack blockIndex.toNat 0) password passwordLength (List.ofFn saltBlock)
    (BitVec.ofNat 32 (saltLength + 4))
  let (_, t) ← pbkdf2Rounds stack password passwordLength blockIndex.toNat iterations u (copyBytes u sha256DigestSize)
  return t

/-- The outer loop, from `produced` bytes on. -/
def pbkdf2Blocks (saltLength : Nat) (iterations : Nat) (outLength : Nat) (saltBlock : Block (pbkdf2MaxSalt + 4))
    (produced : Nat) (blockIndex : Word32) (out : Nat → Byte) : Option (Nat → Byte) :=
  if _h : produced < outLength then do
    let saltBlock := saltBlock.patch saltLength 4 ((indexBytes blockIndex).getD · 0)
    let t ← pbkdf2Block stack password passwordLength saltBlock saltLength iterations blockIndex
    let remaining := outLength - produced
    let chunk := if remaining < sha256DigestSize then remaining else sha256DigestSize
    let out := fun k => if produced ≤ k ∧ k < produced + chunk then t.getD (k - produced) 0 else out k
    pbkdf2Blocks saltLength iterations outLength saltBlock (produced + chunk) (blockIndex + 1) out
  else some out
termination_by outLength - produced
decreasing_by
  simp only [sha256DigestSize]
  split <;> omega

/-- `pbkdf2_hmac_sha256`: the memory behind `out` afterwards. -/
def pbkdf2HmacSha256 (saltBlock : Block (pbkdf2MaxSalt + 4)) (salt : List Byte) (saltLength iterations : Word32)
    (out : Nat → Byte) (outLength : Word32) : Option (Nat → Byte) :=
  let saltLength := if saltLength.toNat > pbkdf2MaxSalt then pbkdf2MaxSalt else saltLength.toNat
  let iterations := if iterations.toNat = 0 then 1 else iterations.toNat
  pbkdf2Blocks stack password passwordLength saltLength iterations outLength.toNat
    (saltBlock.patch 0 saltLength (salt.getD · 0)) 0 1 out

end Pbkdf2

/-! ## HMAC -/

/-- HMAC with SHA-256. -/
abbrev hmacOf : List Byte → List Byte → List Byte := Kdf.hmac sha256BlockSize Sha2.sha256

theorem sha256Update_take (ctx : Sha256Ctx) (data : List Byte) (length : Word32) :
    sha256Update ctx data length = sha256Update ctx (data.take length.toNat) length := by
  simp only [sha256Update, List.take_take, min_self]

/-- The digest of two chunks. -/
theorem sha256Final_two (stack : Sha256Ctx) {x y : List Byte} (hx : x.length < 2 ^ 32) (hy : y.length < 2 ^ 32) :
    sha256Final (sha256Update (sha256Update (sha256Init stack) x (BitVec.ofNat 32 x.length)) y
      (BitVec.ofNat 32 y.length)) = some (Sha2.sha256 (x ++ y)) := by
  have hsize : ∀ chunk ∈ [x, y], chunk.length < 2 ^ 32 := by simpa using ⟨hx, hy⟩
  have hflat : [x, y].flatten = x ++ y := by simp
  have h := sha256Updates_digest stack hsize (by rw [hflat, List.length_append]; omega)
  rwa [hflat] at h

theorem sha256_eq (stack : Sha256Ctx) {data : List Byte} (h : data.length < 2 ^ 32) :
    sha256 stack data (BitVec.ofNat 32 data.length) = some (Sha2.sha256 data) := by
  have hsize : ∀ chunk ∈ [data], chunk.length < 2 ^ 32 := by simpa using h
  have h := sha256Updates_digest stack hsize (by rw [List.flatten_singleton]; omega)
  rwa [List.flatten_singleton] at h

theorem ofFn_zero_patch {l : List Byte} (h : l.length ≤ sha256BlockSize) :
    List.ofFn (Block.patch (fun _ => 0 : Block sha256BlockSize) 0 l.length (l.getD · 0)) =
      l ++ List.replicate (sha256BlockSize - l.length) 0x00 := by
  rw [Block.ofFn_patch _ (by omega), List.take_zero, List.nil_append, Nat.zero_add, List.ofFn_const,
    List.drop_replicate]

theorem hmacKeyBlock_eq (stack : HmacStack) {key : List Byte} (h : key.length < 2 ^ 32) :
    ∃ keyBlock, hmacKeyBlock stack key (BitVec.ofNat 32 key.length) = some keyBlock ∧
      List.ofFn keyBlock = Kdf.hmacKey sha256BlockSize Sha2.sha256 key := by
  have hlen : (BitVec.ofNat 32 key.length).toNat = key.length := by rw [BitVec.toNat_ofNat, Nat.mod_eq_of_lt h]
  unfold hmacKeyBlock Kdf.hmacKey
  rw [hlen]
  by_cases hk : key.length > sha256BlockSize
  · have hd := Sha2.length_sha256 key
    simp only [if_pos hk, sha256_eq _ h, Option.bind_eq_bind, Option.bind_some]
    refine ⟨_, rfl, ?_⟩
    have := ofFn_zero_patch (l := Sha2.sha256 key) (by rw [hd]; decide)
    rwa [hd] at this ⊢
  · simp only [if_neg hk]
    exact ⟨_, rfl, ofFn_zero_patch (by omega)⟩

theorem ofFn_xor (keyBlock : Block sha256BlockSize) (b : Byte) :
    (List.ofFn fun i => keyBlock i ^^^ b) = Kdf.xorBytes (List.ofFn keyBlock) (List.replicate sha256BlockSize b) := by
  refine List.ext_getElem (by simp only [Kdf.xorBytes, List.length_ofFn, List.length_zipWith, List.length_replicate,
    min_self]) fun k hk _ => ?_
  simp only [Kdf.xorBytes, List.getElem_ofFn, List.getElem_zipWith, List.getElem_replicate]

/-- `hmac_sha256` computes the HMAC. -/
theorem hmacSha256_eq (stack : HmacStack) {key : List Byte} (message : List Byte) (messageLength : Word32)
    (hkey : key.length < 2 ^ 32) (hm : messageLength.toNat ≤ message.length) :
    hmacSha256 stack key (BitVec.ofNat 32 key.length) message messageLength =
      some (hmacOf key (message.take messageLength.toNat)) := by
  obtain ⟨keyBlock, hblock, hof⟩ := hmacKeyBlock_eq stack hkey
  have hpad : ∀ b : Byte, (List.ofFn fun i => keyBlock i ^^^ b).length = sha256BlockSize := fun b => List.length_ofFn
  have hinner := sha256Final_two stack.inner (x := List.ofFn fun i => keyBlock i ^^^ 0x36)
    (y := message.take messageLength.toNat) (by rw [hpad]; decide)
    (by rw [List.length_take]; have := messageLength.isLt; omega)
  have houter := sha256Final_two stack.outer (x := List.ofFn fun i => keyBlock i ^^^ 0x5c)
    (y := Sha2.sha256 ((List.ofFn fun i => keyBlock i ^^^ 0x36) ++ message.take messageLength.toNat))
    (by rw [hpad]; decide) (by rw [Sha2.length_sha256]; decide)
  rw [hpad, List.length_take, min_eq_left hm, BitVec.ofNat_toNat, BitVec.setWidth_eq, ← sha256Update_take] at hinner
  rw [hpad, Sha2.length_sha256] at houter
  simp only [hmacSha256, hblock, Option.bind_eq_bind, Option.bind_some, hinner, houter]
  rw [ofFn_xor, ofFn_xor, hof]
  rfl

theorem length_hmacOf (key message : List Byte) : (hmacOf key message).length = sha256DigestSize :=
  Sha2.length_sha256 _

/-! ## The loops -/

theorem copyBytes_eq {l : List Byte} {n : Nat} (h : l.length = n) : copyBytes l n = l := by
  subst h
  refine List.ext_getElem (by simp [copyBytes]) fun k _ hk => ?_
  simp only [copyBytes, List.getElem_map, List.getElem_range, List.getD_eq_getElem?_getD, List.getElem?_eq_getElem hk,
    Option.getD_some]

theorem xorBlock_eq {x y : List Byte} {n : Nat} (hx : x.length = n) (hy : y.length = n) :
    xorBlock x y n = Kdf.xorBytes x y := by
  refine List.ext_getElem (by simp [xorBlock, hx, hy]) fun k hk _ => ?_
  have hk : k < n := by simpa [xorBlock, hx] using hk
  simp [xorBlock, Kdf.xorBytes, hk, hy]

/-- The counter behind the salt is the block index. -/
theorem indexBytes_eq {i : Nat} (h : i < 2 ^ 32) : indexBytes (BitVec.ofNat 32 i) = Kdf.int i := by
  have hi : i % 4294967296 = i := Nat.mod_eq_of_lt h
  simp only [indexBytes, Kdf.int, List.range_succ, List.range_zero, List.nil_append, List.cons_append, List.map_cons,
    List.map_nil, List.cons.injEq, and_true]
  refine ⟨?_, ?_, ?_, ?_⟩ <;>
  · apply BitVec.eq_of_toNat_eq
    simp [hi, Nat.shiftRight_eq_div_pow]

section Loops

variable {stack : Nat → Nat → HmacStack} {password salt : List Byte} (hp : password.length < 2 ^ 32)
include hp

variable (stack salt) in
/-- The inner loop after `n` rounds. -/
theorem pbkdf2Rounds_eq (block i n : Nat) :
    pbkdf2Rounds stack password (BitVec.ofNat 32 password.length) block (n + 1) (Kdf.U hmacOf password salt i 0)
        (Kdf.fold hmacOf password salt i 0) =
      some (Kdf.U hmacOf password salt i n, Kdf.fold hmacOf password salt i n) := by
  unfold pbkdf2Rounds
  rw [Nat.add_sub_cancel]
  induction n with
  | zero => rfl
  | succ n ih =>
    have hU : ∀ j, (Kdf.U hmacOf password salt i j).length = sha256DigestSize := Kdf.length_U length_hmacOf i
    have hfold := Kdf.length_fold (P := password) (S := salt) length_hmacOf i n
    have hmac := hmacSha256_eq (stack block (1 + n)) (Kdf.U hmacOf password salt i n)
      (BitVec.ofNat 32 sha256DigestSize) hp (by rw [hU]; decide)
    rw [List.take_of_length_le (by rw [hU]; decide)] at hmac
    rw [List.range'_concat, List.foldlM_append, ih]
    simp only [Nat.one_mul, Option.bind_eq_bind, Option.bind_some, List.foldlM_cons, List.foldlM_nil, hmac]
    rw [copyBytes_eq (length_hmacOf ..), xorBlock_eq hfold (length_hmacOf ..)]
    rfl

/-- A round of the outer loop computes a block of the key. -/
theorem pbkdf2Block_eq {saltBlock : Block (pbkdf2MaxSalt + 4)} {iterations i : Nat} (hs : salt.length ≤ pbkdf2MaxSalt)
    (hblock : (List.ofFn saltBlock).take (salt.length + 4) = salt ++ Kdf.int i) (hi : 0 < iterations) (index : Word32) :
    pbkdf2Block stack password (BitVec.ofNat 32 password.length) saltBlock salt.length iterations index =
      some (Kdf.F hmacOf password salt iterations i) := by
  obtain ⟨n, rfl⟩ := Nat.exists_eq_add_of_lt hi
  have hlen : (BitVec.ofNat 32 (salt.length + 4)).toNat = salt.length + 4 := by
    rw [BitVec.toNat_ofNat, Nat.mod_eq_of_lt (by have : pbkdf2MaxSalt = 64 := rfl; omega)]
  have hmac := hmacSha256_eq (stack index.toNat 0) (List.ofFn saltBlock)
    (BitVec.ofNat 32 (salt.length + 4)) hp (by rw [hlen, List.length_ofFn]; omega)
  rw [hlen, hblock] at hmac
  have hrounds := pbkdf2Rounds_eq stack salt hp index.toNat i n
  simp only [Kdf.fold, Kdf.U] at hrounds
  simp only [pbkdf2Block, hmac, Option.bind_eq_bind, Option.bind_some, copyBytes_eq (length_hmacOf ..), Nat.zero_add,
    hrounds, Kdf.F, Nat.add_sub_cancel]
  rfl

/-- The outer loop writes the rest of the key from block `l + 1` on, and nothing else. -/
theorem pbkdf2Blocks_eq {saltBlock : Block (pbkdf2MaxSalt + 4)} {iterations outLength : Nat} (l : Nat) {produced : Nat}
    (out : Nat → Byte) (hs : salt.length ≤ pbkdf2MaxSalt) (hsalt : (List.ofFn saltBlock).take salt.length = salt)
    (hi : 0 < iterations) (ho : outLength < 2 ^ 32) (hprod : produced = min (l * sha256DigestSize) outLength) :
    ∃ out', pbkdf2Blocks stack password (BitVec.ofNat 32 password.length) salt.length iterations outLength saltBlock
        produced (BitVec.ofNat 32 (l + 1)) out = some out' ∧
      (∀ k, produced ≤ k → k < outLength →
        out' k = (Kdf.pbkdf2 sha256DigestSize hmacOf password salt iterations outLength).getD k 0) ∧
      ∀ k, k < produced ∨ outLength ≤ k → out' k = out k := by
  induction hrem : outLength - produced using Nat.strong_induction_on generalizing saltBlock l produced out with
  | _ rem ih =>
    subst hrem
    rw [pbkdf2Blocks]
    by_cases hlt : produced < outLength
    · have hmax : pbkdf2MaxSalt = 64 := rfl
      have hprod : produced = l * sha256DigestSize := by omega
      have hl : l + 1 < 2 ^ 32 := by
        have := Nat.le_mul_of_pos_right l (show 0 < sha256DigestSize by decide)
        omega
      have hint : (Kdf.int (l + 1)).length = 4 := by simp [Kdf.int]
      have hpatch := @Block.ofFn_patch _ saltBlock salt.length (Kdf.int (l + 1)) (by omega)
      rw [hsalt, hint] at hpatch
      rw [dif_pos hlt, indexBytes_eq hl]
      generalize saltBlock.patch salt.length 4 ((Kdf.int (l + 1)).getD · 0) = saltBlock' at hpatch
      have hsalt' : (List.ofFn saltBlock').take salt.length = salt := by rw [hpatch, List.take_left]
      have hblock : (List.ofFn saltBlock').take (salt.length + 4) = salt ++ Kdf.int (l + 1) := by
        rw [hpatch, ← List.append_assoc]
        exact List.take_left' (by rw [List.length_append, hint])
      generalize hchunk : (if outLength - produced < sha256DigestSize then outLength - produced else sha256DigestSize) =
        chunk
      have hpos : 0 < chunk ∧ chunk ≤ sha256DigestSize ∧
        produced + chunk = min ((l + 1) * sha256DigestSize) outLength := by
        rw [← hchunk, Nat.add_mul, hprod]
        split <;> simp only [sha256DigestSize] at * <;> omega
      have hindex : BitVec.ofNat 32 (l + 1) + 1 = BitVec.ofNat 32 (l + 1 + 1) := (BitVec.ofNat_add ..).symm
      simp only [pbkdf2Block_eq hp hs hblock hi, Option.bind_eq_bind, Option.bind_some, hchunk, hindex]
      obtain ⟨out', hout, hin, hoff⟩ := ih (outLength - (produced + chunk)) (by omega) (l + 1)
        (fun k => if produced ≤ k ∧ k < produced + chunk then
          (Kdf.F hmacOf password salt iterations (l + 1)).getD (k - produced) 0 else out k) hsalt' hpos.2.2 rfl
      refine ⟨out', hout, fun k h1 h2 => ?_, fun k hk => ?_⟩
      · by_cases hk : produced + chunk ≤ k
        · exact hin k hk h2
        · rw [hoff k (Or.inl (by omega)), if_pos (by omega)]
          have hget := Kdf.getD_pbkdf2 (P := password) (S := salt) (c := iterations) length_hmacOf l
            (by omega : k - produced < sha256DigestSize) (by omega : l * sha256DigestSize + (k - produced) < outLength)
          rw [← hget, ← hprod, Nat.add_sub_cancel' h1]
      · rw [hoff k (by omega), if_neg (by omega)]
    · rw [dif_neg hlt]
      exact ⟨out, rfl, fun k h1 h2 => absurd h2 (by omega), fun _ _ => rfl⟩

end Loops

/-- A call writes the key byte by byte. -/
theorem pbkdf2HmacSha256_bytes (stack : Nat → Nat → HmacStack)
    (saltBlock : Block (pbkdf2MaxSalt + 4)) (out : Nat → Byte) {password salt : List Byte} {iterations : Word32}
    (outLength : Word32) (hp : password.length < 2 ^ 32) (hs : salt.length ≤ pbkdf2MaxSalt)
    (hi : 1 ≤ iterations.toNat) :
    ∃ out', pbkdf2HmacSha256 stack password (BitVec.ofNat 32 password.length) saltBlock salt
        (BitVec.ofNat 32 salt.length) iterations out outLength = some out' ∧
      (∀ k < outLength.toNat,
        out' k = (Kdf.pbkdf2 sha256DigestSize hmacOf password salt iterations.toNat outLength.toNat).getD k 0) ∧
      ∀ k, outLength.toNat ≤ k → out' k = out k := by
  have hmax : pbkdf2MaxSalt = 64 := rfl
  have hlen : (BitVec.ofNat 32 salt.length).toNat = salt.length := by
    rw [BitVec.toNat_ofNat, Nat.mod_eq_of_lt (by omega)]
  have hsalt : (List.ofFn (saltBlock.patch 0 salt.length (salt.getD · 0))).take salt.length = salt := by
    rw [Block.ofFn_patch _ (by omega), List.take_zero, List.nil_append, List.take_left]
  unfold pbkdf2HmacSha256
  simp only [hlen, if_neg (show ¬ salt.length > pbkdf2MaxSalt by omega), if_neg (show ¬ iterations.toNat = 0 by omega)]
  obtain ⟨out', hout, hin, hoff⟩ := pbkdf2Blocks_eq hp 0 out hs hsalt hi outLength.isLt (by omega : 0 = _)
  exact ⟨out', hout, fun k hk => hin k (Nat.zero_le k) hk, fun k hk => hoff k (Or.inr hk)⟩

/-- For every password, salt of at most 64 bytes, number of iterations from 1 on and output length,
`pbkdf2_hmac_sha256` ends, writes the PBKDF2 key of RFC 8018 with HMAC-SHA-256, and nothing beyond
it; a shorter output is the beginning of it, whatever the stack holds. -/
theorem pbkdf2HmacSha256_eq (stack : Nat → Nat → HmacStack) (saltBlock : Block (pbkdf2MaxSalt + 4)) (out : Nat → Byte)
    {password salt : List Byte} {iterations : Word32} (outLength : Word32) (hp : password.length < 2 ^ 32)
    (hs : salt.length ≤ 64) (hi : 1 ≤ iterations.toNat) :
    ∃ out', pbkdf2HmacSha256 stack password (BitVec.ofNat 32 password.length) saltBlock salt
        (BitVec.ofNat 32 salt.length) iterations out outLength = some out' ∧
      (List.range outLength.toNat).map out' =
        Kdf.pbkdf2 32 (Kdf.hmac 64 Sha2.sha256) password salt iterations.toNat outLength.toNat ∧
      (∀ k, outLength.toNat ≤ k → out' k = out k) ∧
      ∀ stack' saltBlock' o (n : Word32), n.toNat ≤ outLength.toNat → ∃ o',
        pbkdf2HmacSha256 stack' password (BitVec.ofNat 32 password.length) saltBlock' salt
          (BitVec.ofNat 32 salt.length) iterations o n = some o' ∧ ∀ k < n.toNat, o' k = out' k := by
  obtain ⟨out', hout, hin, hoff⟩ := pbkdf2HmacSha256_bytes stack saltBlock out outLength hp hs hi
  refine ⟨out', hout, ?_, hoff, fun stack' saltBlock' o n hn => ?_⟩
  · have hlen := Kdf.length_pbkdf2 (P := password) (S := salt) (c := iterations.toNat) length_hmacOf (by decide)
      outLength.toNat
    refine List.ext_getElem (by rw [List.length_map, List.length_range, hlen]) fun k hk _ => ?_
    have hk : k < outLength.toNat := by simpa using hk
    rw [List.getElem_map, List.getElem_range, hin k hk, List.getD_eq_getElem?_getD, List.getElem?_eq_getElem (by omega),
      Option.getD_some]
  · obtain ⟨o', ho, hin', -⟩ := pbkdf2HmacSha256_bytes stack' saltBlock' o n hp hs hi
    refine ⟨o', ho, fun k hk => ?_⟩
    rw [hin k (by omega), hin' k hk, Kdf.pbkdf2_take length_hmacOf (by decide) hn, List.getD_eq_getElem?_getD,
      List.getElem?_take_of_lt hk, ← List.getD_eq_getElem?_getD]

/-- A password and a salt of two bytes each, with an output of forty bytes: a whole block and a part of one. -/
theorem pbkdf2HmacSha256_eq_forty : ∃ (stack : HmacStack) (out' : Nat → Byte),
    pbkdf2HmacSha256 (fun _ _ => stack) [0x70, 0x77] 2 (fun _ => 0) [0x73, 0x61] 2 3 (fun _ => 0) 40 = some out' ∧
      (List.range 40).map out' = Kdf.pbkdf2 32 (Kdf.hmac 64 Sha2.sha256) [0x70, 0x77] [0x73, 0x61] 3 40 := by
  have blank : Sha256Ctx := ⟨fun _ => 0, 0, fun _ => 0, 0⟩
  obtain ⟨out', h1, h2, -⟩ := @pbkdf2HmacSha256_eq (fun _ _ => ⟨blank, blank, blank⟩) (fun _ => 0) (fun _ => 0)
    [0x70, 0x77] [0x73, 0x61] 3 40 (by decide) (by decide) (by decide)
  exact ⟨_, out', h1, h2⟩

end SpectreOS
