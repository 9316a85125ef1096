/-
Keys from passwords: HMAC as RFC 2104 defines it, over any hash function, and PBKDF2 as RFC 8018
defines it, over any pseudorandom function.
-/
import SpectreOS.Lib.Bytes

namespace Kdf

open BlockIO

def xorBytes (x y : List Byte) : List Byte := List.zipWith (· ^^^ ·) x y

@[simp] theorem length_xorBytes (x y : List Byte) : (xorBytes x y).length = min x.length y.length := by
  simp [xorBytes]

/-! ## HMAC -/

section Hmac

variable (B : Nat) (H : List Byte → List Byte)

/-- The key as `B` bytes: a longer one is hashed first, and zeros are appended. -/
def hmacKey (K : List Byte) : List Byte :=
  let K := if K.length > B then H K else K
  K ++ List.replicate (B - K.length) 0x00

/-- H(K XOR opad, H(K XOR ipad, text)). -/
def hmac (K text : List Byte) : List Byte :=
  H (xorBytes (hmacKey B H K) (List.replicate B 0x5c) ++
    H (xorBytes (hmacKey B H K) (List.replicate B 0x36) ++ text))

end Hmac

/-! ## PBKDF2 -/

section Pbkdf2

variable (hLen : Nat) (prf : List Byte → List Byte → List Byte) (P S : List Byte) (c : Nat)

/-- INT (i): the integer as four octets, most significant octet first. -/
def int (i : Nat) : List Byte := (List.range 4).map fun k => BitVec.ofNat 8 (i / 256 ^ (3 - k))

/-- U_1 is the first one here. -/
def U (i : Nat) : Nat → List Byte
  | 0 => prf P (S ++ int i)
  | j + 1 => prf P (U i j)

/-- U_1 XOR ... XOR U_c, with `c - 1` iterations after the first. -/
def fold (i : Nat) : Nat → List Byte
  | 0 => U prf P S i 0
  | j + 1 => xorBytes (fold i j) (U prf P S i (j + 1))

/-- F (P, S, c, i). -/
def F (i : Nat) : List Byte := fold prf P S i (c - 1)

/-- T_1 || ... || T_l. -/
def blocks (l : Nat) : List Byte := (List.range l).flatMap fun i => F prf P S c (i + 1)

/-- The first `dkLen` octets of as many blocks as they need. -/
def pbkdf2 (dkLen : Nat) : List Byte := (blocks prf P S c ((dkLen + hLen - 1) / hLen)).take dkLen

variable {hLen prf P S c}

theorem blocks_succ (l : Nat) : blocks prf P S c (l + 1) = blocks prf P S c l ++ F prf P S c (l + 1) := by
  simp [blocks, List.range_succ]

variable (prf P S c) in
theorem blocks_prefix {l m : Nat} (h : l ≤ m) : blocks prf P S c l <+: blocks prf P S c m := by
  obtain ⟨d, rfl⟩ := Nat.exists_eq_add_of_le h
  rw [blocks, blocks, List.range_add, List.flatMap_append]
  exact List.prefix_append ..

section Length

variable (hprf : ∀ K x, (prf K x).length = hLen)
include hprf

theorem length_U (i j : Nat) : (U prf P S i j).length = hLen := by
  cases j with
  | zero => exact hprf ..
  | succ j => exact hprf ..

theorem length_fold (i j : Nat) : (fold prf P S i j).length = hLen := by
  induction j with
  | zero => exact length_U hprf i 0
  | succ j ih => rw [fold, length_xorBytes, ih, length_U hprf, min_self]

theorem length_blocks (l : Nat) : (blocks prf P S c l).length = l * hLen := by
  simp [blocks, F, List.length_flatMap, length_fold hprf]

/-- More blocks than needed make no difference. -/
theorem pbkdf2_eq_take (h0 : 0 < hLen) {dkLen l : Nat} (h : dkLen ≤ l * hLen) :
    pbkdf2 hLen prf P S c dkLen = (blocks prf P S c l).take dkLen := by
  have hle : (dkLen + hLen - 1) / hLen ≤ l := by
    rw [Nat.div_le_iff_le_mul_add_pred h0, Nat.mul_comm]
    omega
  have hge : dkLen ≤ (dkLen + hLen - 1) / hLen * hLen := by
    have := Nat.lt_div_mul_add h0 (a := dkLen + hLen - 1)
    omega
  obtain ⟨rest, hrest⟩ := blocks_prefix prf P S c hle
  rw [pbkdf2, ← hrest, List.take_append_of_le_length (by rwa [length_blocks hprf])]

theorem length_pbkdf2 (h0 : 0 < hLen) (dkLen : Nat) : (pbkdf2 hLen prf P S c dkLen).length = dkLen := by
  have h : dkLen ≤ dkLen * hLen := Nat.le_mul_of_pos_right dkLen h0
  rw [pbkdf2_eq_take hprf h0 h, List.length_take, length_blocks hprf, min_eq_left h]

/-- Octet `j` of block `l + 1`. -/
theorem getD_pbkdf2 {dkLen : Nat} (l : Nat) {j : Nat} (hj : j < hLen) (h : l * hLen + j < dkLen) :
    (pbkdf2 hLen prf P S c dkLen).getD (l * hLen + j) 0 = (F prf P S c (l + 1)).getD j 0 := by
  have h0 : 0 < hLen := by omega
  have hn : dkLen ≤ (l + 1 + dkLen) * hLen := by
    have := Nat.le_mul_of_pos_right dkLen h0
    rw [Nat.add_mul]
    omega
  obtain ⟨rest, hrest⟩ := blocks_prefix prf P S c (Nat.le_add_right (l + 1) dkLen)
  have hlen := length_blocks (P := P) (S := S) (c := c) hprf l
  have hF : (F prf P S c (l + 1)).length = hLen := length_fold hprf _ _
  rw [pbkdf2_eq_take hprf h0 hn, ← hrest, blocks_succ, List.append_assoc]
  simp only [List.getD_eq_getElem?_getD]
  rw [List.getElem?_take_of_lt h, List.getElem?_append_right (by omega), hlen, Nat.add_sub_cancel_left,
    List.getElem?_append_left (by omega)]

/-- A shorter key is the beginning of a longer one. -/
theorem pbkdf2_take (h0 : 0 < hLen) {m n : Nat} (h : m ≤ n) :
    pbkdf2 hLen prf P S c m = (pbkdf2 hLen prf P S c n).take m := by
  have hn : n ≤ n * hLen := Nat.le_mul_of_pos_right n h0
  rw [pbkdf2_eq_take hprf h0 hn, pbkdf2_eq_take hprf h0 (h.trans hn), List.take_take, min_eq_left h]

end Length

end Pbkdf2

end Kdf
