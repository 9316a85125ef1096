/-
The Internet checksum (checksum.c) and the byte order helpers (net_byteorder.h). The sum is a
32-bit word that wraps; below 65538 bytes it never does, and then folding it is arithmetic modulo
65535 with the representatives 1..65535.
-/
import SpectreOS.Lib.Bytes

namespace SpectreOS

open BlockIO

abbrev Word16 := BitVec 16

/-! ## Byte order -/

/-- What `net_write16` stores. -/
def net16 (value : Word16) : List Byte := [BitVec.ofNat 8 (value.toNat / 256), BitVec.ofNat 8 value.toNat]

/-- What `net_write32` stores. -/
def net32 (value : BitVec 32) : List Byte :=
  [BitVec.ofNat 8 (value.toNat / 2 ^ 24), BitVec.ofNat 8 (value.toNat / 2 ^ 16),
    BitVec.ofNat 8 (value.toNat / 2 ^ 8), BitVec.ofNat 8 value.toNat]

/-- `net_write16` into a buffer. -/
def netWrite16 (p : List Byte) (off : Nat) (value : Word16) : List Byte :=
  (p.set off (BitVec.ofNat 8 (value.toNat / 256))).set (off + 1) (BitVec.ofNat 8 value.toNat)

/-- `net_read16`; `none` is a read outside the buffer. -/
def netRead16 (p : List Byte) (off : Nat) : Option Word16 := do
  let hi ← p[off]?
  let lo ← p[off + 1]?
  return BitVec.ofNat 16 (256 * hi.toNat + lo.toNat)

/-- `net_read32`. -/
def netRead32 (p : List Byte) (off : Nat) : Option (BitVec 32) := do
  let a ← p[off]?
  let b ← p[off + 1]?
  let c ← p[off + 2]?
  let d ← p[off + 3]?
  return BitVec.ofNat 32 (2 ^ 24 * a.toNat + 2 ^ 16 * b.toNat + 2 ^ 8 * c.toNat + d.toNat)

/-- The first `length` bytes of a buffer, as a loop over them reads them. -/
def readBytes (p : List Byte) (length : Nat) : Option (List Byte) :=
  if length ≤ p.length then some (p.take length) else none

theorem netRead16_net16 {p rest : List Byte} {value : Word16} {off : Nat} (h : p.drop off = net16 value ++ rest) :
    netRead16 p off = some value := by
  have h0 : p[off]? = some (BitVec.ofNat 8 (value.toNat / 256)) := by
    rw [← Nat.add_zero off, ← List.getElem?_drop, h]; rfl
  have h1 : p[off + 1]? = some (BitVec.ofNat 8 value.toNat) := by
    rw [← List.getElem?_drop, h]; rfl
  have hv := value.isLt
  simp only [netRead16, h0, h1, Option.bind_eq_bind, Option.bind_some, pure]
  congr 1
  apply BitVec.eq_of_toNat_eq
  simp only [BitVec.toNat_ofNat]
  omega

theorem netRead32_net32 {p rest : List Byte} {value : BitVec 32} {off : Nat} (h : p.drop off = net32 value ++ rest) :
    netRead32 p off = some value := by
  have h0 : p[off]? = some (BitVec.ofNat 8 (value.toNat / 2 ^ 24)) := by
    rw [← Nat.add_zero off, ← List.getElem?_drop, h]; rfl
  have h1 : p[off + 1]? = some (BitVec.ofNat 8 (value.toNat / 2 ^ 16)) := by
    rw [← List.getElem?_drop, h]; rfl
  have h2 : p[off + 2]? = some (BitVec.ofNat 8 (value.toNat / 2 ^ 8)) := by
    rw [← List.getElem?_drop, h]; rfl
  have h3 : p[off + 3]? = some (BitVec.ofNat 8 value.toNat) := by
    rw [← List.getElem?_drop, h]; rfl
  have hv := value.isLt
  simp only [netRead32, h0, h1, h2, h3, Option.bind_eq_bind, Option.bind_some, pure]
  congr 1
  apply BitVec.eq_of_toNat_eq
  simp only [BitVec.toNat_ofNat]
  omega

/-! ## The checksum -/

/-- `checksum_add`: the bytes as big-endian words, an odd last byte as a high byte. -/
def checksumAdd (sum : Nat) : List Byte → Nat
  | [] => sum
  | [a] => (sum + 256 * a.toNat) % 2 ^ 32
  | a :: b :: rest => checksumAdd ((sum + (256 * a.toNat + b.toNat)) % 2 ^ 32) rest

/-- The loop of `checksum_finish`. -/
def foldSum (sum : Nat) : Nat :=
  if sum / 65536 = 0 then sum else foldSum (sum % 65536 + sum / 65536)
termination_by sum
decreasing_by omega

def checksumFinish (sum : Nat) : Word16 := ~~~ BitVec.ofNat 16 (foldSum sum)

def internetChecksum (data : List Byte) : Word16 := checksumFinish (checksumAdd 0 data)

/-- The sum of the words of a byte string, not wrapped. -/
def wordSum : List Byte → Nat
  | [] => 0
  | [a] => 256 * a.toNat
  | a :: b :: rest => 256 * a.toNat + b.toNat + wordSum rest

theorem checksumAdd_eq (sum : Nat) (l : List Byte) : checksumAdd sum l % 2 ^ 32 = (sum + wordSum l) % 2 ^ 32 := by
  induction l using wordSum.induct generalizing sum with
  | case1 => rfl
  | case2 a => simp [checksumAdd, wordSum]
  | case3 a b rest ih =>
    rw [checksumAdd, ih, wordSum]
    omega

theorem wordSum_le (l : List Byte) : 2 * wordSum l ≤ 65535 * (l.length + 1) := by
  induction l using wordSum.induct with
  | case1 => simp [wordSum]
  | case2 a =>
    have := a.isLt
    simp only [wordSum, List.length_singleton]
    omega
  | case3 a b rest ih =>
    have ha := a.isLt
    have hb := b.isLt
    simp only [wordSum, List.length_cons]
    omega

theorem checksumAdd_lt {sum : Nat} (hs : sum < 2 ^ 32) (l : List Byte) : checksumAdd sum l < 2 ^ 32 := by
  induction l using wordSum.induct generalizing sum with
  | case1 => exact hs
  | case2 a => exact Nat.mod_lt _ (by norm_num)
  | case3 a b rest ih => exact ih (Nat.mod_lt _ (by norm_num))

/-- Without overflow the running sum is the sum of the words. -/
theorem checksumAdd_of_lt {sum : Nat} {l : List Byte} (h : sum + wordSum l < 2 ^ 32) :
    checksumAdd sum l = sum + wordSum l := by
  have h1 := checksumAdd_eq sum l
  have h2 := @checksumAdd_lt sum (by omega) l
  rwa [Nat.mod_eq_of_lt h2, Nat.mod_eq_of_lt h] at h1

theorem wordSum_append {l : List Byte} (hl : l.length % 2 = 0) (m : List Byte) :
    wordSum (l ++ m) = wordSum l + wordSum m := by
  induction l using wordSum.induct with
  | case1 => simp [wordSum]
  | case2 a => simp at hl
  | case3 a b rest ih =>
    simp only [List.length_cons] at hl
    simp only [List.cons_append, wordSum]
    rw [ih (by omega)]
    omega

theorem wordSum_net16 (value : Word16) : wordSum (net16 value) = value.toNat := by
  have := value.isLt
  simp only [net16, wordSum, BitVec.toNat_ofNat]
  omega

/-- Folding keeps the residue modulo 65535 and answers 0 for 0 only. -/
theorem foldSum_eq (n : Nat) : foldSum n = if n = 0 then 0 else (n - 1) % 65535 + 1 := by
  induction n using Nat.strongRecOn with
  | ind n ih =>
    rw [foldSum]
    split
    · rename_i h
      split
      · assumption
      · rw [Nat.mod_eq_of_lt (by omega)]
        omega
    · rename_i h
      rw [ih _ (by omega), if_neg (by omega), if_neg (by omega)]
      have : n - 1 = n % 65536 + n / 65536 - 1 + 65535 * (n / 65536) := by omega
      rw [this, Nat.add_mul_mod_self_left]

/-- Adding the checksum of a sum to it makes the whole verify. -/
theorem checksumFinish_verify (n : Nat) : checksumFinish (n + (checksumFinish n).toNat) = 0 := by
  have hlt : foldSum n ≤ 65535 := by
    rw [foldSum_eq]
    split <;> omega
  have hc : (checksumFinish n).toNat = 65535 - foldSum n := by
    unfold checksumFinish
    rw [BitVec.toNat_not, BitVec.toNat_ofNat, Nat.mod_eq_of_lt (by omega)]
  have hs : foldSum (n + (checksumFinish n).toNat) = 65535 := by
    rw [hc]
    by_cases hn : n = 0
    · subst hn
      rw [foldSum_eq 0, if_pos rfl, foldSum_eq, if_neg (by omega)]
    · have hf := foldSum_eq n
      rw [if_neg hn] at hf
      rw [foldSum_eq, if_neg (by omega)]
      -- the total is a positive multiple of 65535
      have : n + (65535 - foldSum n) - 1 = 65534 + 65535 * ((n - 1) / 65535) := by omega
      rw [this, Nat.add_mul_mod_self_left]
  unfold checksumFinish at hs ⊢
  rw [hs]
  decide

end SpectreOS
