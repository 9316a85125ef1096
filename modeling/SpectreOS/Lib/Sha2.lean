/-
SHA-256 as FIPS 180-4 defines it: the functions and constants of section 4, padding and parsing of
section 5, the hash computation of section 6.2. The constants are defined as the standard explains
them, by the fractional parts of roots of primes.
-/
import SpectreOS.Lib.Bytes

namespace Sha2

open BlockIO

abbrev Word := BitVec 32

/-! ## Functions and constants -/

def Ch (x y z : Word) : Word := (x &&& y) ^^^ (~~~x &&& z)

def Maj (x y z : Word) : Word := (x &&& y) ^^^ (x &&& z) ^^^ (y &&& z)

/-- The functions written with capital sigmas. -/
def bigSigma0 (x : Word) : Word := x.rotateRight 2 ^^^ x.rotateRight 13 ^^^ x.rotateRight 22

def bigSigma1 (x : Word) : Word := x.rotateRight 6 ^^^ x.rotateRight 11 ^^^ x.rotateRight 25

/-- The functions written with small sigmas. -/
def sigma0 (x : Word) : Word := x.rotateRight 7 ^^^ x.rotateRight 18 ^^^ (x >>> 3)

def sigma1 (x : Word) : Word := x.rotateRight 17 ^^^ x.rotateRight 19 ^^^ (x >>> 10)

/-- The primes whose roots the constants are taken from. -/
def primes : List Nat :=
  [2, 3, 5, 7, 11, 13, 17, 19, 23, 29, 31, 37, 41, 43, 47, 53, 59, 61, 67, 71, 73, 79, 83, 89, 97, 101, 103, 107, 109,
    113, 127, 131, 137, 139, 149, 151, 157, 163, 167, 173, 179, 181, 191, 193, 197, 199, 211, 223, 227, 229, 233, 239,
    241, 251, 257, 263, 269, 271, 277, 281, 283, 293, 307, 311]

/-- The integer part of a root that has at most `bits` bits, from the highest bit down. -/
def floorRoot (r n : Nat) : Nat → Nat → Nat
  | 0, x => x
  | bits + 1, x => floorRoot r n bits (if (x + 2 ^ bits) ^ r ≤ n then x + 2 ^ bits else x)

/-- The first thirty-two bits of the fractional part of the `r`-th root of `p`. -/
def rootFraction (r p : Nat) : Word := BitVec.ofNat 32 (floorRoot r (p * 2 ^ (32 * r)) 37 0)

/-- The constants of the rounds: cube roots of the first sixty-four primes. -/
def K (t : Nat) : Word := rootFraction 3 (primes.getD t 0)

/-- The eight words of a hash value, or the working variables. -/
@[ext]
structure Words where
  a : Word
  b : Word
  c : Word
  d : Word
  e : Word
  f : Word
  g : Word
  h : Word
  deriving DecidableEq, Repr

/-- The initial hash value: square roots of the first eight primes. -/
def H0 : Words :=
  ⟨rootFraction 2 2, rootFraction 2 3, rootFraction 2 5, rootFraction 2 7, rootFraction 2 11, rootFraction 2 13,
    rootFraction 2 17, rootFraction 2 19⟩

/-! ## Padding and parsing -/

/-- The least number of zero bytes that leaves room for the length only. -/
def zeroBytes (length : Nat) : Nat := (119 - length % 64) % 64

/-- The length in bits as eight bytes. -/
def lengthBytes (length : Nat) : List Byte :=
  (List.range 8).map fun i => BitVec.ofNat 8 (8 * length / 256 ^ (7 - i))

/-- The padded message: a bit 1, zeros up to 448 bits modulo 512, and the length. -/
def pad (message : List Byte) : List Byte :=
  message ++ [0x80] ++ List.replicate (zeroBytes message.length) 0 ++ lengthBytes message.length

/-- Four bytes as a word. -/
def wordOf (a b c d : Byte) : Word := (a ++ b ++ c ++ d : BitVec (8 + 8 + 8 + 8))

/-- Word `j` of a block. -/
def blockWord (block : List Byte) (j : Nat) : Word :=
  wordOf (block.getD (4 * j) 0) (block.getD (4 * j + 1) 0) (block.getD (4 * j + 2) 0) (block.getD (4 * j + 3) 0)

/-! ## Hash computation -/

/-- The message schedule. -/
def W (M : Nat → Word) (t : Nat) : Word :=
  if t < 16 then M t else sigma1 (W M (t - 2)) + W M (t - 7) + sigma0 (W M (t - 15)) + W M (t - 16)

/-- One round. -/
def round (w : Nat → Word) (v : Words) (t : Nat) : Words :=
  let T1 := v.h + bigSigma1 v.e + Ch v.e v.f v.g + K t + w t
  let T2 := bigSigma0 v.a + Maj v.a v.b v.c
  ⟨T1 + T2, v.a, v.b, v.c, v.d + T1, v.e, v.f, v.g⟩

/-- The hash value after one more block. -/
def compress (H : Words) (block : List Byte) : Words :=
  let v := (List.range 64).foldl (round (W (blockWord block))) H
  ⟨H.a + v.a, H.b + v.b, H.c + v.c, H.d + v.d, H.e + v.e, H.f + v.f, H.g + v.g, H.h + v.h⟩

def wordBytes (w : Word) : List Byte := [w.extractLsb' 24 8, w.extractLsb' 16 8, w.extractLsb' 8 8, w.extractLsb' 0 8]

def digest (H : Words) : List Byte :=
  wordBytes H.a ++ wordBytes H.b ++ wordBytes H.c ++ wordBytes H.d ++ wordBytes H.e ++ wordBytes H.f ++ wordBytes H.g ++
    wordBytes H.h

/-- SHA-256 of a message of fewer than 2^64 bits. -/
def sha256 (message : List Byte) : List Byte :=
  let padded := pad message
  digest ((List.range (padded.length / 64)).foldl (fun H i => compress H ((padded.drop (i * 64)).take 64)) H0)

theorem length_pad (message : List Byte) : (pad message).length % 64 = 0 := by
  simp only [pad, zeroBytes, lengthBytes, List.length_append, List.length_map, List.length_range, List.length_replicate,
    List.length_singleton]
  omega

theorem length_sha256 (message : List Byte) : (sha256 message).length = 32 := by simp [sha256, digest, wordBytes]

end Sha2
