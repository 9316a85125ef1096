/-
SHA-256 in pieces (sha256.c): a context takes a message in chunks of any sizes, with a partial block
carried from one call to the next, and pads it byte by byte at the end.
-/
import SpectreOS.Lib.Sha2
import SpectreOS.Lib.Chunks
import SpectreOS.Lib.Text

namespace SpectreOS

open BlockIO

abbrev Word32 := BitVec 32

abbrev sha256BlockSize : Nat := 64

/-- A `sha256_ctx_t`. -/
structure Sha256Ctx where
  state : Fin 8 → Word32
  bitLength : BitVec 64
  buffer : Block sha256BlockSize
  bufferLength : Nat

/-- The table `k`. -/
def sha256K : List Word32 :=
  [0x428a2f98, 0x71374491, 0xb5c0fbcf, 0xe9b5dba5, 0x3956c25b, 0x59f111f1, 0x923f82a4, 0xab1c5ed5, 0xd807aa98,
    0x12835b01, 0x243185be, 0x550c7dc3, 0x72be5d74, 0x80deb1fe, 0x9bdc06a7, 0xc19bf174, 0xe49b69c1, 0xefbe4786,
    0x0fc19dc6, 0x240ca1cc, 0x2de92c6f, 0x4a7484aa, 0x5cb0a9dc, 0x76f988da, 0x983e5152, 0xa831c66d, 0xb00327c8,
    0xbf597fc7, 0xc6e00bf3, 0xd5a79147, 0x06ca6351, 0x14292967, 0x27b70a85, 0x2e1b2138, 0x4d2c6dfc, 0x53380d13,
    0x650a7354, 0x766a0abb, 0x81c2c92e, 0x92722c85, 0xa2bfe8a1, 0xa81a664b, 0xc24b8b70, 0xc76c51a3, 0xd192e819,
    0xd6990624, 0xf40e3585, 0x106aa070, 0x19a4c116, 0x1e376c08, 0x2748774c, 0x34b0bcb5, 0x391c0cb3, 0x4ed8aa4a,
    0x5b9cca4f, 0x682e6ff3, 0x748f82ee, 0x78a5636f, 0x84c87814, 0x8cc70208, 0x90befffa, 0xa4506ceb, 0xbef9a3f7,
    0xc67178f2]

def rotr (x : Word32) (n : Nat) : Word32 := (x >>> n) ||| (x <<< (32 - n))

/-! ## The transform -/

/-- The first loop: `w[i]` from four bytes of the block, which is given by its bytes. -/
def loadWord (block : Nat → Byte) (i : Nat) : Word32 :=
  ((block (i * 4)).setWidth 32 <<< 24) ||| ((block (i * 4 + 1)).setWidth 32 <<< 16) |||
    ((block (i * 4 + 2)).setWidth 32 <<< 8) ||| (block (i * 4 + 3)).setWidth 32

/-- The second loop: `w[i]` for `i` from 16 on. -/
def extendWord (w : Nat → Word32) (i : Nat) : Nat → Word32 :=
  let s0 := rotr (w (i - 15)) 7 ^^^ rotr (w (i - 15)) 18 ^^^ (w (i - 15) >>> 3)
  let s1 := rotr (w (i - 2)) 17 ^^^ rotr (w (i - 2)) 19 ^^^ (w (i - 2) >>> 10)
  Function.update w i (w (i - 16) + s0 + w (i - 7) + s1)

def messageWords (block : Nat → Byte) : Nat → Word32 :=
  (List.range' 16 48).foldl extendWord fun i => if i < 16 then loadWord block i else 0

/-- The local variables `a` to `h` of `sha256_transform`. -/
abbrev Sha256Vars := Sha2.Words

/-- The third loop. -/
def sha256Round (w : Nat → Word32) (v : Sha256Vars) (i : Nat) : Sha256Vars :=
  let s1 := rotr v.e 6 ^^^ rotr v.e 11 ^^^ rotr v.e 25
  let ch := (v.e &&& v.f) ^^^ (~~~v.e &&& v.g)
  let temp1 := v.h + s1 + ch + sha256K.getD i 0 + w i
  let s0 := rotr v.a 2 ^^^ rotr v.a 13 ^^^ rotr v.a 22
  let maj := (v.a &&& v.b) ^^^ (v.a &&& v.c) ^^^ (v.b &&& v.c)
  let temp2 := s0 + maj
  ⟨temp1 + temp2, v.a, v.b, v.c, v.d + temp1, v.e, v.f, v.g⟩

def Sha256Vars.load (state : Fin 8 → Word32) : Sha256Vars :=
  ⟨state 0, state 1, state 2, state 3, state 4, state 5, state 6, state 7⟩

def sha256Transform (ctx : Sha256Ctx) (block : Nat → Byte) : Sha256Ctx :=
  let v := (List.range 64).foldl (sha256Round (messageWords block)) (.load ctx.state)
  { ctx with state := fun i => ctx.state i + ![v.a, v.b, v.c, v.d, v.e, v.f, v.g, v.h] i }

/-! ## Init, update, final -/

/-- `sha256_init`; the buffer is not set. -/
def sha256Init (ctx : Sha256Ctx) : Sha256Ctx :=
  { ctx with
    state := ![0x6a09e667, 0xbb67ae85, 0x3c6ef372, 0xa54ff53a, 0x510e527f, 0x9b05688c, 0x1f83d9ab, 0x5be0cd19]
    bitLength := 0
    bufferLength := 0 }

/-- The first part of `sha256_update`, which fills up a partial block: the context and the offset. -/
def sha256Fill (ctx : Sha256Ctx) (input : List Byte) : Sha256Ctx × Nat :=
  if ctx.bufferLength > 0 then
    let needed := sha256BlockSize - ctx.bufferLength
    let take := if input.length < needed then input.length else needed
    let ctx := { ctx with
      buffer := ctx.buffer.patch ctx.bufferLength take (input.getD · 0)
      bufferLength := ctx.bufferLength + take }
    if ctx.bufferLength = sha256BlockSize then
      ({ sha256Transform ctx (ctx.buffer.slice 0) with bufferLength := 0 }, take)
    else (ctx, take)
  else (ctx, 0)

/-- The loop over the whole blocks of the input. -/
def sha256Blocks (ctx : Sha256Ctx) (input : List Byte) (offset : Nat) : Sha256Ctx × Nat :=
  if _h : input.length - offset ≥ sha256BlockSize then
    sha256Blocks (sha256Transform ctx fun i => input.getD (offset + i) 0) input (offset + sha256BlockSize)
  else (ctx, offset)
termination_by input.length - offset
decreasing_by simp only [sha256BlockSize] at *; omega

/-- The loop over the bytes that are left. -/
def sha256Rest (ctx : Sha256Ctx) (input : List Byte) (offset : Nat) : Sha256Ctx :=
  if _h : offset < input.length then
    sha256Rest { ctx with
      buffer := ctx.buffer.setByte ctx.bufferLength input[offset]
      bufferLength := ctx.bufferLength + 1 } input (offset + 1)
  else ctx
termination_by input.length - offset

/-- `sha256_update` on the first `length` bytes of `data`. -/
def sha256Update (ctx : Sha256Ctx) (data : List Byte) (length : Word32) : Sha256Ctx :=
  let input := data.take length.toNat
  let ctx := { ctx with bitLength := ctx.bitLength + length.setWidth 64 * 8 }
  let (ctx, offset) := sha256Fill ctx input
  let (ctx, offset) := sha256Blocks ctx input offset
  sha256Rest ctx input offset

/-- The loop of `sha256_final` that pads with zeros; `none` when it has not come to an end in the
given number of rounds. -/
def sha256PadZeros : Nat → Sha256Ctx → Option Sha256Ctx
  | 0, _ => none
  | fuel + 1, ctx => if ctx.bufferLength = 56 then some ctx else sha256PadZeros fuel (sha256Update ctx [0x00] 1)

/-- The bytes of `out` for one word of the state. -/
def storeWord (w : Word32) : List Byte :=
  [(w >>> 24).setWidth 8, (w >>> 16).setWidth 8, (w >>> 8).setWidth 8, w.setWidth 8]

/-- `sha256_final`, with at most 64 rounds of its loop: the digest. -/
def sha256Final (ctx : Sha256Ctx) : Option (List Byte) := do
  let bitLength := ctx.bitLength
  let ctx ← sha256PadZeros 64 (sha256Update ctx [0x80] 1)
  let lengthBytes := (List.range 8).map fun i => (bitLength >>> (56 - i * 8)).setWidth 8
  let ctx := { ctx with
    buffer := ctx.buffer.patch ctx.bufferLength 8 (lengthBytes.getD · 0)
    bufferLength := ctx.bufferLength + 8 }
  let ctx := sha256Transform ctx (ctx.buffer.slice 0)
  return (List.finRange 8).flatMap fun i => storeWord (ctx.state i)

/-- `sha256`, with what the context on the stack holds before. -/
def sha256 (stack : Sha256Ctx) (data : List Byte) (length : Word32) : Option (List Byte) :=
  sha256Final (sha256Update (sha256Init stack) data length)

end SpectreOS
