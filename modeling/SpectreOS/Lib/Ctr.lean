/-
Counter mode with a block cipher, for counter blocks that are a nonce followed by a counter, its most
significant byte first. The keystream is one long string of bytes, the encrypted counter blocks one after
another; no two counters below the limit have the same block.
-/
import SpectreOS.Lib.Bytes

namespace Ctr

open BlockIO

variable {k n : Nat}

/-- A number in `n` bytes, the most significant first. -/
def bigEndian (n c : Nat) : Block n := fun i => BitVec.ofNat 8 (c >>> (8 * (n - 1 - i)))

def counterBlock (nonce : Block k) (n c : Nat) : Block (k + n) := Fin.append nonce (bigEndian n c)

/-- Byte `p` of the encrypted counter blocks. -/
def keystream (n : Nat) [NeZero n] (E : Block (k + n) → Block (k + n)) (nonce : Block k) (p : Nat) : Byte :=
  E (counterBlock nonce n (p / (k + n))) ⟨p % (k + n), Nat.mod_lt p (Nat.add_pos_right k (NeZero.pos n))⟩

theorem bigEndian_apply (c : Nat) (i : Fin n) : bigEndian n c i = BitVec.ofNat 8 (c / 256 ^ (n - 1 - i)) := by
  rw [bigEndian, Nat.shiftRight_eq_div_pow, Nat.pow_mul]

/-- A counter is found again from its bytes. -/
theorem bigEndian_injOn (n : Nat) : Set.InjOn (bigEndian n) {c | c < 256 ^ n} := by
  intro c hc c' hc' h
  have hbyte : ∀ i < n, c / 256 ^ (n - 1 - i) % 256 = c' / 256 ^ (n - 1 - i) % 256 := by
    intro i hi
    have := congrFun h ⟨i, hi⟩
    rw [bigEndian_apply, bigEndian_apply] at this
    simpa using congrArg BitVec.toNat this
  -- from the first byte down, the counters agree so far
  have hpre : ∀ i ≤ n, c / 256 ^ (n - i) = c' / 256 ^ (n - i) := by
    intro i hi
    induction i with
    | zero => rw [Nat.sub_zero, Nat.div_eq_of_lt hc, Nat.div_eq_of_lt hc']
    | succ i ih =>
      have hp := ih (by omega)
      have hb := hbyte i (by omega)
      rw [show n - i = n - 1 - i + 1 by omega, Nat.pow_succ, ← Nat.div_div_eq_div_mul,
        ← Nat.div_div_eq_div_mul] at hp
      rw [show n - (i + 1) = n - 1 - i by omega]
      omega
  simpa using hpre n le_rfl

theorem counterBlock_injOn (nonce : Block k) (n : Nat) : Set.InjOn (counterBlock nonce n) {c | c < 256 ^ n} := by
  intro c hc c' hc' h
  refine bigEndian_injOn n hc hc' (funext fun i => ?_)
  have hi := congrFun h (Fin.natAdd k i)
  rwa [counterBlock, counterBlock, Fin.append_right, Fin.append_right] at hi

end Ctr
