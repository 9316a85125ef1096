/-
fast_mem.c: copying and filling with words where the alignment allows it. Whatever the addresses and
however the ranges overlap, the memory is left as a loop over the bytes would leave it, and the same
addresses are written in the same order.
-/
import SpectreOS.Lib.Ram

namespace SpectreOS

open BlockIO Memory

/-! ## The loops -/

/-- Bytes up to the first aligned destination; the state of the loop is left as it stands there. -/
def copyAlign : Nat → Ram → Address → Address → Ram × Address × Address × Nat
  | 0, r, d, s => (r, d, s, 0)
  | size + 1, r, d, s =>
    if d &&& 3 ≠ 0 then copyAlign size (r.store d (r.cell s)) (d + 1) (s + 1) else (r, d, s, size + 1)

/-- `while (size >= 4)`, with `d32` and `s32`. -/
def copyWords : Nat → Ram → Address → Address → Ram × Address × Address × Nat
  | size + 4, r, d, s => copyWords size (r.storeWord d (r.loadWord s)) (d + 4) (s + 4)
  | size, r, d, s => (r, d, s, size)

/-- `fast_mem_copy`; its last loop, `while (size > 0)`, is the loop over the bytes. -/
def fastMemCopy (r : Ram) (destination source : Address) (size : Nat) : Ram :=
  let srcAlign := source &&& 3
  let dstAlign := destination &&& 3
  let (r, d, s, size) :=
    if srcAlign = dstAlign then
      let (r, d, s, size) := copyAlign size r destination source
      copyWords size r d s
    else (r, destination, source, size)
  r.copy d s size

def setAlign (value : Byte) : Nat → Ram → Address → Ram × Address × Nat
  | 0, r, d => (r, d, 0)
  | size + 1, r, d => if d &&& 3 ≠ 0 then setAlign value size (r.store d value) (d + 1) else (r, d, size + 1)

def setWords (word : BitVec 32) : Nat → Ram → Address → Ram × Address × Nat
  | size + 4, r, d => setWords word size (r.storeWord d word) (d + 4)
  | size, r, d => (r, d, size)

/-- `fast_mem_set`. -/
def fastMemSet (r : Ram) (destination : Address) (value : Byte) (size : Nat) : Ram :=
  let (r, d, size) := setAlign value size r destination
  let word : BitVec 32 :=
    value.setWidth 32 <<< 24 ||| value.setWidth 32 <<< 16 ||| value.setWidth 32 <<< 8 ||| value.setWidth 32
  let (r, d, size) := setWords word size r d
  r.fill d value size

/-! ## Against the loops over the bytes -/

section

variable {r r' : Ram} {d d' s s' : Address} {value : Byte} {size size' : Nat}

theorem alignedAlike_iff : s &&& 3 = d &&& 3 ↔ AlignedAlike d s := by
  have hmod : ∀ a : Address, (a &&& 3).toNat = a.toNat % 4 := fun a => by
    rw [BitVec.toNat_and]
    exact Nat.and_two_pow_sub_one_eq_mod a.toNat 2
  rw [← BitVec.toNat_inj, hmod, hmod]
  rfl

/-- What is left to copy after the loop, copied byte by byte, makes up the whole. -/
theorem copyAlign_spec (h : copyAlign size r d s = (r', d', s', size')) :
    r'.copy d' s' size' = r.copy d s size ∧ (AlignedAlike d s → AlignedAlike d' s') := by
  induction size generalizing r d s with
  | zero =>
    cases h
    exact ⟨rfl, id⟩
  | succ size ih =>
    rw [copyAlign] at h
    split at h
    · obtain ⟨hcopy, halike⟩ := ih h
      exact ⟨hcopy, fun ha => halike (ha.add 1)⟩
    · cases h
      exact ⟨rfl, id⟩

theorem copyWords_spec (ha : AlignedAlike d s) (h : copyWords size r d s = (r', d', s', size')) :
    r'.copy d' s' size' = r.copy d s size := by
  induction size, r, d, s using copyWords.induct with
  | case1 size r d s ih =>
    rw [copyWords] at h
    rw [ih (ha.add 4) h, storeWord_loadWord ha]
    exact (copy_add size 4).symm
  | case2 size r d s hlt =>
    rw [copyWords] at h
    · cases h
      rfl
    · exact hlt

theorem fastMemCopy_eq (r : Ram) (destination source : Address) (size : Nat) :
    fastMemCopy r destination source size = r.copy destination source size := by
  unfold fastMemCopy
  by_cases h : source &&& 3 = destination &&& 3
  · simp only [h, if_true]
    obtain ⟨hcopy, halike⟩ := copyAlign_spec (rfl : copyAlign size r destination source = (_, _, _, _))
    exact (copyWords_spec (halike (alignedAlike_iff.1 h)) rfl).trans hcopy
  · simp only [h, if_false]

theorem setAlign_spec (h : setAlign value size r d = (r', d', size')) :
    r'.fill d' value size' = r.fill d value size := by
  induction size generalizing r d with
  | zero =>
    cases h
    rfl
  | succ size ih =>
    rw [setAlign] at h
    split at h
    · exact ih h
    · cases h
      rfl

theorem setWords_spec (h : setWords (value ++ value ++ value ++ value) size r d = (r', d', size')) :
    r'.fill d' value size' = r.fill d value size := by
  induction size, r, d using setWords.induct (value ++ value ++ value ++ value) with
  | case1 size r d ih =>
    rw [setWords] at h
    rw [ih h, storeWord_fill]
    exact (fill_add size 4).symm
  | case2 size r d hlt =>
    rw [setWords] at h
    · cases h
      rfl
    · exact hlt

theorem fastMemSet_eq (r : Ram) (destination : Address) (value : Byte) (size : Nat) :
    fastMemSet r destination value size = r.fill destination value size := by
  unfold fastMemSet
  simp only [or_shifts]
  exact (setWords_spec rfl).trans (setAlign_spec rfl)

end

/-- `fast_mem_copy` and `fast_mem_set` are the loops over the bytes: they leave the same memory and
write the same addresses, those of the destination. Where it does not wrap nothing else changes. -/
theorem fastMem_byteLoops (r : Ram) (destination source : Address) (value : Byte) (size : Nat) :
    fastMemCopy r destination source size = r.copy destination source size ∧
    fastMemSet r destination value size = r.fill destination value size ∧
    (fastMemCopy r destination source size).written = r.written ++ span destination size ∧
    (fastMemSet r destination value size).written = r.written ++ span destination size ∧
    (destination.toNat + size ≤ 2 ^ 32 → ∀ a, ¬(destination.toNat ≤ a.toNat ∧ a.toNat < destination.toNat + size) →
      a ∉ span destination size ∧ (fastMemCopy r destination source size).cell a = r.cell a ∧
        (fastMemSet r destination value size).cell a = r.cell a) := by
  rw [fastMemCopy_eq, fastMemSet_eq]
  refine ⟨rfl, rfl, copy_written .., fill_written .., fun hwrap a ha => ?_⟩
  have hout : a ∉ span destination size := by rwa [mem_span_iff destination hwrap]
  exact ⟨hout, copy_outside _ _ _ _ hout, fill_outside _ _ _ _ hout⟩

/-- A copy between ranges that overlap leaves the byte after the destination alone. -/
theorem fastMem_byteLoops_overlap : (fastMemCopy ⟨fun a => a.setWidth 8, []⟩ 0x1006 0x1002 9).cell 0x100F = 0x0F :=
  ((fastMem_byteLoops ⟨fun a => a.setWidth 8, []⟩ 0x1006 0x1002 0 9).2.2.2.2 (by decide) 0x100F (by decide)).2.1

end SpectreOS
