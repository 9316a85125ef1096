/-
The memory of a 32-bit machine: a byte at each address. A word is stored as its four bytes, the lowest
first. Copying and filling go byte by byte; where source and destination are aligned alike a word can
do the work of four bytes, even in ranges that overlap.
-/
import SpectreOS.Lib.Bytes
import SpectreOS.Lib.Memory

namespace BlockIO

abbrev Address := BitVec 32

abbrev Ram := Memory Address Byte

namespace Memory

variable (r : Ram) (d s a : Address) (v : Byte) (n : Nat)

def storeWord (w : BitVec 32) : Ram :=
  (((r.store a (w.extractLsb' 0 8)).store (a + 1) (w.extractLsb' 8 8)).store (a + 2) (w.extractLsb' 16 8)).store
    (a + 3) (w.extractLsb' 24 8)

def loadWord : BitVec 32 := r.cell (a + 3) ++ r.cell (a + 2) ++ r.cell (a + 1) ++ r.cell a

/-- The bytes from `s` on, one after the other, to `d` on. -/
def copy (r : Ram) (d s : Address) : Nat → Ram
  | 0 => r
  | n + 1 => (r.store d (r.cell s)).copy (d + 1) (s + 1) n

def fill (r : Ram) (d : Address) (v : Byte) : Nat → Ram
  | 0 => r
  | n + 1 => (r.store d v).fill (d + 1) v n

/-- The `n` addresses from `d` on, in order. -/
def span : List Address := (List.range n).map fun k => d + BitVec.ofNat 32 k

theorem span_succ : span d (n + 1) = d :: span (d + 1) n := by
  unfold span
  rw [List.range_succ_eq_map, List.map_cons, List.map_map]
  congr 1
  · simp
  · refine List.map_congr_left fun k _ => ?_
    rw [Function.comp_apply, Nat.succ_eq_add_one, Nat.add_comm k 1, BitVec.ofNat_add, BitVec.add_assoc]
    rfl

theorem mem_span {n : Nat} {a : Address} (hn : n ≤ 2 ^ 32) : a ∈ span d n ↔ (a - d).toNat < n := by
  unfold span
  rw [List.mem_map]
  constructor
  · rintro ⟨k, hk, rfl⟩
    rw [List.mem_range] at hk
    rw [BitVec.add_comm, BitVec.add_sub_cancel, BitVec.toNat_ofNat, Nat.mod_eq_of_lt (by omega)]
    exact hk
  · intro h
    refine ⟨(a - d).toNat, List.mem_range.2 h, ?_⟩
    rw [BitVec.ofNat_toNat, BitVec.setWidth_eq, BitVec.add_comm, BitVec.sub_add_cancel]

/-- A span that does not wrap is an interval. -/
theorem mem_span_iff {n : Nat} {a : Address} (hn : d.toNat + n ≤ 2 ^ 32) :
    a ∈ span d n ↔ d.toNat ≤ a.toNat ∧ a.toNat < d.toNat + n := by
  rw [mem_span d (by omega), BitVec.toNat_sub]
  have ha := a.isLt
  have hd := d.isLt
  omega

/-! ## Copying and filling -/

theorem copy_written : (r.copy d s n).written = r.written ++ span d n := by
  induction n generalizing r d s with
  | zero => simp [copy, span]
  | succ n ih => rw [copy, ih, span_succ, store_written, List.append_assoc, List.singleton_append]

theorem fill_written : (r.fill d v n).written = r.written ++ span d n := by
  induction n generalizing r d with
  | zero => simp [fill, span]
  | succ n ih => rw [fill, ih, span_succ, store_written, List.append_assoc, List.singleton_append]

theorem copy_outside {n : Nat} (h : a ∉ span d n) : (r.copy d s n).cell a = r.cell a := by
  induction n generalizing r d s with
  | zero => rfl
  | succ n ih =>
    rw [span_succ, List.mem_cons, not_or] at h
    rw [copy, ih _ _ _ h.2, store_cell_of_ne _ _ h.1]

theorem fill_outside {n : Nat} (h : a ∉ span d n) : (r.fill d v n).cell a = r.cell a := by
  induction n generalizing r d with
  | zero => rfl
  | succ n ih =>
    rw [span_succ, List.mem_cons, not_or] at h
    rw [fill, ih _ _ h.2, store_cell_of_ne _ _ h.1]

/-! ## Words -/

/-- Addresses aligned alike. -/
def AlignedAlike : Prop := s.toNat % 4 = d.toNat % 4

variable {r d s a v}

theorem AlignedAlike.add (h : AlignedAlike d s) (k : Address) : AlignedAlike (d + k) (s + k) := by
  unfold AlignedAlike at *
  rw [BitVec.toNat_add, BitVec.toNat_add]
  omega

/-- Two of four bytes at addresses aligned alike do not meet unless they stand at the same place. -/
theorem AlignedAlike.ne (h : AlignedAlike d s) {j k : Address} (hj : j.toNat < 4) (hk : k.toNat < 4) (hjk : j ≠ k) :
    s + j ≠ d + k := by
  intro he
  have hval := congrArg BitVec.toNat he
  have hne : j.toNat ≠ k.toNat := fun e => hjk (BitVec.eq_of_toNat_eq e)
  unfold AlignedAlike at h
  rw [BitVec.toNat_add, BitVec.toNat_add] at hval
  omega

/-- Between ranges aligned alike, a word moves as its four bytes would. -/
theorem storeWord_loadWord (h : AlignedAlike d s) : r.storeWord d (r.loadWord s) = r.copy d s 4 := by
  obtain ⟨e0, e1, e2, e3⟩ := bytes_of_append (r.cell s) (r.cell (s + 1)) (r.cell (s + 2)) (r.cell (s + 3))
  have n1 : s + 1 ≠ d + 0 := h.ne (by decide) (by decide) (by decide)
  have n2 : s + 2 ≠ d + 0 := h.ne (by decide) (by decide) (by decide)
  have n3 : s + 3 ≠ d + 0 := h.ne (by decide) (by decide) (by decide)
  have n21 : s + 2 ≠ d + 1 := h.ne (by decide) (by decide) (by decide)
  have n31 : s + 3 ≠ d + 1 := h.ne (by decide) (by decide) (by decide)
  have n32 : s + 3 ≠ d + 2 := h.ne (by decide) (by decide) (by decide)
  rw [show d + 0 = d from BitVec.add_zero d] at n1 n2 n3
  have step : ∀ t : Address, t + 1 + 1 = t + 2 ∧ t + 2 + 1 = t + 3 := fun t =>
    ⟨BitVec.add_assoc t 1 1, BitVec.add_assoc t 2 1⟩
  simp only [storeWord, loadWord, e0, e1, e2, e3, copy, (step _).1, (step _).2, store_cell_of_ne, ne_eq, n1, n2, n3,
    n21, n31, n32, not_false_eq_true]

/-- A word whose bytes are all the same fills four of them. -/
theorem storeWord_fill : r.storeWord d (v ++ v ++ v ++ v) = r.fill d v 4 := by
  obtain ⟨e0, e1, e2, e3⟩ := bytes_of_append v v v v
  have step : ∀ t : Address, t + 1 + 1 = t + 2 ∧ t + 2 + 1 = t + 3 := fun t =>
    ⟨BitVec.add_assoc t 1 1, BitVec.add_assoc t 2 1⟩
  simp only [storeWord, e0, e1, e2, e3, fill, (step _).1, (step _).2]

/-- `n` bytes and the `m` after them. -/
theorem copy_add (m n : Nat) : r.copy d s (m + n) =
    (r.copy d s n).copy (d + BitVec.ofNat 32 n) (s + BitVec.ofNat 32 n) m := by
  induction n generalizing r d s with
  | zero => simp [copy]
  | succ n ih =>
    rw [← Nat.add_assoc, copy, copy, ih, Nat.add_comm n 1, BitVec.ofNat_add, BitVec.add_assoc, BitVec.add_assoc]
    rfl

theorem fill_add (m n : Nat) : r.fill d v (m + n) = (r.fill d v n).fill (d + BitVec.ofNat 32 n) v m := by
  induction n generalizing r d with
  | zero => simp [fill]
  | succ n ih =>
    rw [← Nat.add_assoc, fill, fill, ih, Nat.add_comm n 1, BitVec.ofNat_add, BitVec.add_assoc]
    rfl

/-! ## Buffers and strings -/

/-- Bytes one after the other from `d` on. -/
def storeBytes (r : Ram) (d : Address) : List Byte → Ram
  | [] => r
  | v :: vs => (r.store d v).storeBytes (d + 1) vs

/-- The `n` bytes from `s` on. -/
def loadBytes (r : Ram) (s : Address) (n : Nat) : List Byte := (span s n).map r.cell

theorem storeBytes_outside {vs : List Byte} (h : a ∉ span d vs.length) : (r.storeBytes d vs).cell a = r.cell a := by
  induction vs generalizing r d with
  | nil => rfl
  | cons v vs ih =>
    rw [List.length_cons, span_succ, List.mem_cons, not_or] at h
    rw [storeBytes, ih h.2, store_cell_of_ne _ _ h.1]

end Memory

end BlockIO
