/-
The bitmap as a set of frames. Setting and clearing bits, one by one or over a range, adds and
removes frames of the set, and the counter is the size of the set after every routine; allocation
takes the least frame outside the set.
-/
import SpectreOS.Mem.Pmm
import Mathlib.Order.Interval.Finset.Nat

namespace SpectreOS

open BlockIO

/-! ## Bits -/

section Bits

variable (p : Pmm) {frame g : Nat}

theorem frameTest_eq (frame : Nat) : frameTest p frame = (p.frameBitmap (frame / 32)).getLsbD (frame % 32) := by
  have hlt : frame % 32 < 32 := Nat.mod_lt _ (by decide)
  have hne : BitVec.twoPow 32 (frame % 32) ≠ 0#32 := by
    intro h
    have := congrArg BitVec.toNat h
    rw [BitVec.toNat_twoPow_of_lt hlt] at this
    simp at this
  rw [frameTest, ← BitVec.twoPow_eq, BitVec.and_twoPow]
  split
  · rename_i h
    rw [h]
    exact bne_iff_ne.2 hne
  · rename_i h
    rw [Bool.eq_false_iff.2 h]
    rfl

theorem frameTest_frameSet : frameTest (frameSet p frame) g = (frameTest p g || decide (g = frame)) := by
  have hlt : frame % 32 < 32 := Nat.mod_lt _ (by decide)
  rw [frameTest_eq, frameTest_eq, frameSet]
  by_cases hw : g / 32 = frame / 32
  · have hbit : frame % 32 = g % 32 ↔ g = frame := by omega
    simp only [hw, Function.update_self, BitVec.getLsbD_or, ← BitVec.twoPow_eq, BitVec.getLsbD_twoPow, hlt,
      decide_true, Bool.true_and, hbit]
  · have hne : g ≠ frame := fun h => hw (h ▸ rfl)
    simp only [Function.update_of_ne hw, hne, decide_false, Bool.or_false]

theorem frameTest_frameClear : frameTest (frameClear p frame) g = (frameTest p g && !decide (g = frame)) := by
  have hlt : frame % 32 < 32 := Nat.mod_lt _ (by decide)
  have hg : g % 32 < 32 := Nat.mod_lt _ (by decide)
  rw [frameTest_eq, frameTest_eq, frameClear]
  by_cases hw : g / 32 = frame / 32
  · have hbit : frame % 32 = g % 32 ↔ g = frame := by omega
    simp only [hw, Function.update_self, BitVec.getLsbD_and, BitVec.getLsbD_not, ← BitVec.twoPow_eq,
      BitVec.getLsbD_twoPow, hlt, hg, decide_true, Bool.true_and, hbit]
  · have hne : g ≠ frame := fun h => hw (h ▸ rfl)
    simp only [Function.update_of_ne hw, hne, decide_false, Bool.not_false, Bool.and_true]

end Bits

/-! ## The set of used frames -/

/-- The frames whose bits are set. -/
def Pmm.taken (p : Pmm) : Finset Nat := (Finset.range pmmMaxFrames).filter fun frame => frameTest p frame = true

/-- The counters say how many frames there are and how many bits are set. -/
structure Accounted (p : Pmm) : Prop where
  total : p.totalFrames = pmmMaxFrames
  used : p.usedFrames = p.taken.card

section Taken

variable {p : Pmm} {frame : Nat}

theorem mem_taken : frame ∈ p.taken ↔ frame < pmmMaxFrames ∧ frameTest p frame = true := by
  simp [Pmm.taken]

theorem taken_subset (p : Pmm) : p.taken ⊆ Finset.range pmmMaxFrames := Finset.filter_subset ..

theorem card_taken_le (p : Pmm) : p.taken.card ≤ pmmMaxFrames :=
  (Finset.card_le_card (taken_subset p)).trans (Finset.card_range _).le

theorem taken_congr {q : Pmm} (h : q.frameBitmap = p.frameBitmap) : q.taken = p.taken := by
  unfold Pmm.taken frameTest
  rw [h]

theorem taken_frameSet (h : frame < pmmMaxFrames) : (frameSet p frame).taken = insert frame p.taken := by
  ext g
  simp only [mem_taken, Finset.mem_insert, frameTest_frameSet, Bool.or_eq_true, decide_eq_true_eq]
  by_cases hg : g = frame
  · simp [hg, h]
  · simp [hg]

theorem taken_frameClear : (frameClear p frame).taken = p.taken.erase frame := by
  ext g
  simp only [mem_taken, Finset.mem_erase, frameTest_frameClear, Bool.and_eq_true, Bool.not_eq_true',
    decide_eq_false_iff_not]
  tauto

/-- Counting a frame in. -/
theorem Accounted.set (h : Accounted p) (hlt : frame < pmmMaxFrames) (hf : frame ∉ p.taken) :
    Accounted { frameSet p frame with usedFrames := wrap32 (p.usedFrames + 1) } := by
  have htaken : Pmm.taken { frameSet p frame with usedFrames := wrap32 (p.usedFrames + 1) } = insert frame p.taken :=
    (taken_congr rfl).trans (taken_frameSet hlt)
  refine ⟨h.total, ?_⟩
  rw [htaken, Finset.card_insert_of_notMem hf]
  have hcard := card_taken_le p
  have hmax : pmmMaxFrames = 32768 := rfl
  simp only [h.used, wrap32]
  omega

/-- A frame is used after it has been reserved, and the others as before. -/
theorem Accounted.reserveFrame (h : Accounted p) (hlt : frame < pmmMaxFrames) :
    Accounted (reserveFrame p frame) ∧ (SpectreOS.reserveFrame p frame).taken = insert frame p.taken := by
  unfold SpectreOS.reserveFrame
  by_cases ht : frameTest p frame = true
  · rw [if_pos ht]
    exact ⟨h, (Finset.insert_eq_of_mem (mem_taken.2 ⟨hlt, ht⟩)).symm⟩
  · rw [if_neg ht]
    refine ⟨h.set hlt fun hm => ht (mem_taken.1 hm).2, ?_⟩
    exact (taken_congr rfl).trans (taken_frameSet hlt)

/-- A frame is free after it has been released, and the others as before. -/
theorem Accounted.releaseFrame (h : Accounted p) (hlt : frame < pmmMaxFrames) :
    Accounted (releaseFrame p frame) ∧ (SpectreOS.releaseFrame p frame).taken = p.taken.erase frame := by
  unfold SpectreOS.releaseFrame
  by_cases ht : frameTest p frame = true
  · have hmem : frame ∈ p.taken := mem_taken.2 ⟨hlt, ht⟩
    have hcard := Finset.card_erase_add_one hmem
    have hpos : (frameClear p frame).usedFrames > 0 := by
      have := h.used
      simp only [frameClear]
      omega
    rw [if_pos ht]
    simp only [if_pos hpos]
    have htaken : Pmm.taken { frameClear p frame with usedFrames := (frameClear p frame).usedFrames - 1 } =
        p.taken.erase frame := (taken_congr rfl).trans taken_frameClear
    refine ⟨⟨h.total, ?_⟩, htaken⟩
    have hused := h.used
    rw [htaken]
    simp only [frameClear]
    omega
  · rw [if_neg ht]
    exact ⟨h, (Finset.erase_eq_of_notMem fun hm => ht (mem_taken.1 hm).2).symm⟩

/-! ## Ranges -/

/-- The frames of a loop, which never leaves the bitmap. -/
theorem mem_framesOf {first last : Nat} : frame ∈ framesOf first last ↔ frame < pmmMaxFrames ∧
    first ≤ frame ∧ frame < last := by
  unfold framesOf
  rw [List.mem_range'_1]
  split <;> omega

theorem Accounted.reserveFrames (h : Accounted p) (frames : List Nat) (hlt : ∀ frame ∈ frames, frame < pmmMaxFrames) :
    Accounted (frames.foldl SpectreOS.reserveFrame p) ∧
      ∀ g, g ∈ (frames.foldl SpectreOS.reserveFrame p).taken ↔ g ∈ p.taken ∨ g ∈ frames := by
  induction frames generalizing p with
  | nil => exact ⟨h, fun g => by simp⟩
  | cons frame frames ih =>
    obtain ⟨hacc, htaken⟩ := h.reserveFrame (hlt frame List.mem_cons_self)
    obtain ⟨hacc', hmem⟩ := ih hacc fun g hg => hlt g (List.mem_cons_of_mem _ hg)
    refine ⟨hacc', fun g => ?_⟩
    simp only [List.foldl_cons, hmem, htaken, Finset.mem_insert, List.mem_cons]
    exact or_assoc.trans or_left_comm

theorem Accounted.releaseFrames (h : Accounted p) (frames : List Nat) (hlt : ∀ frame ∈ frames, frame < pmmMaxFrames) :
    Accounted (frames.foldl SpectreOS.releaseFrame p) ∧
      ∀ g, g ∈ (frames.foldl SpectreOS.releaseFrame p).taken ↔ g ∈ p.taken ∧ g ∉ frames := by
  induction frames generalizing p with
  | nil => exact ⟨h, fun g => by simp⟩
  | cons frame frames ih =>
    obtain ⟨hacc, htaken⟩ := h.releaseFrame (hlt frame List.mem_cons_self)
    obtain ⟨hacc', hmem⟩ := ih hacc fun g hg => hlt g (List.mem_cons_of_mem _ hg)
    refine ⟨hacc', fun g => ?_⟩
    simp only [List.foldl_cons, hmem, htaken, Finset.mem_erase, List.mem_cons, not_or]
    exact and_assoc.trans and_left_comm

/-- A sum that wraps counts as one that passes the end of the memory. -/
theorem rangeEnd_eq {start length : Nat} (hs : start < pmmMaxMemory) (hl : length < 2 ^ 32) :
    rangeEnd start length = min (start + length) pmmMaxMemory := by
  simp only [pmmMaxMemory, rangeEnd, wrap32, min_def] at *
  split_ifs <;> omega

/-- The frame lies in the range of `length` bytes from `start` on, as far as memory is managed. -/
def CoversFrame (start length frame : Nat) : Prop :=
  start ≤ frame * pmmFrameSize ∧ (frame + 1) * pmmFrameSize ≤ min (start + length) pmmMaxMemory

/-- The frame has a byte in common with the addresses from `start` to before `stop`. -/
def MeetsFrame (start stop frame : Nat) : Prop :=
  ∃ a, start ≤ a ∧ a < stop ∧ frame * pmmFrameSize ≤ a ∧ a < (frame + 1) * pmmFrameSize

theorem meetsFrame_iff {start stop : Nat} :
    MeetsFrame start stop frame ↔ start < stop ∧ start < (frame + 1) * pmmFrameSize ∧ frame * pmmFrameSize < stop := by
  refine ⟨fun ⟨a, h1, h2, h3, h4⟩ => by omega, fun ⟨h1, h2, h3⟩ => ?_⟩
  refine ⟨max start (frame * pmmFrameSize), le_max_left .., max_lt h1 h3, le_max_right .., max_lt h2 ?_⟩
  exact Nat.mul_lt_mul_of_pos_right (Nat.lt_succ_self frame) (by decide)

/-- Reserving rounds outwards: every frame that the range meets becomes used. -/
theorem Accounted.reserveRange (h : Accounted p) (start length : Nat) (hl : length < 2 ^ 32) :
    Accounted (reserveRange p start length) ∧ ∀ frame < pmmMaxFrames,
      (frame ∈ (SpectreOS.reserveRange p start length).taken ↔
        frame ∈ p.taken ∨ MeetsFrame start (start + length) frame) := by
  simp only [meetsFrame_iff]
  unfold SpectreOS.reserveRange
  by_cases h0 : length = 0
  · rw [if_pos h0]
    exact ⟨h, fun frame hf => (or_iff_left (by omega)).symm⟩
  · rw [if_neg h0]
    by_cases hs : start ≥ pmmMaxMemory
    · rw [if_pos hs]
      refine ⟨h, fun frame hf => (or_iff_left ?_).symm⟩
      simp only [pmmMaxFrames, pmmMaxMemory, pmmFrameSize] at *
      omega
    · rw [if_neg hs, rangeEnd_eq (by omega) hl]
      obtain ⟨hacc, hmem⟩ := h.reserveFrames (framesOf (start / pmmFrameSize)
        (wrap32 (min (start + length) pmmMaxMemory + pmmFrameSize - 1) / pmmFrameSize))
          fun g hg => (mem_framesOf.1 hg).1
      refine ⟨hacc, fun frame hf => ?_⟩
      rw [hmem, mem_framesOf]
      refine or_congr_right ?_
      simp only [pmmMaxFrames, pmmMaxMemory, pmmFrameSize, wrap32] at *
      omega

/-- Releasing rounds inwards: every frame that the range covers becomes free. -/
theorem Accounted.releaseRange (h : Accounted p) (start length : Nat) (hl : length < 2 ^ 32) :
    Accounted (releaseRange p start length) ∧ ∀ frame < pmmMaxFrames,
      (frame ∈ (SpectreOS.releaseRange p start length).taken ↔
        frame ∈ p.taken ∧ ¬ CoversFrame start length frame) := by
  unfold SpectreOS.releaseRange CoversFrame
  by_cases h0 : length = 0
  · rw [if_pos h0]
    refine ⟨h, fun frame hf => (and_iff_left ?_).symm⟩
    simp only [pmmFrameSize] at *
    omega
  · rw [if_neg h0]
    by_cases hs : start ≥ pmmMaxMemory
    · rw [if_pos hs]
      refine ⟨h, fun frame hf => (and_iff_left ?_).symm⟩
      simp only [pmmMaxFrames, pmmMaxMemory, pmmFrameSize] at *
      omega
    · rw [if_neg hs, rangeEnd_eq (by omega) hl]
      obtain ⟨hacc, hmem⟩ := h.releaseFrames (framesOf (wrap32 (start + pmmFrameSize - 1) / pmmFrameSize)
        (min (start + length) pmmMaxMemory / pmmFrameSize)) fun g hg => (mem_framesOf.1 hg).1
      refine ⟨hacc, fun frame hf => ?_⟩
      rw [hmem, mem_framesOf]
      refine and_congr_right fun _ => not_congr ?_
      simp only [pmmMaxFrames, pmmMaxMemory, pmmFrameSize, wrap32] at *
      omega

end Taken

end SpectreOS
