/-
Runs of the frame allocator. After `pmm_init` the counter is the number of set bits whatever is
allocated and freed, an allocated frame is not handed out again before it is freed, and a reserved
frame is never handed out unless somebody frees it: only the first megabyte is kept from that.
-/
import SpectreOS.Mem.Map

namespace SpectreOS

open BlockIO

/-! ## Calls -/

inductive PmmCall where
  | alloc
  | free (address : BitVec 32)
  deriving DecidableEq

def PmmCall.run (p : Pmm) : PmmCall → Pmm
  | alloc => (pmmAllocFrame p).1
  | free address => pmmFreeFrame p address

def pmmCalls (p : Pmm) (calls : List PmmCall) : Pmm := calls.foldl PmmCall.run p

/-- The call frees a frame. -/
def PmmCall.Frees (call : PmmCall) (frame : Nat) : Prop :=
  ∃ address, call = .free address ∧ address.toNat = frame * pmmFrameSize

/-- The counters are right, and the first megabyte is used. -/
structure Managed (p : Pmm) : Prop extends Accounted p where
  low : ∀ frame < 256, frame ∈ p.taken

section Call

variable {p : Pmm}

theorem notMem_taken {frame : Nat} (hf : frame < pmmMaxFrames) : frame ∉ p.taken ↔ frameTest p frame = false := by
  rw [mem_taken, ← Bool.not_eq_true]
  simp [hf]

/-- An allocation takes the least free frame, if there is one. -/
theorem Accounted.alloc (h : Accounted p) :
    ((pmmAllocFrame p).2 = 0xFFFFFFFF ∧ (pmmAllocFrame p).1 = p ∧ ∀ frame < pmmMaxFrames, frame ∈ p.taken) ∨
    ∃ frame < pmmMaxFrames, frame ∉ p.taken ∧ (∀ g < frame, g ∈ p.taken) ∧
      (pmmAllocFrame p).2 = frame * pmmFrameSize ∧ Accounted (pmmAllocFrame p).1 ∧
        (pmmAllocFrame p).1.taken = insert frame p.taken := by
  unfold pmmAllocFrame
  rw [h.total]
  cases hfind : (List.range pmmMaxFrames).find? fun frame => !frameTest p frame with
  | none =>
    refine Or.inl ⟨rfl, rfl, fun frame hf => mem_taken.2 ⟨hf, ?_⟩⟩
    simpa using List.find?_eq_none.1 hfind frame (List.mem_range.2 hf)
  | some frame =>
    obtain ⟨hclear, hlt, hlow⟩ := List.find?_range_eq_some.1 hfind
    rw [List.mem_range] at hlt
    have hfree : frame ∉ p.taken := (notMem_taken hlt).2 (by simpa using hclear)
    refine Or.inr ⟨frame, hlt, hfree, fun g hg => mem_taken.2 ⟨by omega, by simpa using hlow g hg⟩, ?_, h.set hlt hfree,
      (taken_congr rfl).trans (taken_frameSet hlt)⟩
    simp only [pmmMaxFrames, pmmMaxMemory, pmmFrameSize, wrap32] at *
    omega

/-- A call of `pmm_free_frame` with anything but the address of a frame above the first megabyte is ignored. -/
theorem Accounted.free (h : Accounted p) (address : BitVec 32) :
    (pmmFreeFrame p address = p ∧ ∀ frame < pmmMaxFrames, 256 ≤ frame → ¬ (PmmCall.free address).Frees frame) ∨
    ∃ frame < pmmMaxFrames, 256 ≤ frame ∧ address.toNat = frame * pmmFrameSize ∧
      Accounted (pmmFreeFrame p address) ∧ (pmmFreeFrame p address).taken = p.taken.erase frame := by
  by_cases hex : ∃ frame < pmmMaxFrames, 256 ≤ frame ∧ address.toNat = frame * pmmFrameSize
  · obtain ⟨frame, hlt, hlow, haddr⟩ := hex
    have hframe : address.toNat / pmmFrameSize = frame := by rw [haddr, Nat.mul_div_cancel _ (by decide)]
    have heq : pmmFreeFrame p address = SpectreOS.releaseFrame p frame := by
      simp only [pmmFreeFrame, h.total, hframe]
      simp only [pmmMaxFrames, pmmMaxMemory, pmmFrameSize] at *
      rw [if_neg (by omega), if_neg (by omega), if_neg (by omega), if_neg (by omega)]
    exact Or.inr ⟨frame, hlt, hlow, haddr, heq ▸ h.releaseFrame hlt⟩
  · refine Or.inl ⟨?_, ?_⟩
    · simp only [pmmFreeFrame, h.total]
      split_ifs with h1 h2
      · rfl
      · rfl
      · rfl
      · rfl
      · refine absurd ⟨address.toNat / pmmFrameSize, by omega, ?_, ?_⟩ hex
        · simp only [pmmFrameSize] at *
          omega
        · simp only [pmmFrameSize] at *
          omega
    · rintro frame hlt hlow ⟨a, ha, haddr⟩
      cases ha
      exact hex ⟨frame, hlt, hlow, haddr⟩

theorem Managed.run (h : Managed p) (call : PmmCall) : Managed (call.run p) := by
  cases call with
  | alloc =>
    simp only [PmmCall.run]
    rcases h.alloc with ⟨-, hp, -⟩ | ⟨frame, -, -, -, -, hacc, htaken⟩
    · rwa [hp]
    · exact ⟨hacc, fun g hg => htaken ▸ Finset.mem_insert_of_mem (h.low g hg)⟩
  | free address =>
    simp only [PmmCall.run]
    rcases h.free address with ⟨hp, -⟩ | ⟨frame, -, hlow, -, hacc, htaken⟩
    · rwa [hp]
    · exact ⟨hacc, fun g hg => htaken ▸ Finset.mem_erase_of_ne_of_mem (by omega) (h.low g hg)⟩

/-- Only a call that frees it makes a used frame free. -/
theorem Managed.kept (h : Managed p) {call : PmmCall} {frame : Nat} (hf : frame ∈ p.taken) (hno : ¬ call.Frees frame) :
    frame ∈ (call.run p).taken := by
  cases call with
  | alloc =>
    simp only [PmmCall.run]
    rcases h.alloc with ⟨-, hp, -⟩ | ⟨g, -, -, -, -, -, htaken⟩
    · rw [hp]
      exact hf
    · rw [htaken]
      exact Finset.mem_insert_of_mem hf
  | free address =>
    simp only [PmmCall.run]
    rcases h.free address with ⟨hp, -⟩ | ⟨g, -, -, haddr, -, htaken⟩
    · rw [hp]
      exact hf
    · rw [htaken]
      refine Finset.mem_erase_of_ne_of_mem ?_ hf
      rintro rfl
      exact hno ⟨address, rfl, haddr⟩

theorem Managed.calls (h : Managed p) (calls : List PmmCall) : Managed (pmmCalls p calls) := by
  induction calls generalizing p with
  | nil => exact h
  | cons call calls ih => exact ih (h.run call)

theorem Managed.kept_calls (h : Managed p) {calls : List PmmCall} {frame : Nat} (hf : frame ∈ p.taken)
    (hno : ∀ call ∈ calls, ¬ call.Frees frame) : frame ∈ (pmmCalls p calls).taken := by
  induction calls generalizing p with
  | nil => exact hf
  | cons call calls ih =>
    exact ih (h.run call) (h.kept hf (hno call List.mem_cons_self)) fun c hc => hno c (List.mem_cons_of_mem _ hc)

end Call

/-! ## After pmm_init -/

section Runs

variable {kernelStart kernelEnd : Nat} {mem : Nat → Byte} {multibootInfo fuel : Nat} {p₀ p : Pmm}

theorem pmmInit_managed (h : pmmInit kernelStart kernelEnd mem fuel p₀ multibootInfo = some p) : Managed p := by
  cases hflag : (loadInfo mem multibootInfo).flags.testBit 6 with
  | false =>
    obtain ⟨q, hq, hacc, hall⟩ := pmmInit_noMap kernelStart kernelEnd p₀ hflag fuel
    cases Option.some.inj (hq.symm.trans h)
    refine ⟨hacc, fun frame hf => ?_⟩
    rw [hall, Finset.mem_range]
    simp only [pmmMaxFrames, pmmMaxMemory, pmmFrameSize]
    omega
  | true =>
    have hmap := h
    simp only [pmmInit, hflag, if_true, Option.bind_eq_bind] at hmap
    obtain ⟨r, hr, -⟩ := Option.bind_eq_some_iff.1 hmap
    obtain ⟨entries, hw, hlen⟩ := mapWalk_of_releaseMap hr
    obtain ⟨q, hq, hacc, hmem⟩ := hw.pmmInit kernelStart kernelEnd p₀ hflag hlen
    cases Option.some.inj (hq.symm.trans h)
    refine ⟨hacc, fun frame hf => (hmem frame ?_).2 (Or.inr (Or.inl hf))⟩
    simp only [pmmMaxFrames, pmmMaxMemory, pmmFrameSize]
    omega

/-- After `pmm_init` and any calls, the counters count the bits, an allocation fails only when no bit
is clear and else takes the lowest clear frame, which is not in the first megabyte, and a frame is
not handed out twice without a call that frees it in between. -/
theorem pmm_accounting (h : pmmInit kernelStart kernelEnd mem fuel p₀ multibootInfo = some p) (calls : List PmmCall) :
    (pmmCalls p calls).usedFrames =
        ((Finset.range pmmMaxFrames).filter fun frame => frameTest (pmmCalls p calls) frame = true).card ∧
      pmmGetFreeFrames (pmmCalls p calls) =
        ((Finset.range pmmMaxFrames).filter fun frame => frameTest (pmmCalls p calls) frame = false).card ∧
      ((pmmAllocFrame (pmmCalls p calls)).2 = 0xFFFFFFFF ↔
        ∀ frame < pmmMaxFrames, frameTest (pmmCalls p calls) frame = true) ∧
      (∀ frame < pmmMaxFrames, frameTest (pmmCalls p calls) frame = false →
        (∀ g < frame, frameTest (pmmCalls p calls) g = true) →
        (pmmAllocFrame (pmmCalls p calls)).2 = frame * pmmFrameSize ∧ 1024 * 1024 ≤ frame * pmmFrameSize) ∧
      ∀ between, (pmmAllocFrame (pmmCalls p calls)).2 ≠ 0xFFFFFFFF →
        (pmmAllocFrame (pmmCalls p (calls ++ .alloc :: between))).2 = (pmmAllocFrame (pmmCalls p calls)).2 →
        ∃ address, PmmCall.free address ∈ between ∧ address.toNat = (pmmAllocFrame (pmmCalls p calls)).2 := by
  have hq := (pmmInit_managed h).calls calls
  have happend : ∀ between, pmmCalls p (calls ++ .alloc :: between) =
      pmmCalls (PmmCall.alloc.run (pmmCalls p calls)) between := by
    intro between
    simp [pmmCalls]
  simp only [happend]
  generalize pmmCalls p calls = q at hq
  have hclear : ((Finset.range pmmMaxFrames).filter fun frame => frameTest q frame = false) =
      Finset.range pmmMaxFrames \ q.taken := by
    ext frame
    rw [Finset.mem_filter, Finset.mem_sdiff]
    refine and_congr_right fun hf => (notMem_taken (Finset.mem_range.1 hf)).symm
  refine ⟨hq.used, ?_, ?_, fun frame hf hfree hlow => ?_, fun between hne hsame => ?_⟩
  · have hle := card_taken_le q
    rw [hclear, Finset.card_sdiff_of_subset (taken_subset q), Finset.card_range]
    simp only [pmmGetFreeFrames, hq.total, hq.used, wrap32, pmmMaxFrames, pmmMaxMemory, pmmFrameSize] at *
    omega
  · rcases hq.alloc with ⟨haddr, -, hall⟩ | ⟨frame, hlt, hfree, -, haddr, -, -⟩
    · exact iff_of_true haddr fun frame hf => (mem_taken.1 (hall frame hf)).2
    · refine iff_of_false ?_ fun hall => hfree (mem_taken.2 ⟨hlt, hall frame hlt⟩)
      simp only [pmmMaxFrames, pmmMaxMemory, pmmFrameSize] at *
      omega
  · have hnot := (notMem_taken hf).2 hfree
    have hmega : 256 ≤ frame := by
      by_contra hlt
      exact hnot (hq.low frame (by omega))
    rcases hq.alloc with ⟨-, -, hall⟩ | ⟨g, hlt, hg, hleast, haddr, -, -⟩
    · exact absurd (hall frame hf) hnot
    · have hgf : g = frame := by
        rcases lt_trichotomy g frame with h | h | h
        · exact absurd (mem_taken.2 ⟨hlt, hlow g h⟩) hg
        · exact h
        · exact absurd (hleast frame h) hnot
      rw [haddr, hgf]
      exact ⟨rfl, by simp only [pmmFrameSize]; omega⟩
  · rcases hq.alloc with ⟨haddr, -, -⟩ | ⟨frame, hlt, -, -, haddr, -, htaken⟩
    · exact absurd haddr hne
    · by_contra hnone
      -- the frame stays used until the second allocation, which takes a free one
      have hkept : frame ∈ (pmmCalls (PmmCall.alloc.run q) between).taken := by
        refine (hq.run .alloc).kept_calls (htaken ▸ Finset.mem_insert_self ..) ?_
        rintro call hc ⟨address, rfl, ha⟩
        exact hnone ⟨address, hc, ha.trans haddr.symm⟩
      rw [haddr] at hsame
      rcases ((hq.run .alloc).calls between).alloc with ⟨hfull, -, -⟩ | ⟨g, -, hg, -, hgaddr, -, -⟩
      · rw [hfull] at hsame
        simp only [pmmMaxFrames, pmmMaxMemory, pmmFrameSize] at *
        omega
      · have hgf : g = frame := Nat.eq_of_mul_eq_mul_right (by decide) (hgaddr.symm.trans hsame)
        exact hg (hgf ▸ hkept)

/-- A machine without a memory map, after a free and an allocation. -/
theorem pmm_accounting_noMap : ∃ p, pmmInit 0x100000 0x200000 (fun _ => 0) 0 ⟨fun _ => 0, 0, 0⟩ 0 = some p ∧
    (pmmCalls p [.free 0x180000, .alloc]).usedFrames =
      ((Finset.range pmmMaxFrames).filter fun frame =>
        frameTest (pmmCalls p [.free 0x180000, .alloc]) frame = true).card := by
  obtain ⟨p, hp, -⟩ := @pmmInit_noMap 0x100000 0x200000 (fun _ => 0) 0 ⟨fun _ => 0, 0, 0⟩ (by decide) 0
  exact ⟨p, hp, (pmm_accounting hp [.free 0x180000, .alloc]).1⟩

/-- The call does not free a frame above the first megabyte that is used in `p`. -/
def SparesReserved (p : Pmm) (call : PmmCall) : Prop :=
  ∀ frame < pmmMaxFrames, 256 ≤ frame → frameTest p frame = true → ¬ call.Frees frame

/-- Where no call frees a reserved frame above the first megabyte, no allocation returns a frame that
was reserved when `pmm_init` had finished. -/
theorem pmm_reserved (h : pmmInit kernelStart kernelEnd mem fuel p₀ multibootInfo = some p) {calls : List PmmCall}
    (hspare : ∀ call ∈ calls, SparesReserved p call) {before after : List PmmCall}
    (hrun : calls = before ++ .alloc :: after) {frame : Nat} (hlt : frame < pmmMaxFrames)
    (hreserved : frameTest p frame = true) :
    (pmmAllocFrame (pmmCalls p before)).2 ≠ frame * pmmFrameSize := by
  have hp := pmmInit_managed h
  have hq := hp.calls before
  have hused : frame ∈ (pmmCalls p before).taken := by
    by_cases hlow : frame < 256
    · exact hq.low frame hlow
    · refine hp.kept_calls (mem_taken.2 ⟨hlt, hreserved⟩) fun call hc => ?_
      exact hspare call (hrun ▸ List.mem_append_left _ hc) frame hlt (by omega) hreserved
  rcases hq.alloc with ⟨haddr, -, -⟩ | ⟨g, -, hg, -, haddr, -, -⟩
  · rw [haddr]
    simp only [pmmMaxFrames, pmmMaxMemory, pmmFrameSize] at *
    omega
  · intro hsame
    have hgf : g = frame := Nat.eq_of_mul_eq_mul_right (by decide) (haddr.symm.trans hsame)
    exact hg (hgf ▸ hused)

/-- A free of a low frame gives nothing away. -/
theorem pmm_reserved_low : ∃ p, pmmInit 0x100000 0x200000 (fun _ => 0) 0 ⟨fun _ => 0, 0, 0⟩ 0 = some p ∧
    (pmmAllocFrame (pmmCalls p [.free 0x1000])).2 ≠ 256 * pmmFrameSize := by
  obtain ⟨p, hp, -, hall⟩ := @pmmInit_noMap 0x100000 0x200000 (fun _ => 0) 0 ⟨fun _ => 0, 0, 0⟩ (by decide) 0
  have hused : frameTest p 256 = true := (mem_taken.1 (hall ▸ Finset.mem_range.2 (by decide))).2
  refine ⟨p, hp, pmm_reserved hp (fun call (hc : call ∈ [.free 0x1000, .alloc]) => ?_) rfl (by decide) hused⟩
  rintro frame - hlow - ⟨address, rfl, haddr⟩
  have hone : address.toNat = 0x1000 := by
    rcases List.mem_cons.1 hc with hc | hc
    · cases hc
      decide
    · cases List.mem_singleton.1 hc
  simp only [pmmFrameSize] at haddr
  omega

/-- A stray free of the first frame of the kernel image, and the next allocation returns it. -/
theorem pmm_reserved_stray : ∃ p, pmmInit 0x100000 0x200000 (fun _ => 0) 0 ⟨fun _ => 0, 0, 0⟩ 0 = some p ∧
    frameTest p 256 = true ∧ (pmmAllocFrame (pmmCalls p [.free 0x100000])).2 = 256 * pmmFrameSize := by
  obtain ⟨p, hp, hacc, hall⟩ := @pmmInit_noMap 0x100000 0x200000 (fun _ => 0) 0 ⟨fun _ => 0, 0, 0⟩ (by decide) 0
  have hmem : 256 ∈ p.taken := hall ▸ Finset.mem_range.2 (by decide)
  refine ⟨p, hp, (mem_taken.1 hmem).2, ?_⟩
  rcases hacc.free 0x100000 with ⟨-, hno⟩ | ⟨frame, -, -, haddr, hacc', htaken⟩
  · exact absurd ⟨_, rfl, by decide⟩ (hno 256 (by decide) (by decide))
  · have hframe : frame = 256 :=
      Nat.eq_of_mul_eq_mul_right (by decide : 0 < pmmFrameSize) (haddr.symm.trans (by decide))
    rw [hframe] at htaken
    have hone : ∀ g < pmmMaxFrames, g ∈ (pmmFreeFrame p 0x100000).taken ↔ g ≠ 256 := by
      intro g hg
      rw [htaken, Finset.mem_erase, hall, Finset.mem_range]
      exact and_iff_left hg
    rcases hacc'.alloc with ⟨-, -, hfull⟩ | ⟨g, hlt, hg, -, hgaddr, -, -⟩
    · exact absurd rfl ((hone 256 (by decide)).1 (hfull 256 (by decide)))
    · have hg256 : g = 256 := by
        by_contra hne
        exact hg ((hone g hlt).2 hne)
      exact hg256 ▸ hgaddr

end Runs

end SpectreOS
