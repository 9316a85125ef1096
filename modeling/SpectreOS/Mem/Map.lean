/-
What `pmm_init` leaves free. The loop over the memory map goes from entry to entry by the size each
of them gives, in 32-bit sums; where it comes to an end, a frame is free exactly when an available
entry covers it and neither the first megabyte nor the kernel image meets it.
-/
import SpectreOS.Mem.Accounting

namespace SpectreOS

open BlockIO

/-! ## The walk over the map -/

/-- The loop over the map, started at `current`, visits these entries and ends. -/
inductive MapWalk (mem : Nat → Byte) (stop : Nat) : Nat → List MmapEntry → Prop where
  | done {current : Nat} : stop ≤ current → MapWalk mem stop current []
  | next {current : Nat} {entries : List MmapEntry} : current < stop →
      MapWalk mem stop (wrap32 (current + ((loadEntry mem current).size + 4))) entries →
      MapWalk mem stop current (loadEntry mem current :: entries)

/-- The entry describes available memory below 4 GiB, and the frame lies in it. -/
def MmapEntry.Frees (entry : MmapEntry) (frame : Nat) : Prop :=
  entry.type = 1 ∧ entry.addrHigh = 0 ∧ CoversFrame entry.addrLow entry.lengthLow frame

theorem load32_lt (mem : Nat → Byte) (address : Nat) : load32 mem address < 2 ^ 32 := wordAt_lt ..

section Walk

variable {mem : Nat → Byte} {stop : Nat} {p : Pmm}

theorem Accounted.releaseEntry (h : Accounted p) {entry : MmapEntry} (hl : entry.lengthLow < 2 ^ 32) :
    Accounted (releaseEntry p entry) ∧ ∀ frame < pmmMaxFrames,
      (frame ∈ (SpectreOS.releaseEntry p entry).taken ↔ frame ∈ p.taken ∧ ¬ entry.Frees frame) := by
  unfold SpectreOS.releaseEntry MmapEntry.Frees
  by_cases ht : entry.type = 1
  · by_cases ha : entry.addrHigh = 0
    · simp only [ht, ha, if_true, true_and]
      exact h.releaseRange _ _ hl
    · simp only [ht, ha, if_true, if_false, false_and, and_false, not_false_eq_true, and_true]
      exact ⟨h, fun _ _ => trivial⟩
  · simp only [ht, if_false, false_and, not_false_eq_true, and_true]
    exact ⟨h, fun _ _ => trivial⟩

/-- The loop ends where the walk does, and releases what its entries cover. -/
theorem MapWalk.releaseMap {current : Nat} {entries : List MmapEntry} (hw : MapWalk mem stop current entries)
    (h : Accounted p) {fuel : Nat} (hf : entries.length < fuel) :
    ∃ q, releaseMap mem stop fuel current p = some q ∧ Accounted q ∧ ∀ frame < pmmMaxFrames,
      (frame ∈ q.taken ↔ frame ∈ p.taken ∧ ¬ ∃ entry ∈ entries, entry.Frees frame) := by
  induction hw generalizing p fuel with
  | done hstop =>
    obtain ⟨fuel, rfl⟩ := Nat.exists_eq_add_of_lt hf
    exact ⟨p, if_neg (by omega), h, fun frame _ => by simp⟩
  | @next current entries hlt _ ih =>
    obtain ⟨fuel, rfl⟩ : ∃ n, fuel = n + 1 := ⟨fuel - 1, by omega⟩
    have hl : (loadEntry mem current).lengthLow < 2 ^ 32 := load32_lt ..
    obtain ⟨hacc, hmem⟩ := h.releaseEntry hl
    obtain ⟨q, hq, hqacc, hqmem⟩ := ih hacc (by simpa using hf : entries.length < fuel)
    refine ⟨q, (if_pos hlt).trans hq, hqacc, fun frame hframe => ?_⟩
    simp only [hqmem frame hframe, hmem frame hframe, List.exists_mem_cons_iff, not_or, and_assoc]

/-- A loop that has come to an end has walked over the map. -/
theorem mapWalk_of_releaseMap {current fuel : Nat} {q : Pmm} (h : releaseMap mem stop fuel current p = some q) :
    ∃ entries, MapWalk mem stop current entries ∧ entries.length < fuel := by
  induction fuel generalizing current p with
  | zero => cases h
  | succ fuel ih =>
    rw [SpectreOS.releaseMap] at h
    split at h
    · rename_i hlt
      obtain ⟨entries, hw, hlen⟩ := ih h
      exact ⟨_, .next hlt hw, by simpa using hlen⟩
    · rename_i hge
      exact ⟨[], .done (by omega), by simp⟩

end Walk

/-! ## pmm_init -/

section Init

variable (kernelStart kernelEnd : Nat) {mem : Nat → Byte} {multibootInfo : Nat} (p₀ : Pmm)

/-- Every frame starts out used. -/
theorem accounted_start (bitmap : Nat → BitVec 32) :
    let p : Pmm := ⟨fun i => if i < pmmMaxFrames / 32 then 0xFFFFFFFF else bitmap i, pmmMaxFrames, pmmMaxFrames⟩
    Accounted p ∧ p.taken = Finset.range pmmMaxFrames := by
  intro p
  have htaken : p.taken = Finset.range pmmMaxFrames := by
    refine Finset.filter_true_of_mem fun frame hf => ?_
    rw [Finset.mem_range] at hf
    have hword : frame / 32 < pmmMaxFrames / 32 := by
      simp only [pmmMaxFrames, pmmMaxMemory, pmmFrameSize] at *
      omega
    have hbit : frame % 32 < 32 := Nat.mod_lt _ (by decide)
    have hones : (0xFFFFFFFF : BitVec 32) = BitVec.allOnes 32 := by decide
    rw [frameTest_eq]
    simp only [p, if_pos hword]
    rw [hones, BitVec.getLsbD_allOnes]
    exact decide_eq_true hbit
  exact ⟨⟨rfl, by rw [htaken, Finset.card_range]⟩, htaken⟩

/-- Where the walk over the map ends, `pmm_init` does. -/
theorem MapWalk.pmmInit {entries : List MmapEntry} (hflag : (loadInfo mem multibootInfo).flags.testBit 6 = true)
    (hw : MapWalk mem (wrap32 ((loadInfo mem multibootInfo).mmapAddr + (loadInfo mem multibootInfo).mmapLength))
      (loadInfo mem multibootInfo).mmapAddr entries) {fuel : Nat} (hf : entries.length < fuel) :
    ∃ p, pmmInit kernelStart kernelEnd mem fuel p₀ multibootInfo = some p ∧ Accounted p ∧
      ∀ frame < pmmMaxFrames, (frame ∈ p.taken ↔ (¬ ∃ entry ∈ entries, entry.Frees frame) ∨ frame < 256 ∨
        MeetsFrame kernelStart (kernelStart + wrap32 (kernelEnd + (2 ^ 32 - kernelStart))) frame) := by
  obtain ⟨hstart, hall⟩ := accounted_start p₀.frameBitmap
  obtain ⟨q, hq, hacc, hmem⟩ := hw.releaseMap hstart hf
  obtain ⟨hacc', hmem'⟩ := hacc.reserveRange 0 (1024 * 1024) (by decide)
  obtain ⟨hacc'', hmem''⟩ := hacc'.reserveRange kernelStart
    (wrap32 (kernelEnd + (2 ^ 32 - kernelStart))) (Nat.mod_lt _ (by decide))
  refine ⟨_, by simp only [SpectreOS.pmmInit, hflag, if_true, hq]; rfl, hacc'', fun frame hframe => ?_⟩
  have hlow : MeetsFrame 0 (0 + 1024 * 1024) frame ↔ frame < 256 := by
    rw [meetsFrame_iff]
    simp only [pmmFrameSize]
    omega
  simp only [hmem'' frame hframe, hmem' frame hframe, hmem frame hframe, hall, Finset.mem_range, hframe, true_and, hlow,
    or_assoc]

/-- Without a memory map everything stays used. -/
theorem pmmInit_noMap (hflag : (loadInfo mem multibootInfo).flags.testBit 6 = false) (fuel : Nat) :
    ∃ p, pmmInit kernelStart kernelEnd mem fuel p₀ multibootInfo = some p ∧ Accounted p ∧
      p.taken = Finset.range pmmMaxFrames := by
  obtain ⟨hstart, hall⟩ := accounted_start p₀.frameBitmap
  exact ⟨_, by simp only [pmmInit, hflag]; rfl, hstart, hall⟩

/-- `pmm_init` on any map whose walk ends frees exactly the frames of the available entries, without
those that the first megabyte and the kernel image take; without a map it frees none. Entries and
frames are compared as natural numbers, whatever their 32-bit sums do. -/
theorem pmmInit_frees {kernelStart kernelEnd : Nat} (hk : kernelStart ≤ kernelEnd) (he : kernelEnd < 2 ^ 32)
    (mem : Nat → Byte) (multibootInfo : Nat) (p₀ : Pmm) :
    ((loadInfo mem multibootInfo).flags.testBit 6 = true → ∀ entries,
      MapWalk mem (wrap32 ((loadInfo mem multibootInfo).mmapAddr + (loadInfo mem multibootInfo).mmapLength))
        (loadInfo mem multibootInfo).mmapAddr entries → ∀ fuel, entries.length < fuel →
      ∃ p, pmmInit kernelStart kernelEnd mem fuel p₀ multibootInfo = some p ∧ ∀ frame < pmmMaxFrames,
        (frameTest p frame = false ↔
          (∃ entry ∈ entries, entry.type = 1 ∧ entry.addrHigh = 0 ∧ CoversFrame entry.addrLow entry.lengthLow frame) ∧
            256 ≤ frame ∧ ¬ MeetsFrame kernelStart kernelEnd frame)) ∧
    ((loadInfo mem multibootInfo).flags.testBit 6 = false → ∀ fuel,
      ∃ p, pmmInit kernelStart kernelEnd mem fuel p₀ multibootInfo = some p ∧
        ∀ frame < pmmMaxFrames, frameTest p frame = true) := by
  refine ⟨fun hflag entries hw fuel hf => ?_, fun hflag fuel => ?_⟩
  · obtain ⟨p, hp, -, hmem⟩ := hw.pmmInit kernelStart kernelEnd p₀ hflag hf
    have hend : kernelStart + wrap32 (kernelEnd + (2 ^ 32 - kernelStart)) = kernelEnd := by
      simp only [wrap32]
      omega
    refine ⟨p, hp, fun frame hframe => ?_⟩
    have htest : frameTest p frame = false ↔ frame ∉ p.taken := by
      rw [mem_taken, ← Bool.not_eq_true]
      simp [hframe]
    rw [htest, hmem frame hframe, hend, not_or, not_or, not_not, Nat.not_lt]
    rfl
  · obtain ⟨p, hp, -, hall⟩ := pmmInit_noMap kernelStart kernelEnd p₀ hflag fuel
    refine ⟨p, hp, fun frame hframe => ?_⟩
    have hmem : frame ∈ p.taken := by rwa [hall, Finset.mem_range]
    exact (mem_taken.1 hmem).2

end Init

/-- The words of a memory with Multiboot information at 0 and a map of one entry, 8 MiB from 1 MiB on. -/
def oneEntryWords : Nat → Nat
  | 0 => 64
  | 11 => 24
  | 12 => 52
  | 13 => 20
  | 14 => 0x100000
  | 16 => 0x800000
  | 18 => 1
  | _ => 0

def oneEntryMemory : Nat → Byte := wordsImage oneEntryWords

/-- With the kernel in the first megabyte of the entry, the frame at 2 MiB is free. -/
theorem pmmInit_frees_one : ∃ p, pmmInit 0x100000 0x200000 oneEntryMemory 2 ⟨fun _ => 0, 0, 0⟩ 0 = some p ∧
    frameTest p 512 = false := by
  have hentry : loadEntry oneEntryMemory 52 = ⟨20, 0x100000, 0, 0x800000, 0, 1⟩ := by decide
  have hwalk : MapWalk oneEntryMemory 76 52 [loadEntry oneEntryMemory 52] :=
    .next (by decide) (by rw [hentry]; exact .done (by decide))
  obtain ⟨p, hp, hfree⟩ := (pmmInit_frees (by decide : 0x100000 ≤ 0x200000) (by decide)
    oneEntryMemory 0 ⟨fun _ => 0, 0, 0⟩).1 (by decide) [loadEntry oneEntryMemory 52] hwalk 2 (by decide)
  refine ⟨p, hp, (hfree 512 (by decide)).2 ⟨⟨_, List.mem_singleton.2 rfl, ?_⟩, by decide, ?_⟩⟩
  · rw [hentry]
    exact ⟨rfl, rfl, by decide, by decide⟩
  · rw [meetsFrame_iff]
    decide

end SpectreOS
