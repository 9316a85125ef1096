/-
When the loop of `pmm_init` over the memory map ends. The address of the next entry is a 32-bit sum
with a size that the map itself gives, so it can come back to where the loop has been: the loop ends
exactly when the entries below the end of the map lead into no cycle.
-/
import SpectreOS.Lib.Chain
import SpectreOS.Mem.Map

namespace SpectreOS

open BlockIO

/-- The loop, which stops at `stop`, goes from the entry at `current` to the one at `next`. -/
def NextEntry (mem : Nat → Byte) (stop current next : Nat) : Prop :=
  current < stop ∧ next = wrap32 (current + ((loadEntry mem current).size + 4))

section Walk

variable {mem : Nat → Byte} {stop current : Nat}

/-- Past the first entry there are only 32-bit addresses. -/
theorem finite_entries : {next | Relation.ReflTransGen (NextEntry mem stop) current next}.Finite := by
  refine (Set.finite_Iio (2 ^ 32)).insert current |>.subset fun next h => ?_
  rcases h.cases_tail with rfl | ⟨before, -, -, rfl⟩
  · exact .inl rfl
  · exact .inr (Nat.mod_lt _ (by decide))

/-- The walk over the map comes to an end when no chain of entries goes on for ever. -/
theorem exists_mapWalk_iff_acc : (∃ entries, MapWalk mem stop current entries) ↔
    Acc (flip (NextEntry mem stop)) current := by
  constructor
  · rintro ⟨entries, hw⟩
    induction hw with
    | done hstop => exact Acc.intro _ fun next h => absurd h.1 (by omega)
    | next hlt _ ih => exact Acc.intro _ fun next h => h.2 ▸ ih
  · intro h
    induction h with
    | intro current _ ih =>
      by_cases hlt : current < stop
      · obtain ⟨entries, hw⟩ := ih _ ⟨hlt, rfl⟩
        exact ⟨_, .next hlt hw⟩
      · exact ⟨[], .done (by omega)⟩

theorem exists_mapWalk_iff : (∃ entries, MapWalk mem stop current entries) ↔ Acyclic (NextEntry mem stop) current :=
  exists_mapWalk_iff_acc.trans (acc_iff_acyclic finite_entries)

end Walk

section Init

variable (kernelStart kernelEnd : Nat) (mem : Nat → Byte) (p : Pmm) (multibootInfo : Nat)

/-- Where there is a map, `pmm_init` ends when its walk does. -/
theorem pmmInit_ends_iff_walk (hflag : (loadInfo mem multibootInfo).flags.testBit 6 = true) :
    (∃ fuel after, pmmInit kernelStart kernelEnd mem fuel p multibootInfo = some after) ↔
      ∃ entries, MapWalk mem (wrap32 ((loadInfo mem multibootInfo).mmapAddr + (loadInfo mem multibootInfo).mmapLength))
        (loadInfo mem multibootInfo).mmapAddr entries := by
  constructor
  · rintro ⟨fuel, after, h⟩
    simp only [pmmInit, hflag, if_true, Option.bind_eq_bind, Option.bind_eq_some_iff] at h
    obtain ⟨q, hq, -⟩ := h
    obtain ⟨entries, hw, -⟩ := mapWalk_of_releaseMap hq
    exact ⟨entries, hw⟩
  · rintro ⟨entries, hw⟩
    obtain ⟨after, h, -⟩ := hw.pmmInit kernelStart kernelEnd p hflag (Nat.lt_succ_self _)
    exact ⟨_, after, h⟩

/-- `pmm_init` comes to an end exactly when there is no map, or the sizes of its entries lead the loop
into no cycle of entries below the end. -/
theorem pmmInit_ends_iff :
    (∃ fuel after, pmmInit kernelStart kernelEnd mem fuel p multibootInfo = some after) ↔
      ((loadInfo mem multibootInfo).flags.testBit 6 = true →
        Acyclic (NextEntry mem (wrap32 ((loadInfo mem multibootInfo).mmapAddr +
          (loadInfo mem multibootInfo).mmapLength))) (loadInfo mem multibootInfo).mmapAddr) := by
  by_cases hflag : (loadInfo mem multibootInfo).flags.testBit 6 = true
  · rw [← exists_mapWalk_iff, forall_prop_of_true hflag]
    exact pmmInit_ends_iff_walk kernelStart kernelEnd mem p multibootInfo hflag
  · obtain ⟨after, h, -⟩ := pmmInit_noMap kernelStart kernelEnd p (by simpa using hflag) 0
    exact ⟨fun _ h => absurd h hflag, fun _ => ⟨0, after, h⟩⟩

end Init

/-- The one entry of `oneEntryMemory`, with a size that leads back to it. -/
def stuckMemory : Nat → Byte := wordsImage (Function.update oneEntryWords 13 0xFFFFFFFC)

/-- There the loop stays at the entry. -/
theorem pmmInit_stuck :
    ¬ ∃ fuel after, pmmInit 0x100000 0x200000 stuckMemory fuel ⟨fun _ => 0, 0, 0⟩ 0 = some after := by
  rw [pmmInit_ends_iff_walk _ _ _ _ _ (by decide), exists_mapWalk_iff]
  intro h
  have hsame : NextEntry stuckMemory 76 52 52 := ⟨by decide, by decide⟩
  exact h 52 .refl (.single hsame)

end SpectreOS
