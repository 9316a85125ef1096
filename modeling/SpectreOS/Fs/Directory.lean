/-
The directory on the disk: 288 slots of 56 bytes, nine to a sector, in the 32 sectors of the root
inode. What the slot functions of fs.c read and write, and what the two searches find: the first
slot that matches, unless a read fails.
-/
import SpectreOS.Fs.Format
import Mathlib.Data.List.GetD

namespace SpectreOS

open BlockIO Prog

/-- The slots that lie inside the directory's sectors. -/
abbrev slotCount : Nat := 288

/-- The entry in a slot. -/
def entryAt (d : Nat → Sector) (slot : Nat) : Dirent := .ofImage ((d (97 + slot / 9)).slice (slot % 9 * 56))

/-- The disk with an entry written to a slot. -/
def withEntry (d : Nat → Sector) (slot : Nat) (e : Dirent) : Nat → Sector :=
  Function.update d (97 + slot / 9) ((d (97 + slot / 9)).patch (slot % 9 * 56) 56 e.image)

theorem entryAt_congr {d d' : Nat → Sector} {slot : Nat} (h : d' (97 + slot / 9) = d (97 + slot / 9)) :
    entryAt d' slot = entryAt d slot := by
  unfold entryAt; rw [h]

theorem entryAt_withEntry (d : Nat → Sector) (slot : Nat) {e : Dirent} (hi : e.inode < 2 ^ 32)
    (hu : e.used < 2 ^ 32) : entryAt (withEntry d slot e) slot = e := by
  unfold entryAt withEntry
  rw [Function.update_self]
  refine Eq.trans (Dirent.ofImage_congr fun k hk => ?_) (Dirent.ofImage_image hi hu)
  rw [Block.slice_patch_inside _ _ (by omega) (by omega) (by omega), Nat.add_sub_cancel_left]

theorem entryAt_withEntry_of_ne (d : Nat → Sector) {slot slot' : Nat} (h : slot' ≠ slot) (e : Dirent) :
    entryAt (withEntry d slot e) slot' = entryAt d slot' := by
  unfold entryAt withEntry
  by_cases he : 97 + slot' / 9 = 97 + slot / 9
  · rw [he, Function.update_self]
    refine Dirent.ofImage_congr fun k hk => ?_
    -- another slot of the sector
    exact Block.slice_patch_outside _ _ (by omega)
  · rw [Function.update_of_ne he]

theorem withEntry_of_ne (d : Nat → Sector) (slot : Nat) (e : Dirent) {l : Nat} (h : l ≠ 97 + slot / 9) :
    withEntry d slot e l = d l := Function.update_of_ne h _ _

/-! ## Names -/

/-- A byte array holds a C string from its start, NUL included. -/
theorem strEqual_iff {a : Nat → Byte} {s : List Byte} (hs : 0#8 ∉ s) :
    strEqual a s = true ↔ (∀ k (h : k < s.length), a k = s[k]) ∧ a s.length = 0 := by
  induction s generalizing a with
  | nil => simp [strEqual]
  | cons b s ih =>
    have hb : b ≠ 0 := fun h => hs (by simp [h])
    have hs' : 0#8 ∉ s := fun h => hs (List.mem_cons_of_mem _ h)
    rw [strEqual]
    constructor
    · intro h
      split at h
      · rename_i h0
        rw [beq_iff_eq] at h h0
        exact absurd (h.symm.trans h0) hb
      · split at h
        · cases h
        · rename_i h1
          obtain ⟨h2, h3⟩ := (ih hs').1 h
          refine ⟨fun k hk => ?_, h3⟩
          cases k with
          | zero => simpa using h1
          | succ k => simpa using h2 k (by simpa using hk)
    · rintro ⟨h1, h2⟩
      have h0 : a 0 = b := h1 0 (by simp)
      rw [if_neg (by simpa [h0] using hb), if_neg (by simp [h0])]
      exact (ih hs').2 ⟨fun k hk => h1 (k + 1) (by simpa using hk), h2⟩

/-- A byte array holds one C string. -/
theorem strEqual_unique {a : Nat → Byte} {s s' : CStr} (h : strEqual a s.val = true) (h' : strEqual a s'.val = true) :
    s = s' := by
  have hle : ∀ {s s' : CStr}, strEqual a s.val = true → strEqual a s'.val = true → s.val.length ≤ s'.val.length := by
    intro s s' h h'
    rw [strEqual_iff s.property] at h
    rw [strEqual_iff s'.property] at h'
    by_contra hgt
    have hnul := h.1 s'.val.length (by omega)
    rw [h'.2] at hnul
    -- the NUL of one would lie inside the other
    refine s.property ?_
    have hmem : s.val[s'.val.length] ∈ s.val := List.getElem_mem (by omega)
    rwa [← hnul] at hmem
  have hlen := le_antisymm (hle h h') (hle h' h)
  rw [strEqual_iff s.property] at h
  rw [strEqual_iff s'.property] at h'
  refine Subtype.ext (List.ext_getElem hlen fun k hk hk' => ?_)
  rw [← h.1 k hk, ← h'.1 k hk']

theorem validName_length {name : CStr} (h : validName name = true) : 0 < name.val.length ∧ name.val.length < 48 := by
  unfold validName at h
  split at h
  · cases h
  · rename_i hl
    simp only [strLen, fsMaxFilename, Bool.or_eq_true, beq_iff_eq, ge_iff_le, decide_eq_true_eq, not_or, not_le] at hl
    omega

/-- A new entry has its own name and no other. -/
theorem strEqual_newEntry {name : CStr} (h : validName name = true) (i : Nat) (name' : CStr) :
    strEqual (newEntry name i).chars name'.val = true ↔ name' = name := by
  obtain ⟨-, hlt⟩ := validName_length h
  have hchars : ∀ k, (newEntry name i).chars k = name.val.getD k 0 := by
    intro k
    unfold Dirent.chars newEntry
    split
    · rfl
    · rw [List.getD_eq_default _ _ (by omega)]
  have hget : ∀ (str : CStr) k (hk : k < str.val.length), str.val[k] ≠ 0#8 := by
    intro str k hk h0
    have := List.getElem_mem hk
    rw [h0] at this
    exact str.property this
  rw [strEqual_iff name'.property]
  constructor
  · rintro ⟨h1, h2⟩
    rw [hchars] at h2
    -- the NUL of each name ends the other
    have hle : name.val.length ≤ name'.val.length := by
      by_contra hgt
      rw [List.getD_eq_getElem _ _ (by omega)] at h2
      exact hget _ _ _ h2
    have hge : name'.val.length ≤ name.val.length := by
      by_contra hgt
      have h3 := h1 name.val.length (by omega)
      rw [hchars, List.getD_eq_default _ _ le_rfl] at h3
      exact hget _ _ _ h3.symm
    apply Subtype.ext
    refine List.ext_getElem (by omega) fun k hk hk' => ?_
    have h3 := h1 k hk
    rw [hchars, List.getD_eq_getElem _ _ hk'] at h3
    exact h3.symm
  · rintro rfl
    refine ⟨fun k hk => by rw [hchars, List.getD_eq_getElem _ _ hk], ?_⟩
    rw [hchars, List.getD_eq_default _ _ le_rfl]

/-! ## The slot functions -/

section

variable {N : Nat} {r w : Bool} {d : Nat → Sector} {m : FsMem}

theorem dirReadEntry_exact (hN : 129 < N) (hroot : m.inode 0 = rootInode 32) (slot : Nat) :
    (dirReadEntry slot).wp (exact N r w) (fun res d' m' => m' = m ∧ d' = d ∧
      (slot < slotCount → res = some (entryAt d slot) ∨ res = none ∧ r = true) ∧
      (slotCount ≤ slot → res = none)) d m := by
  unfold dirReadEntry
  split
  · rename_i h
    rw [wp_bind, wp_load, hroot]
    have hlba : (rootInode 32).direct ⟨slot / perSector, h⟩ = 97 + slot / 9 := if_pos h
    simp only [hlba]
    rw [if_neg (by omega), wp_bind, wp_readBlock]
    have hlt : slot / 9 < 32 := h
    refine ⟨by simp only [exact]; omega, ?_⟩
    rintro res d' ⟨rfl, (rfl | ⟨rfl, hr⟩)⟩
    · exact ⟨rfl, rfl, fun _ => .inl rfl, fun h => by simp only [slotCount] at h; omega⟩
    · exact ⟨rfl, rfl, fun _ => .inr ⟨rfl, hr⟩, fun _ => rfl⟩
  · rename_i h
    have hge : ¬ slot / 9 < 32 := h
    exact ⟨rfl, rfl, fun h => by simp only [slotCount] at h; omega, fun _ => rfl⟩

theorem dirWriteEntry_exact (hN : 129 < N) (hroot : m.inode 0 = rootInode 32) {slot : Nat} (hs : slot < slotCount)
    (e : Dirent) :
    (dirWriteEntry slot e).wp (exact N r w) (fun ok d' m' => m' = m ∧
      d' = (if ok then withEntry d slot e else d) ∧ (ok = false → r = true ∨ w = true)) d m := by
  unfold dirWriteEntry
  have hlt : slot / 9 < 32 := by simp only [slotCount] at hs; omega
  rw [dif_pos (show slot / perSector < 32 from hlt), wp_bind, wp_load, hroot]
  have hlba : (rootInode 32).direct ⟨slot / perSector, hlt⟩ = 97 + slot / 9 := if_pos hlt
  simp only [hlba]
  rw [if_neg (by omega), wp_bind, wp_readBlock]
  refine ⟨by simp only [exact]; omega, ?_⟩
  rintro res d' ⟨rfl, (rfl | ⟨rfl, hr⟩)⟩
  · rw [wp_writeBlock]
    refine ⟨by simp only [exact]; omega, ?_⟩
    rintro ok d'' ⟨rfl, hw⟩
    exact ⟨rfl, rfl, fun h => .inr (hw h)⟩
  · exact ⟨rfl, rfl, fun _ => .inl hr⟩

/-- A search through the directory finds the first match, unless a read fails. -/
theorem dirSearch_exact (hN : 129 < N) (hroot : m.inode 0 = rootInode 32) {α : Type}
    (g : Nat → Dirent → Option α) :
    ((List.range dirSlots).findSomeM? fun slot => do
      match ← dirReadEntry slot with
      | none => pure none
      | some entry => pure (g slot entry) : FsM (Option α)).wp (exact N r w)
      (fun res d' m' => m' = m ∧ d' = d ∧
        (res = none → r = false → ∀ j < slotCount, g j (entryAt d j) = none) ∧
        (∀ a, res = some a → ∃ slot < slotCount, g slot (entryAt d slot) = some a ∧
          (r = false → ∀ j < slot, g j (entryAt d j) = none))) d m := by
  refine wp_findSomeM (J := fun pre d' m' => m' = m ∧ d' = d ∧
    (r = false → ∀ j ∈ pre, j < slotCount → g j (entryAt d j) = none)) _ ⟨rfl, rfl, by simp⟩ ?_ ?_
  · rintro pre slot post d' m' hl ⟨rfl, rfl, hpre⟩
    obtain ⟨rfl, -⟩ := range_split hl
    refine (dirReadEntry_exact hN hroot slot).seq ?_
    rintro res d'' m'' ⟨rfl, rfl, hin, hout⟩
    by_cases hs : slot < slotCount
    · rcases hin hs with rfl | ⟨rfl, hr⟩
      · rw [wp_pure]
        cases hg : g slot (entryAt d'' slot) with
        | none =>
          refine ⟨rfl, rfl, fun hr j hj hjs => ?_⟩
          rcases List.mem_append.1 hj with hj | hj
          · exact hpre hr j hj hjs
          · rw [List.mem_singleton.1 hj]; exact hg
        | some a =>
          refine ⟨rfl, rfl, by simp, fun b hb => ?_⟩
          cases hb
          exact ⟨slot, hs, hg, fun hr j hj => hpre hr j (by simpa using hj) (by omega)⟩
      · exact ⟨rfl, rfl, fun hr' => by rw [hr] at hr'; cases hr'⟩
    · rw [hout (by omega)]
      refine ⟨rfl, rfl, fun hr j hj hjs => ?_⟩
      rcases List.mem_append.1 hj with hj | hj
      · exact hpre hr j hj hjs
      · rw [List.mem_singleton.1 hj] at hjs; exact absurd hjs hs
  · rintro d' m' ⟨rfl, rfl, hpre⟩
    exact ⟨rfl, rfl, fun _ hr j hj => hpre hr j (by
      simp only [List.mem_range, dirSlots, fsDirectBlocks]; simp only [slotCount] at hj; omega) hj, by simp⟩

/-- A used entry of that name. -/
def Dirent.hasName (e : Dirent) (name : CStr) : Prop := e.used ≠ 0 ∧ strEqual e.chars name.val = true

instance (e : Dirent) (name : CStr) : Decidable (e.hasName name) := inferInstanceAs (Decidable (_ ∧ _))

/-- `find_dir_entry` answers the inode of the first used entry of that name. -/
theorem findDirEntry_exact (hN : 129 < N) (hroot : m.inode 0 = rootInode 32) (name : CStr) :
    (findDirEntry name).wp (exact N r w) (fun res d' m' => m' = m ∧ d' = d ∧
      ((res = -1 ∧ (r = false → ∀ j < slotCount, ¬ (entryAt d j).hasName name)) ∨
        ∃ slot < slotCount, res = int32 (entryAt d slot).inode ∧ (entryAt d slot).hasName name ∧
          (r = false → ∀ j < slot, ¬ (entryAt d j).hasName name))) d m := by
  unfold findDirEntry
  refine (dirSearch_exact hN hroot fun _ entry =>
    if entry.used ≠ 0 ∧ strEqual entry.chars name.val then some (int32 entry.inode) else none).seq ?_
  rintro (_ | a) d' m' ⟨rfl, rfl, hnone, hsome⟩
  · refine ⟨rfl, rfl, .inl ⟨rfl, fun hr j hj => ?_⟩⟩
    simpa [Dirent.hasName] using hnone rfl hr j hj
  · obtain ⟨slot, hs, hg, hfirst⟩ := hsome a rfl
    split at hg
    · rename_i hmatch
      refine ⟨rfl, rfl, .inr ⟨slot, hs, (Option.some.inj hg).symm, hmatch, fun hr j hj => ?_⟩⟩
      simpa [Dirent.hasName] using hfirst hr j hj
    · cases hg

/-- `find_free_dir_slot` answers the first slot that is not used. -/
theorem findFreeDirSlot_exact (hN : 129 < N) (hroot : m.inode 0 = rootInode 32) :
    findFreeDirSlot.wp (exact N r w) (fun res d' m' => m' = m ∧ d' = d ∧
      (res = none → r = false → ∀ j < slotCount, (entryAt d j).used ≠ 0) ∧
      (∀ slot, res = some slot → slot < slotCount ∧ (entryAt d slot).used = 0)) d m := by
  unfold findFreeDirSlot
  refine (dirSearch_exact hN hroot fun slot entry => if entry.used = 0 then some slot else none).mono ?_
  rintro res d' m' ⟨rfl, rfl, hnone, hsome⟩
  refine ⟨rfl, rfl, fun h hr j hj => by simpa using hnone h hr j hj, fun slot h => ?_⟩
  obtain ⟨slot', hs, hg, -⟩ := hsome slot h
  split at hg
  · rename_i hu
    obtain rfl := Option.some.inj hg
    exact ⟨hs, hu⟩
  · cases hg

end

end SpectreOS
