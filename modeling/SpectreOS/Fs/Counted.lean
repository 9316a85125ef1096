/-
The storage functions on a drive whose requests are numbered, with the number of each request that
decides an outcome: which request brings a directory entry, which ones save a table. Where `exact`
says what a call may do when something fails, here it is known what fails.
-/
import SpectreOS.Fs.Linked
import SpectreOS.Fs.Persist

namespace SpectreOS

open BlockIO Prog

/-- Requests against a disk on which request number `n` fails when `f n`. The ghost state is the
number of the next request and the contents. -/
def counted (acc : Nat → Prop) (f : Nat → Bool) : Iface (Nat × (Nat → Sector)) Sector where
  readPre _ lba := acc lba
  readPost g lba res g' := g' = (g.1 + 1, g.2) ∧ res = if f g.1 then none else some (g.2 lba)
  writePre _ lba _ := acc lba
  writePost g lba b ok g' := ok = !f g.1 ∧ g' = (g.1 + 1, if f g.1 then g.2 else Function.update g.2 lba b)

/-- A drive that is about to see request `g.1` and holds the sectors `g.2`. -/
structure Counts (acc : Nat → Prop) (f : Nat → Bool) (g : Nat × (Nat → Sector)) (a : Ata) : Prop where
  number : a.log.length = g.1
  disk : a.disk = g.2
  faults : a.faults = f
  accepts : ∀ lba, acc lba → a.accepts lba = true

theorem counted_models (acc : Nat → Prop) (f : Nat → Bool) : Models (counted acc f) ata (Counts acc f) := by
  constructor
  · rintro ⟨n, d⟩ a lba ⟨rfl, rfl, rfl, hacc⟩ hlba
    refine ⟨_, ⟨rfl, ?_⟩, ?_⟩
    · simp only [ata, ataReadSector, hacc lba hlba, if_true]
      split <;> rfl
    · simp only [ata, ataReadSector, hacc lba hlba, if_true]
      split
      · exact ⟨by simp [Ata.record], rfl, rfl, hacc⟩
      · exact ⟨by simp [Ata.record], rfl, rfl, hacc⟩
  · rintro ⟨n, d⟩ a lba b ⟨rfl, rfl, rfl, hacc⟩ hlba
    by_cases hf : a.faults a.log.length = true
    · refine ⟨_, ⟨?_, rfl⟩, ?_⟩
      · simp [ata, ataWriteSector, hacc lba hlba, hf]
      · simp only [ata, ataWriteSector, hacc lba hlba, if_true, hf]
        exact ⟨by simp [Ata.record], rfl, rfl, hacc⟩
    · refine ⟨_, ⟨?_, rfl⟩, ?_⟩
      · simp [ata, ataWriteSector, hacc lba hlba, hf]
      · simp only [ata, ataWriteSector, hacc lba hlba, if_true, hf]
        exact ⟨by simp [Ata.record], rfl, rfl, hacc⟩

section

variable {N n slot : Nat} {acc : Nat → Prop} {f : Nat → Bool} {d : Nat → Sector} {m : FsMem}

/-! ## The directory -/

theorem dirReadEntry_counted (hroot : m.inode 0 = rootInode 32) (hacc : ∀ lba, 97 ≤ lba → lba < 129 → acc lba)
    (j : Nat) :
    (dirReadEntry j).wp (counted acc f) (fun r g' m' => m' = m ∧ g' = (n + (if j < slotCount then 1 else 0), d) ∧
      r = if j < slotCount ∧ f n = false then some (entryAt d j) else none) (n, d) m := by
  unfold dirReadEntry
  by_cases hj : j < slotCount
  · have hdiv : j / perSector < 32 := by simp only [slotCount, perSector] at *; omega
    rw [dif_pos hdiv]
    simp only [wp_bind, wp_load]
    have hlba : (m.inode 0).direct ⟨j / perSector, hdiv⟩ = 97 + j / 9 := by
      rw [hroot]
      exact if_pos hdiv
    rw [hlba, if_neg (by omega)]
    simp only [wp_bind, wp_readBlock]
    refine ⟨hacc _ (by omega) (by simp only [slotCount] at hj; omega), ?_⟩
    rintro r g' ⟨rfl, rfl⟩
    by_cases hf : f n = true
    · simp [hf, hj]
    · simp only [hf, Bool.false_eq_true, if_false, hj, if_true, true_and]
      exact ⟨rfl, rfl, rfl⟩
  · have hdiv : ¬ j / perSector < 32 := by simp only [slotCount, perSector] at *; omega
    rw [dif_neg hdiv]
    simp [hj]

/-- The first slot with some property whose request succeeds, in a scan that begins with request `n`. -/
def firstServed (f : Nat → Bool) (n : Nat) (p : Nat → Bool) : Option Nat :=
  (List.range slotCount).find? fun j => p j && !f (n + j)

theorem firstServed_some {p : Nat → Bool} {k : Nat} (h : firstServed f n p = some k) :
    k < slotCount ∧ p k = true ∧ f (n + k) = false := by
  have hk := List.find?_some h
  have hlt := List.mem_of_find?_eq_some h
  simp only [Bool.and_eq_true, Bool.not_eq_true', List.mem_range] at hk hlt
  exact ⟨hlt, hk⟩

theorem firstServed_none {p : Nat → Bool} : firstServed f n p = none ↔
    ∀ j < slotCount, p j = true → f (n + j) = true := by
  simp [firstServed, List.find?_eq_none]

theorem firstServed_unique {p : Nat → Bool} (hs : slot < slotCount) (hp : p slot = true)
    (hunique : ∀ j < slotCount, p j = true → j = slot) :
    firstServed f n p = if f (n + slot) = true then none else some slot := by
  split
  · rename_i hf
    refine firstServed_none.2 fun j hj hpj => ?_
    rw [hunique j hj hpj]
    exact hf
  · rename_i hf
    rw [firstServed, List.find?_range_eq_some]
    refine ⟨by simp [hp, hf], by simpa using hs, fun j hj => ?_⟩
    have : p j ≠ true := fun hpj => absurd (hunique j (by omega) hpj) (by omega)
    simp [this]

/-- A search through the directory comes to the first matching entry whose request succeeds. -/
theorem dirSearch_counted {α : Type} {body : Nat → Dirent → FsM (Option α)} {p : Nat → Bool}
    {Q : Option α → Nat × (Nat → Sector) → FsMem → Prop} (hroot : m.inode 0 = rootInode 32)
    (hacc : ∀ lba, 97 ≤ lba → lba < 129 → acc lba)
    (hothers : ∀ j < slotCount, p j = false → body j (entryAt d j) = pure none)
    (hmissed : firstServed f n p = none → Q none (n + slotCount, d) m)
    (hfound : ∀ k, firstServed f n p = some k → (body k (entryAt d k)).wp (counted acc f)
      (fun r g' m' => r.isSome = true ∧ Q r g' m') (n + k + 1, d) m) :
    ((List.range dirSlots).findSomeM? fun j => do
      match ← dirReadEntry j with
      | none => pure none
      | some entry => body j entry : FsM (Option α)).wp (counted acc f) Q (n, d) m := by
  refine wp_findSomeM (J := fun done g m' => m' = m ∧ g = (n + min done.length slotCount, d) ∧
    ∀ j < done.length, j < slotCount → (p j && !f (n + j)) = false) _ ⟨rfl, by simp, by simp⟩ ?_ ?_
  · rintro done j rest g m' hrange ⟨rfl, rfl, hpast⟩
    obtain ⟨rfl, hj⟩ := range_split hrange
    rw [List.length_range] at hpast ⊢
    refine (dirReadEntry_counted hroot hacc j).seq ?_
    rintro r g₁ m₁ ⟨rfl, rfl, rfl⟩
    simp only [List.length_append, List.length_range, List.length_singleton]
    -- an entry that is passed over keeps the invariant
    have hnext : (j < slotCount → (p j && !f (n + j)) = false) →
        ∀ i < j + 1, i < slotCount → (p i && !f (n + i)) = false := by
      intro hpass i hi hlt
      rcases Nat.lt_succ_iff_lt_or_eq.1 hi with hi | rfl
      · exact hpast i hi hlt
      · exact hpass hlt
    by_cases hjs : j < slotCount
    · rw [Nat.min_eq_left hjs.le, if_pos hjs, Nat.min_eq_left (show j + 1 ≤ slotCount by omega)]
      by_cases hf : f (n + j) = true
      · rw [if_neg (by simp [hf])]
        exact ⟨rfl, rfl, hnext fun _ => by simp [hf]⟩
      · rw [if_pos ⟨hjs, by simpa using hf⟩]
        by_cases hp : p j = true
        · have hfirst : firstServed f n p = some j := by
            rw [firstServed, List.find?_range_eq_some]
            exact ⟨by simp [hp, hf], by simpa using hjs, fun i hi => by rw [hpast i hi (by omega)]; rfl⟩
          refine (hfound j hfirst).mono ?_
          rintro (_ | r) g' m' ⟨hsome, hq⟩
          · cases hsome
          · exact hq
        · dsimp only
          rw [hothers j hjs (by simpa using hp)]
          exact ⟨rfl, rfl, hnext fun _ => by simp [hp]⟩
    · rw [if_neg (by tauto), if_neg hjs]
      exact ⟨rfl, by rw [Nat.min_eq_right (by omega), Nat.min_eq_right (by omega)]; rfl, hnext fun h => absurd h hjs⟩
  · rintro g m' ⟨rfl, rfl, hpast⟩
    rw [List.length_range] at hpast ⊢
    have hslots : slotCount ≤ dirSlots := by decide
    rw [Nat.min_eq_right hslots]
    refine hmissed (firstServed_none.2 fun j hj hp => ?_)
    have := hpast j (by omega) hj
    rw [hp] at this
    simpa using this

/-- `find_dir_entry`. -/
theorem findDirEntry_counted (hroot : m.inode 0 = rootInode 32) (hacc : ∀ lba, 97 ≤ lba → lba < 129 → acc lba)
    (name : CStr) :
    (findDirEntry name).wp (counted acc f) (fun r g' m' => m' = m ∧
      match firstServed f n fun j => decide ((entryAt d j).hasName name) with
      | none => r = -1 ∧ g' = (n + slotCount, d)
      | some k => r = int32 (entryAt d k).inode ∧ g' = (n + k + 1, d)) (n, d) m := by
  unfold findDirEntry
  refine wp.seq (Q := fun found g' m' => m' = m ∧
    match firstServed f n fun j => decide ((entryAt d j).hasName name) with
    | none => found = none ∧ g' = (n + slotCount, d)
    | some k => found = some (int32 (entryAt d k).inode) ∧ g' = (n + k + 1, d)) ?_ ?_
  · refine dirSearch_counted (p := fun j => decide ((entryAt d j).hasName name)) hroot hacc (fun j hj hno => ?_)
      (fun hnone => ?_) fun k hk => ?_
    · rw [decide_eq_false_iff_not] at hno
      exact congrArg pure (if_neg (show ¬ (_ ∧ _) from hno))
    · rw [hnone]
      exact ⟨rfl, rfl, rfl⟩
    · have hname := (firstServed_some hk).2.1
      rw [decide_eq_true_eq] at hname
      rw [wp_pure, if_pos (show _ ∧ _ from hname), hk]
      exact ⟨rfl, rfl, rfl, rfl⟩
  · rintro found g' m' ⟨rfl, hfound⟩
    refine ⟨rfl, ?_⟩
    split at hfound
    · rw [hfound.1]
      exact ⟨rfl, hfound.2⟩
    · rw [hfound.1]
      exact ⟨rfl, hfound.2⟩

/-- The scan finds the only entry of a name if the request for it succeeds. -/
theorem findDirEntry_unique (hroot : m.inode 0 = rootInode 32) (hacc : ∀ lba, 97 ≤ lba → lba < 129 → acc lba)
    {name : CStr} (hs : slot < slotCount) (hname : (entryAt d slot).hasName name)
    (hunique : ∀ j < slotCount, (entryAt d j).hasName name → j = slot) :
    (findDirEntry name).wp (counted acc f) (fun r g' m' => m' = m ∧
      if f (n + slot) = true then r = -1 ∧ g'.2 = d
      else r = int32 (entryAt d slot).inode ∧ g' = (n + slot + 1, d)) (n, d) m := by
  refine (findDirEntry_counted hroot hacc name).mono ?_
  rintro r g' m' ⟨rfl, hr⟩
  have hfirst : firstServed f n (fun j => decide ((entryAt d j).hasName name)) =
      if f (n + slot) = true then none else some slot :=
    firstServed_unique hs (by simpa using hname) fun j hj hn => hunique j hj (by simpa using hn)
  refine ⟨rfl, ?_⟩
  by_cases hf : f (n + slot) = true
  · rw [if_pos hf] at hfirst ⊢
    rw [hfirst] at hr
    exact ⟨hr.1, by rw [hr.2]⟩
  · rw [if_neg hf] at hfirst ⊢
    rw [hfirst] at hr
    exact hr

theorem dirWriteEntry_counted (hroot : m.inode 0 = rootInode 32) (hacc : ∀ lba, 97 ≤ lba → lba < 129 → acc lba)
    (hs : slot < slotCount) (e : Dirent) :
    (dirWriteEntry slot e).wp (counted acc f) (fun ok g' m' => m' = m ∧
      if f n = false ∧ f (n + 1) = false then ok = true ∧ g' = (n + 2, withEntry d slot e) else ok = false ∧ g'.2 = d)
      (n, d) m := by
  have hlt : slot / 9 < 32 := by simp only [slotCount] at hs; omega
  unfold dirWriteEntry
  rw [dif_pos (show slot / perSector < 32 from hlt), wp_bind, wp_load, hroot]
  have hlba : (rootInode 32).direct ⟨slot / perSector, hlt⟩ = 97 + slot / 9 := if_pos hlt
  simp only [hlba]
  rw [if_neg (by omega), wp_bind, wp_readBlock]
  refine ⟨hacc _ (by omega) (by omega), ?_⟩
  rintro res g' ⟨rfl, rfl⟩
  by_cases h0 : f n = true
  · simp [h0]
  · simp only [Bool.not_eq_true] at h0
    simp only [h0, Bool.false_eq_true, if_false, true_and]
    rw [wp_writeBlock]
    refine ⟨hacc _ (by omega) (by omega), ?_⟩
    rintro ok g' ⟨rfl, rfl⟩
    by_cases h1 : f (n + 1) = true
    · simp [h1]
    · simp only [h1, Bool.not_false, Bool.false_eq_true, if_true, if_false, true_and]
      rfl

/-! ## The tables -/

theorem saveBitmap_counted (hacc : ∀ lba, 1 ≤ lba → lba < 33 → acc lba) :
    saveBitmap.wp (counted acc f) (fun ok g' m' => m' = m ∧ AgreeOffBitmap d g'.2 ∧
      ((∀ k < 32, f (n + k) = false) → ok = true ∧ g' = (n + 32, withBitmap d m)) ∧
      ((∃ k < 32, f (n + k) = true) → ok = false)) (n, d) m := by
  refine wp_allM (J := fun done g m' => m' = m ∧ g.1 = n + done.length ∧ AgreeOffBitmap d g.2 ∧
    (∀ i ∈ done, g.2 (1 + i) = bitmapSector m i) ∧ ∀ k < done.length, f (n + k) = false) _
    ⟨rfl, rfl, fun _ _ => rfl, by simp, by simp⟩ ?_ ?_
  · rintro done i rest ⟨k, d'⟩ m' hl ⟨rfl, rfl, ha, hd, hserved⟩
    obtain ⟨rfl, hi⟩ := range_split hl
    have hi : i < 32 := hi
    have ha : AgreeOffBitmap d d' := ha
    have hd : ∀ j ∈ List.range i, d' (1 + j) = bitmapSector m' j := hd
    rw [List.length_range] at hserved ⊢
    simp only [wp_bind, wp_load, wp_writeBlock]
    refine ⟨hacc _ (by simp only [fsBitmapStart]; omega) (by simp only [fsBitmapStart]; omega), ?_⟩
    rintro ok g' ⟨rfl, rfl⟩
    by_cases hf : f (n + i) = true
    · simp only [hf, Bool.not_true, Bool.false_eq_true, if_false, if_true]
      refine ⟨trivial, ha, fun hall => ?_, fun _ => trivial⟩
      rw [hall i hi] at hf
      cases hf
    · simp only [hf, Bool.not_false, if_true, Bool.false_eq_true, if_false]
      refine ⟨trivial, by simp only [List.length_append, List.length_singleton, List.length_range]; omega,
        fun l hl => ?_, fun j hj => ?_, fun k hk => ?_⟩
      · rw [Function.update_of_ne (by simp only [fsBitmapStart]; omega), ha l hl]
      · simp only [fsBitmapStart]
        by_cases e : j = i
        · rw [e, Function.update_self]
        · rw [Function.update_of_ne (by omega)]
          exact hd j (by simpa [e] using hj)
      · simp only [List.length_append, List.length_range, List.length_singleton] at hk
        rcases Nat.lt_succ_iff_lt_or_eq.1 hk with hk | rfl
        · exact hserved k hk
        · simpa using hf
  · rintro ⟨k, d'⟩ m' ⟨rfl, rfl, ha, hd, hserved⟩
    have ha : AgreeOffBitmap d d' := ha
    have hd : ∀ j ∈ List.range fsBitmapSectors, d' (1 + j) = bitmapSector m' j := hd
    rw [List.length_range] at hserved
    refine ⟨rfl, ha, fun _ => ⟨rfl, Prod.ext (by simp [fsBitmapSectors]) ?_⟩, fun hfail => ?_⟩
    swap
    · obtain ⟨k, hk, hf⟩ := hfail
      rw [hserved k hk] at hf
      cases hf
    funext l
    show d' l = withBitmap d m' l
    unfold withBitmap
    split
    · rename_i hl
      rw [← hd (l - 1) (by simp only [List.mem_range, fsBitmapSectors]; omega), Nat.add_sub_cancel' hl.1]
    · rename_i hl
      exact ha l hl

theorem saveInode_counted (hacc : ∀ lba, 33 ≤ lba → lba < 97 → acc lba) {i : Nat} (hi : i < 128) :
    (saveInode i).wp (counted acc f) (fun ok g' m' => m' = m ∧
      if f n = false ∧ f (n + 1) = false then ok = true ∧ g' = (n + 2, withInode d i (m.inode i))
      else ok = false ∧ g'.2 = d) (n, d) m := by
  have hs : fsInodeStart + i * fsInodeSize / 512 = 33 + i / 2 := by simp only [fsInodeStart, fsInodeSize]; omega
  have ho : i * fsInodeSize % 512 = i % 2 * 256 := by simp only [fsInodeSize]; omega
  unfold saveInode
  rw [if_neg (by simp only [fsMaxFiles]; omega)]
  simp only [hs, ho]
  rw [if_neg (by simp only [fsInodeSize]; omega), wp_bind, wp_readBlock]
  refine ⟨hacc _ (by omega) (by omega), ?_⟩
  rintro res g' ⟨rfl, rfl⟩
  by_cases h0 : f n = true
  · simp [h0]
  · simp only [Bool.not_eq_true] at h0
    simp only [h0, Bool.false_eq_true, if_false, true_and, wp_bind, wp_load, wp_writeBlock]
    refine ⟨hacc _ (by omega) (by omega), ?_⟩
    rintro ok g' ⟨rfl, rfl⟩
    by_cases h1 : f (n + 1) = true
    · simp [h1]
    · simp only [h1, Bool.not_false, Bool.false_eq_true, if_true, if_false, true_and]
      rfl

/-! ## Create -/

/-- Whether the entry of a slot has the name, is free, or is used with the inode. -/
def named (d : Nat → Sector) (name : CStr) (slot : Nat) : Bool := decide ((entryAt d slot).hasName name)

def unused (d : Nat → Sector) (slot : Nat) : Bool := decide ((entryAt d slot).used = 0)

def refersTo (d : Nat → Sector) (i slot : Nat) : Bool := decide ((entryAt d slot).used ≠ 0 ∧ (entryAt d slot).inode = i)

/-- `fs_create` comes to claim inode `i` for `slot`: it has read no entry of the name, and a free one. -/
structure Claims (f : Nat → Bool) (n : Nat) (d : Nat → Sector) (m : FsMem) (name : CStr) (slot i : Nat) : Prop where
  ready : m.filesystemReady = true
  valid : validName name = true
  absent : firstServed f n (named d name) = none
  free : firstServed f (n + slotCount) (unused d) = some slot
  inode : firstFreeInode m = some i

/-- The outcomes of `fs_create`, with the requests that decide. The inode is saved by the two requests
after the scans, the entry by the next two. -/
inductive CreatedAt (f : Nat → Bool) (n : Nat) (d : Nat → Sector) (m : FsMem) (name : CStr) :
    Int → (Nat → Sector) → FsMem → Prop
  | refused : (∀ slot i, ¬ Claims f n d m name slot i) → CreatedAt f n d m name 0 d m
  | unsaved (slot i : Nat) : Claims f n d m name slot i →
      ¬ (f (n + slotCount + slot + 1) = false ∧ f (n + slotCount + slot + 2) = false) →
      CreatedAt f n d m name 0 d (setInode m i .fresh)
  | undone (slot i : Nat) (d' : Nat → Sector) : Claims f n d m name slot i →
      f (n + slotCount + slot + 1) = false ∧ f (n + slotCount + slot + 2) = false →
      ¬ (f (n + slotCount + slot + 3) = false ∧ f (n + slotCount + slot + 4) = false) →
      (∀ l, ¬ (33 ≤ l ∧ l < 97) → d' l = d l) → CreatedAt f n d m name 0 d' (setInode m i .zero)
  | done (slot i : Nat) : Claims f n d m name slot i →
      f (n + slotCount + slot + 1) = false ∧ f (n + slotCount + slot + 2) = false →
      f (n + slotCount + slot + 3) = false ∧ f (n + slotCount + slot + 4) = false →
      CreatedAt f n d m name 1 (withEntry (withInode d i .fresh) slot (newEntry name i)) (setInode m i .fresh)

theorem findFreeDirSlot_counted (hroot : m.inode 0 = rootInode 32) (hacc : ∀ lba, 97 ≤ lba → lba < 129 → acc lba) :
    findFreeDirSlot.wp (counted acc f) (fun r g' m' => m' = m ∧ r = firstServed f n (unused d) ∧ g'.2 = d ∧
      ∀ slot, r = some slot → g' = (n + slot + 1, d)) (n, d) m := by
  unfold findFreeDirSlot
  refine dirSearch_counted (p := unused d) hroot hacc (fun j hj hno => ?_) (fun hnone => ?_) fun k hk => ?_
  · exact congrArg pure (if_neg (decide_eq_false_iff_not.1 hno))
  · rw [hnone]
    exact ⟨rfl, rfl, rfl, nofun⟩
  · have hfree := (firstServed_some hk).2.1
    rw [wp_pure, if_pos (of_decide_eq_true hfree), hk]
    refine ⟨rfl, rfl, rfl, rfl, ?_⟩
    rintro slot ⟨⟩
    rfl

/-- The end of `fs_create`, with the inode saved: the entry is written, or the inode freed again. -/
theorem createEntry_counted {name : CStr} {slot i : Nat} (hS : Sound N d m) (hacc : ∀ lba < N, acc lba)
    (hclaims : Claims f n d m name slot i)
    (hserved : f (n + slotCount + slot + 1) = false ∧ f (n + slotCount + slot + 2) = false) :
    (do if !(← dirWriteEntry slot (newEntry name i)) then
          modify fun m => setInode m i { m.inode i with mode := fsModeFree }
          let _ ← saveInode i
          pure 0
        else pure 1 : FsM Int).wp (counted acc f) (fun res g' m' => CreatedAt f n d m name res g'.2 m')
      (n + slotCount + slot + 3, withInode d i .fresh) (setInode m i .fresh) := by
  have hN := hS.lo
  obtain ⟨i1, i2, i3⟩ := firstFreeInode_some hclaims.inode
  have hslot := (firstServed_some hclaims.free).1
  have hinode : (setInode m i .fresh).inode i = .fresh := by rw [inode_setInode, if_pos ⟨rfl, i3⟩]
  have hroot : (setInode m i .fresh).inode 0 = rootInode 32 := by
    rw [inode_setInode, if_neg (by omega)]
    exact hS.root
  refine (dirWriteEntry_counted hroot (fun lba _ _ => hacc lba (by omega)) hslot (newEntry name i)).seq ?_
  rintro ok ⟨k₂, d₂⟩ m₂ ⟨rfl, hwrite⟩
  by_cases hentry : f (n + slotCount + slot + 3) = false ∧ f (n + slotCount + slot + 4) = false
  · rw [if_pos hentry] at hwrite
    obtain ⟨rfl, hg⟩ := hwrite
    obtain ⟨rfl, rfl⟩ := Prod.mk.injEq .. ▸ hg
    exact .done slot i hclaims hserved hentry
  · rw [if_neg hentry] at hwrite
    obtain ⟨rfl, hd₂⟩ := hwrite
    obtain rfl : d₂ = withInode d i .fresh := hd₂
    rw [if_pos (by simp), wp_bind, wp_modify, hinode, setInode_setInode]
    refine (saveInode_counted (fun lba _ _ => hacc lba (by omega)) i3).seq ?_
    rintro ok ⟨k₃, d₃⟩ m₃ ⟨rfl, hsave⟩
    -- whether or not the inode is saved, no sector outside the table changes
    refine .undone slot i d₃ hclaims hserved hentry fun l hl => ?_
    have hne : l ≠ 33 + i / 2 := by omega
    split at hsave
    · obtain ⟨-, hg⟩ := hsave
      obtain ⟨-, rfl⟩ := Prod.mk.injEq .. ▸ hg
      simp [withInode, Function.update_of_ne hne]
    · have hd₃ : d₃ = withInode d i .fresh := hsave.2
      rw [hd₃, withInode, Function.update_of_ne hne]

/-- Once `fs_create` has found a slot and an inode. -/
theorem createInode_counted {name : CStr} {slot i : Nat} (hS : Sound N d m) (hacc : ∀ lba < N, acc lba)
    (hclaims : Claims f n d m name slot i) :
    (do modify fun m => setInode m i .fresh
        if !(← saveInode i) then pure 0
        else if !(← dirWriteEntry slot (newEntry name i)) then
          modify fun m => setInode m i { m.inode i with mode := fsModeFree }
          let _ ← saveInode i
          pure 0
        else pure 1 : FsM Int).wp (counted acc f) (fun res g' m' => CreatedAt f n d m name res g'.2 m')
      (n + slotCount + slot + 1, d) m := by
  have hN := hS.lo
  obtain ⟨-, -, i3⟩ := firstFreeInode_some hclaims.inode
  have hinode : (setInode m i .fresh).inode i = .fresh := by rw [inode_setInode, if_pos ⟨rfl, i3⟩]
  rw [wp_bind, wp_modify]
  refine (saveInode_counted (fun lba _ _ => hacc lba (by omega)) i3).seq ?_
  rintro ok ⟨k₁, d₁⟩ m₁ ⟨rfl, hsave⟩
  by_cases hserved : f (n + slotCount + slot + 1) = false ∧ f (n + slotCount + slot + 2) = false
  · rw [if_pos hserved] at hsave
    obtain ⟨rfl, hg⟩ := hsave
    obtain ⟨rfl, rfl⟩ := Prod.mk.injEq .. ▸ hg
    rw [if_neg (by simp), hinode]
    exact createEntry_counted hS hacc hclaims hserved
  · rw [if_neg hserved] at hsave
    obtain ⟨rfl, hd₁⟩ := hsave
    obtain rfl : d₁ = d := hd₁
    rw [if_pos (by simp)]
    exact .unsaved slot i hclaims hserved

theorem fsCreate_counted (name : CStr) (hS : Sound N d m) (hacc : ∀ lba < N, acc lba) :
    (fsCreate name).wp (counted acc f) (fun res g' m' => CreatedAt f n d m name res g'.2 m') (n, d) m := by
  have hN := hS.lo
  unfold fsCreate
  rw [wp_bind, wp_load]
  split
  · rename_i hno
    refine .refused fun slot i hc => ?_
    simp [hc.ready, hc.valid] at hno
  rename_i hok
  simp only [Bool.or_eq_true, Bool.not_eq_true', not_or, Bool.not_eq_false] at hok
  refine (findDirEntry_counted hS.root (fun lba _ _ => hacc lba (by omega)) name).seq ?_
  rintro res g' m' ⟨rfl, hres⟩
  change match firstServed f n (named d name) with | none => _ | some k => _ at hres
  cases habsent : firstServed f n (named d name) with
  | some k =>
    rw [habsent] at hres
    obtain ⟨rfl, rfl⟩ := hres
    obtain ⟨hk, hname, -⟩ := firstServed_some habsent
    obtain ⟨hlo, hhi⟩ := hS.entries k hk (of_decide_eq_true hname).1
    rw [int32_of_lt hhi, if_pos (by omega)]
    refine .refused fun slot i hc => ?_
    rw [hc.absent] at habsent
    cases habsent
  | none =>
    rw [habsent] at hres
    obtain ⟨rfl, rfl⟩ := hres
    rw [if_neg (by omega)]
    refine (findFreeDirSlot_counted hS.root fun lba _ _ => hacc lba (by omega)).seq ?_
    rintro r ⟨k, d'⟩ m'' ⟨rfl, rfl, rfl, hnext⟩
    cases hfree : firstServed f (n + slotCount) (unused d') with
    | none =>
      refine .refused fun slot i hc => ?_
      rw [hc.free] at hfree
      cases hfree
    | some slot =>
      obtain ⟨rfl, -⟩ := Prod.mk.injEq .. ▸ hnext slot hfree
      dsimp only
      rw [wp_bind, wp_load]
      cases hi : firstFreeInode m'' with
      | none =>
        refine .refused fun slot i hc => ?_
        rw [hc.inode] at hi
        cases hi
      | some i => exact createInode_counted hS hacc ⟨hok.1, hok.2, habsent, hfree, hi⟩

/-! ## Delete -/

/-- The disk after the loop of `fs_delete` that clears the entry of inode `i`, begun with request `n`. -/
def clearedAt (f : Nat → Bool) (n : Nat) (d : Nat → Sector) (i : Nat) : Nat → Sector :=
  match firstServed f n (refersTo d i) with
  | none => d
  | some k => if f (n + k + 1) = false ∧ f (n + k + 2) = false then withEntry d k .zero else d

/-- The outcomes of `fs_delete`, with the requests that decide. The bitmap is saved by the 32
requests after the scan, the inode by the next two. -/
inductive DeletedAt (f : Nat → Bool) (n : Nat) (d : Nat → Sector) (m : FsMem) (name : CStr) :
    Int → (Nat → Sector) → FsMem → Prop
  | refused : (m.filesystemReady = true → validName name = true → firstServed f n (named d name) = none) →
      DeletedAt f n d m name 0 d m
  | unsaved (k : Nat) (d' : Nat → Sector) : m.filesystemReady = true → validName name = true →
      firstServed f n (named d name) = some k → (∃ q < 34, f (n + k + 1 + q) = true) →
      (∀ l, ¬ (1 ≤ l ∧ l < 97) → d' l = d l) →
      DeletedAt f n d m name 0 d' (releaseInode m (entryAt d k).inode)
  | saved (k : Nat) (d' : Nat → Sector) : m.filesystemReady = true → validName name = true →
      firstServed f n (named d name) = some k → (∀ q < 34, f (n + k + 1 + q) = false) →
      (∀ l, ¬ (1 ≤ l ∧ l < 97) → d' l = d l) →
      DeletedAt f n d m name 1 (clearedAt f (n + k + 35) d' (entryAt d k).inode) (releaseInode m (entryAt d k).inode)

theorem clearEntry_counted (hroot : m.inode 0 = rootInode 32) (hacc : ∀ lba, 97 ≤ lba → lba < 129 → acc lba) (i : Nat) :
    ((List.range dirSlots).findSomeM? fun slot => do
      match ← dirReadEntry slot with
      | none => pure none
      | some entry =>
        if entry.used ≠ 0 ∧ entry.inode = i then
          let _ ← dirWriteEntry slot .zero
          pure (some ())
        else pure none : FsM (Option Unit)).wp (counted acc f)
      (fun _ g' m' => m' = m ∧ g'.2 = clearedAt f n d i) (n, d) m := by
  refine dirSearch_counted (p := refersTo d i) hroot hacc (fun j hj hno => ?_) (fun hnone => ?_) fun k hk => ?_
  · exact if_neg (decide_eq_false_iff_not.1 hno)
  · rw [clearedAt, hnone]
    exact ⟨rfl, rfl⟩
  · obtain ⟨hlt, href, -⟩ := firstServed_some hk
    rw [if_pos (of_decide_eq_true href), clearedAt, hk]
    refine (dirWriteEntry_counted hroot hacc hlt .zero).seq ?_
    rintro ok ⟨k', d'⟩ m' ⟨rfl, hwrite⟩
    refine ⟨rfl, rfl, ?_⟩
    dsimp only
    split at hwrite
    · rename_i hserved
      rw [if_pos hserved]
      exact congrArg Prod.snd hwrite.2
    · rename_i hserved
      rw [if_neg hserved]
      exact hwrite.2

/-- The end of `fs_delete`, with the bitmap saved. -/
theorem deleteEntry_counted {name : CStr} {k : Nat} (hS : Sound N d m) (hacc : ∀ lba < N, acc lba)
    (hready : m.filesystemReady = true) (hvalid : validName name = true)
    (hfound : firstServed f n (named d name) = some k) (hbitmap : ∀ q < 32, f (n + k + 1 + q) = false) :
    (do if !(← saveInode (entryAt d k).inode) then pure 0
        else
          let _ ← (List.range dirSlots).findSomeM? fun slot => do
            match ← dirReadEntry slot with
            | none => pure none
            | some entry =>
              if entry.used ≠ 0 ∧ entry.inode = (entryAt d k).inode then
                let _ ← dirWriteEntry slot .zero
                pure (some ())
              else pure none
          pure 1 : FsM Int).wp (counted acc f) (fun res g' m' => DeletedAt f n d m name res g'.2 m')
      (n + k + 1 + 32, withBitmap d (releaseInode m (entryAt d k).inode)) (releaseInode m (entryAt d k).inode) := by
  have hN := hS.lo
  obtain ⟨hk, hname, -⟩ := firstServed_some hfound
  obtain ⟨hlo, hhi⟩ := hS.entries k hk (of_decide_eq_true hname).1
  have hrel := hS.release (i := (entryAt d k).inode) (by omega)
  refine (saveInode_counted (fun lba _ _ => hacc lba (by omega)) hhi).seq ?_
  rintro ok ⟨k₂, d₂⟩ m₂ ⟨rfl, hsave⟩
  split at hsave
  · rename_i hinode
    obtain ⟨rfl, hg⟩ := hsave
    obtain ⟨rfl, rfl⟩ := Prod.mk.injEq .. ▸ hg
    rw [if_neg (by simp)]
    refine (clearEntry_counted hrel.root (fun lba _ _ => hacc lba (by omega)) _).seq ?_
    rintro _ ⟨k₃, d₃⟩ m₃ ⟨rfl, hd₃⟩
    obtain rfl : d₃ = _ := hd₃
    refine .saved k _ hready hvalid hfound (fun q hq => ?_) fun l hl => ?_
    · rcases (show q < 32 ∨ q = 32 ∨ q = 33 by omega) with hq | rfl | rfl
      · exact hbitmap q hq
      · exact hinode.1
      · exact hinode.2
    · rw [withInode, Function.update_of_ne (by omega), withBitmap_agree _ _ _ (by omega)]
  · rename_i hinode
    obtain ⟨rfl, hd₂⟩ := hsave
    obtain rfl : d₂ = withBitmap d (releaseInode m (entryAt d k).inode) := hd₂
    rw [if_pos (by simp)]
    refine .unsaved k _ hready hvalid hfound ?_ fun l hl => withBitmap_agree _ _ _ (by omega)
    by_contra hno
    push Not at hno
    exact hinode ⟨by simpa using hno 32 (by omega), by simpa using hno 33 (by omega)⟩

theorem fsDelete_counted (name : CStr) (hS : Sound N d m) (hacc : ∀ lba < N, acc lba) :
    (fsDelete name).wp (counted acc f) (fun res g' m' => DeletedAt f n d m name res g'.2 m') (n, d) m := by
  have hN := hS.lo
  unfold fsDelete
  rw [wp_bind, wp_load]
  split
  · rename_i hno
    refine .refused fun h1 h2 => ?_
    simp [h1, h2] at hno
  rename_i hok
  simp only [Bool.or_eq_true, Bool.not_eq_true', not_or, Bool.not_eq_false] at hok
  refine (findDirEntry_counted hS.root (fun lba _ _ => hacc lba (by omega)) name).seq ?_
  rintro res g' m' ⟨rfl, hres⟩
  change match firstServed f n (named d name) with | none => _ | some k => _ at hres
  cases hfound : firstServed f n (named d name) with
  | none =>
    rw [hfound] at hres
    obtain ⟨rfl, rfl⟩ := hres
    rw [if_pos (by omega)]
    exact .refused fun _ _ => hfound
  | some k =>
    rw [hfound] at hres
    obtain ⟨rfl, rfl⟩ := hres
    obtain ⟨hk, hname, -⟩ := firstServed_some hfound
    obtain ⟨hlo, hhi⟩ := hS.entries k hk (of_decide_eq_true hname).1
    rw [int32_of_lt hhi, if_neg (by omega), wp_bind, wp_modify, Int.toNat_natCast]
    refine (saveBitmap_counted fun lba _ _ => hacc lba (by omega)).seq ?_
    rintro ok ⟨k₁, d₁⟩ m₁ ⟨rfl, hagree, hserved, hfailed⟩
    have hagree : AgreeOffBitmap d d₁ := hagree
    by_cases hbitmap : ∃ q < 32, f (n + k + 1 + q) = true
    · rw [hfailed hbitmap, if_pos (by simp)]
      obtain ⟨q, hq, hf⟩ := hbitmap
      exact .unsaved k d₁ hok.1 hok.2 hfound ⟨q, by omega, hf⟩ fun l hl => hagree l (by omega)
    · push Not at hbitmap
      have hbitmap : ∀ q < 32, f (n + k + 1 + q) = false := fun q hq => by simpa using hbitmap q hq
      obtain ⟨rfl, hg⟩ := hserved hbitmap
      obtain ⟨rfl, rfl⟩ := Prod.mk.injEq .. ▸ hg
      rw [if_neg (by simp)]
      exact deleteEntry_counted hS hacc hok.1 hok.2 hfound hbitmap

end

end SpectreOS
