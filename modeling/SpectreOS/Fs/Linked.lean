/-
The directory of a well-kept filesystem (`Paired`): every entry holds a valid name that no other
entry has and an inode in use that no other entry has. On a filesystem on which nothing has failed,
every inode in use is some entry's as well (`Linked`). Creating and deleting files keep it so, and
change what the directory says of no other name.
-/
import SpectreOS.Fs.Names

namespace SpectreOS

open BlockIO Prog

section

variable {N : Nat} {d d' : Nat → Sector} {m m' : FsMem} {name : CStr}

/-- Every entry has a name and an inode in use of its own. -/
structure Paired (d : Nat → Sector) (m : FsMem) : Prop where
  named : ∀ slot < slotCount, (entryAt d slot).used ≠ 0 →
    ∃ n, validName n = true ∧ entryAt d slot = newEntry n (entryAt d slot).inode
  unique : ∀ slot < slotCount, ∀ slot' < slotCount, ∀ n, (entryAt d slot).hasName n → (entryAt d slot').hasName n →
    slot = slot'
  file : ∀ slot < slotCount, (entryAt d slot).used ≠ 0 → (m.inode (entryAt d slot).inode).mode = fsModeFile
  once : ∀ slot < slotCount, ∀ slot' < slotCount, (entryAt d slot).used ≠ 0 → (entryAt d slot').used ≠ 0 →
    (entryAt d slot).inode = (entryAt d slot').inode → slot = slot'

/-- Besides, every inode in use is some entry's. -/
structure Linked (d : Nat → Sector) (m : FsMem) : Prop extends Paired d m where
  listed : ∀ i, 0 < i → (m.inode i).mode = fsModeFile →
    ∃ slot < slotCount, (entryAt d slot).used ≠ 0 ∧ (entryAt d slot).inode = i

theorem hasName_newEntry {n : CStr} (hn : validName n = true) (i : Nat) : (newEntry n i).hasName name ↔ name = n :=
  ⟨fun h => (strEqual_newEntry hn i name).1 h.2, fun h => ⟨by simp [newEntry], (strEqual_newEntry hn i name).2 h⟩⟩

theorem Vacant.linked (h : Vacant d m) : Linked d m := by
  refine ⟨⟨fun slot hs hu => absurd (h.entries slot hs) hu, fun slot hs _ _ _ hn => absurd (h.entries slot hs) hn.1,
    fun slot hs hu => absurd (h.entries slot hs) hu, fun slot hs _ _ hu => absurd (h.entries slot hs) hu⟩,
    fun i hi hm => ?_⟩
  rw [h.inodes i hi] at hm
  cases hm

theorem Paired.congr (h : Paired d m) (he : ∀ slot < slotCount, entryAt d' slot = entryAt d slot)
    (hm : ∀ slot < slotCount, (entryAt d slot).used ≠ 0 →
      (m'.inode (entryAt d slot).inode).mode = (m.inode (entryAt d slot).inode).mode) : Paired d' m' := by
  refine ⟨fun slot hs hu => ?_, fun slot hs slot' hs' n hn hn' => ?_, fun slot hs hu => ?_,
    fun slot hs slot' hs' hu hu' e => ?_⟩
  · rw [he slot hs] at hu ⊢
    exact h.named slot hs hu
  · rw [he slot hs] at hn
    rw [he slot' hs'] at hn'
    exact h.unique slot hs slot' hs' n hn hn'
  · rw [he slot hs] at hu ⊢
    rw [hm slot hs hu]; exact h.file slot hs hu
  · rw [he slot hs] at hu e
    rw [he slot' hs'] at hu' e
    exact h.once slot hs slot' hs' hu hu' e

theorem Linked.congr (h : Linked d m) (he : ∀ slot < slotCount, entryAt d' slot = entryAt d slot)
    (hm : ∀ j, (m'.inode j).mode = (m.inode j).mode) : Linked d' m' := by
  refine ⟨h.toPaired.congr he fun _ _ _ => hm _, fun i hi hmode => ?_⟩
  rw [hm] at hmode
  obtain ⟨slot, hs, hu, e⟩ := h.listed i hi hmode
  exact ⟨slot, hs, by rw [he slot hs]; exact hu, by rw [he slot hs]; exact e⟩

/-- The file of a name is the inode of its only entry. -/
theorem Paired.lookup_iff (h : Paired d m) {i : Nat} : lookup d name = some i ↔
    ∃ slot < slotCount, (entryAt d slot).hasName name ∧ (entryAt d slot).inode = i := by
  rw [lookup_eq_some]
  constructor
  · rintro ⟨slot, hs, hn, -, e⟩
    exact ⟨slot, hs, hn, e⟩
  · rintro ⟨slot, hs, hn, e⟩
    refine ⟨slot, hs, hn, fun j hj hnj => ?_, e⟩
    have := h.unique j (by omega) slot hs name hnj hn
    omega

theorem Paired.lookup_valid (h : Paired d m) {i : Nat} (hl : lookup d name = some i) : validName name = true := by
  obtain ⟨slot, hs, hn, -⟩ := h.lookup_iff.1 hl
  obtain ⟨n, hv, e⟩ := h.named slot hs hn.1
  rw [e] at hn
  rwa [(hasName_newEntry hv _).1 hn]

/-- Two names have two inodes. -/
theorem Paired.lookup_inj (h : Paired d m) {name' : CStr} {i : Nat} (hl : lookup d name = some i)
    (hl' : lookup d name' = some i) : name = name' := by
  obtain ⟨slot, hs, hn, e⟩ := h.lookup_iff.1 hl
  obtain ⟨slot', hs', hn', e'⟩ := h.lookup_iff.1 hl'
  obtain rfl := h.once slot hs slot' hs' hn.1 hn'.1 (e.trans e'.symm)
  obtain ⟨n, hv, e₁⟩ := h.named slot hs hn.1
  rw [e₁] at hn hn'
  rw [(hasName_newEntry hv _).1 hn, (hasName_newEntry hv _).1 hn']

/-- Every inode in use is a file's. -/
theorem Linked.lookup_listed (h : Linked d m) {i : Nat} (hi : 0 < i) (hm : (m.inode i).mode = fsModeFile) :
    ∃ n, lookup d n = some i := by
  obtain ⟨slot, hs, hu, e⟩ := h.listed i hi hm
  obtain ⟨n, hv, e₁⟩ := h.named slot hs hu
  refine ⟨n, h.lookup_iff.2 ⟨slot, hs, ?_, e⟩⟩
  rw [e₁]
  exact (hasName_newEntry hv _).2 rfl

theorem Paired.lookup_file (h : Paired d m) {i : Nat} (hl : lookup d name = some i) :
    (m.inode i).mode = fsModeFile := by
  obtain ⟨slot, hs, hn, rfl⟩ := h.lookup_iff.1 hl
  exact h.file slot hs hn.1

/-! ## Create -/

/-- The directory after a successful `fs_create`. -/
theorem entryAt_created {i slot : Nat} (hi : i < 128) :
    entryAt (withEntry (withInode d i .fresh) slot (newEntry name i)) slot = newEntry name i ∧
      ∀ j, j ≠ slot → entryAt (withEntry (withInode d i .fresh) slot (newEntry name i)) j = entryAt d j := by
  refine ⟨entryAt_withEntry _ slot (by simp only [newEntry]; omega) (by simp [newEntry]), fun j hj => ?_⟩
  have hd : withInode d i .fresh (97 + j / 9) = d (97 + j / 9) := Function.update_of_ne (by omega) _ _
  rw [entryAt_withEntry_of_ne _ hj, entryAt_congr hd]

/-- A free inode is no entry's. -/
theorem Paired.firstFreeInode_ne (h : Paired d m) {i : Nat} (hi : firstFreeInode m = some i) {slot : Nat}
    (hs : slot < slotCount) (hu : (entryAt d slot).used ≠ 0) : (entryAt d slot).inode ≠ i := by
  intro e
  have hfile := h.file slot hs hu
  rw [e, (firstFreeInode_some hi).2.1] at hfile
  cases hfile

theorem Paired.created {i slot : Nat} (h : Paired d m) (hn : validName name = true)
    (hno : ∀ j < slotCount, ¬ (entryAt d j).hasName name) (hi : firstFreeInode m = some i) :
    Paired (withEntry (withInode d i .fresh) slot (newEntry name i)) (setInode m i .fresh) := by
  obtain ⟨-, -, i3⟩ := firstFreeInode_some hi
  obtain ⟨hnew, hold⟩ := @entryAt_created d name i slot i3
  generalize withEntry (withInode d i .fresh) slot (newEntry name i) = d₁ at hnew hold
  refine ⟨fun j hj hu => ?_, fun j hj j' hj' n hn₁ hn₂ => ?_, fun j hj hu => ?_, fun j hj j' hj' hu hu' e => ?_⟩
  · by_cases hjs : j = slot
    · subst hjs
      rw [hnew]
      exact ⟨name, hn, rfl⟩
    · rw [hold j hjs] at hu ⊢
      exact h.named j hj hu
  · -- the new name is no old entry's
    by_cases hjs : j = slot
    · by_cases hjs' : j' = slot
      · rw [hjs, hjs']
      · rw [hjs, hnew, hasName_newEntry hn] at hn₁
        rw [hold j' hjs', hn₁] at hn₂
        exact absurd hn₂ (hno j' hj')
    · rw [hold j hjs] at hn₁
      by_cases hjs' : j' = slot
      · rw [hjs', hnew, hasName_newEntry hn] at hn₂
        rw [hn₂] at hn₁
        exact absurd hn₁ (hno j hj)
      · rw [hold j' hjs'] at hn₂
        exact h.unique j hj j' hj' n hn₁ hn₂
  · rw [inode_setInode]
    by_cases hjs : j = slot
    · subst hjs
      rw [hnew, if_pos ⟨rfl, i3⟩]; rfl
    · rw [hold j hjs] at hu ⊢
      rw [if_neg (fun hc => h.firstFreeInode_ne hi hj hu hc.1)]
      exact h.file j hj hu
  · by_cases hjs : j = slot
    · by_cases hjs' : j' = slot
      · rw [hjs, hjs']
      · rw [hjs, hnew, hold j' hjs'] at e
        rw [hold j' hjs'] at hu'
        exact absurd e.symm (h.firstFreeInode_ne hi hj' hu')
    · rw [hold j hjs] at hu e
      by_cases hjs' : j' = slot
      · rw [hjs', hnew] at e
        exact absurd e (h.firstFreeInode_ne hi hj hu)
      · rw [hold j' hjs'] at hu' e
        exact h.once j hj j' hj' hu hu' e

theorem Linked.created {i slot : Nat} (h : Linked d m) (hn : validName name = true)
    (hno : ∀ j < slotCount, ¬ (entryAt d j).hasName name) (hs : slot < slotCount) (hfree : (entryAt d slot).used = 0)
    (hi : firstFreeInode m = some i) :
    Linked (withEntry (withInode d i .fresh) slot (newEntry name i)) (setInode m i .fresh) := by
  refine ⟨h.toPaired.created hn hno hi, fun k hk hmode => ?_⟩
  obtain ⟨hnew, hold⟩ := @entryAt_created d name i slot (firstFreeInode_some hi).2.2
  generalize withEntry (withInode d i .fresh) slot (newEntry name i) = d₁ at hnew hold
  by_cases hki : k = i
  · exact ⟨slot, hs, by rw [hnew]; simp [newEntry], by rw [hnew, hki]; rfl⟩
  · rw [inode_setInode, if_neg (fun hc => hki hc.1)] at hmode
    obtain ⟨j, hj, hu, e⟩ := h.listed k hk hmode
    have hjs : j ≠ slot := by
      rintro rfl; exact hu hfree
    exact ⟨j, hj, by rw [hold j hjs]; exact hu, by rw [hold j hjs]; exact e⟩

/-- The new file, and no other change. -/
theorem Paired.lookup_created {i slot : Nat} (h : Paired d m) (hn : validName name = true)
    (hno : ∀ j < slotCount, ¬ (entryAt d j).hasName name) (hs : slot < slotCount) (hfree : (entryAt d slot).used = 0)
    (hi : firstFreeInode m = some i) (n : CStr) :
    lookup (withEntry (withInode d i .fresh) slot (newEntry name i)) n = if n = name then some i else lookup d n := by
  have h' : Paired (withEntry (withInode d i .fresh) slot (newEntry name i)) (setInode m i .fresh) :=
    h.created hn hno hi
  obtain ⟨hnew, hold⟩ := @entryAt_created d name i slot (firstFreeInode_some hi).2.2
  generalize withEntry (withInode d i .fresh) slot (newEntry name i) = d₁ at hnew hold h'
  split
  · rename_i e
    exact h'.lookup_iff.2 ⟨slot, hs, by rw [hnew]; exact (hasName_newEntry hn i).2 e, by rw [hnew]; rfl⟩
  · rename_i hne
    cases hl : lookup d n with
    | none =>
      rw [lookup_eq_none] at hl ⊢
      intro j hj
      by_cases hjs : j = slot
      · rw [hjs, hnew, hasName_newEntry hn]; exact hne
      · rw [hold j hjs]; exact hl j hj
    | some k =>
      obtain ⟨j, hj, hnj, e⟩ := h.lookup_iff.1 hl
      have hjs : j ≠ slot := by
        rintro rfl; exact hnj.1 hfree
      exact h'.lookup_iff.2 ⟨j, hj, by rw [hold j hjs]; exact hnj, by rw [hold j hjs]; exact e⟩

/-! ## Delete -/

/-- The directory after a successful `fs_delete`. -/
theorem entryAt_deleted {m : FsMem} {n : Inode} {i slot : Nat} (hi : i < 128) :
    entryAt (withEntry (withInode (withBitmap d m) i n) slot .zero) slot = .zero ∧
      ∀ j, j ≠ slot → entryAt (withEntry (withInode (withBitmap d m) i n) slot .zero) j = entryAt d j := by
  refine ⟨entryAt_withEntry _ slot (by simp [Dirent.zero]) (by simp [Dirent.zero]), fun j hj => ?_⟩
  rw [entryAt_withEntry_of_ne _ hj, entryAt_congr]
  rw [withInode, Function.update_of_ne (by omega), withBitmap_agree _ _ _ (by omega)]

/-- Clearing an entry and releasing its inode. -/
theorem Paired.cleared {slot : Nat} (h : Paired d m) (hS : Sound N d m) (hs : slot < slotCount)
    (hu : (entryAt d slot).used ≠ 0) (hnew : entryAt d' slot = .zero)
    (hold : ∀ j, j ≠ slot → entryAt d' j = entryAt d j) : Paired d' (releaseInode m (entryAt d slot).inode) := by
  obtain ⟨q1, -⟩ := releaseInode_spec m (entryAt d slot).inode hS.owned.totalHi
  have hne : ∀ j, (entryAt d' j).used ≠ 0 → j ≠ slot := by
    rintro j hj rfl
    rw [hnew] at hj
    exact hj rfl
  refine ⟨fun j hj hu' => ?_, fun j hj j' hj' n hn₁ hn₂ => ?_, fun j hj hu' => ?_, fun j hj j' hj' hu₁ hu₂ e => ?_⟩
  · have hjs := hne j hu'
    rw [hold j hjs] at hu' ⊢
    exact h.named j hj hu'
  · rw [hold j (hne j hn₁.1)] at hn₁
    rw [hold j' (hne j' hn₂.1)] at hn₂
    exact h.unique j hj j' hj' n hn₁ hn₂
  · have hjs := hne j hu'
    rw [hold j hjs] at hu' ⊢
    rw [q1, if_neg (fun hc => hjs (h.once j hj slot hs hu' hu hc.1))]
    exact h.file j hj hu'
  · have hjs := hne j hu₁
    have hjs' := hne j' hu₂
    rw [hold j hjs] at hu₁ e
    rw [hold j' hjs'] at hu₂ e
    exact h.once j hj j' hj' hu₁ hu₂ e

theorem Linked.cleared {slot : Nat} (h : Linked d m) (hS : Sound N d m) (hs : slot < slotCount)
    (hu : (entryAt d slot).used ≠ 0) (hnew : entryAt d' slot = .zero)
    (hold : ∀ j, j ≠ slot → entryAt d' j = entryAt d j) : Linked d' (releaseInode m (entryAt d slot).inode) := by
  refine ⟨h.toPaired.cleared hS hs hu hnew hold, fun k hk hmode => ?_⟩
  obtain ⟨q1, -⟩ := releaseInode_spec m (entryAt d slot).inode hS.owned.totalHi
  by_cases hki : k = (entryAt d slot).inode
  · rw [q1, if_pos ⟨hki, (hS.entries slot hs hu).2⟩] at hmode
    cases hmode
  · rw [q1, if_neg (fun hc => hki hc.1)] at hmode
    obtain ⟨j, hj, huj, e⟩ := h.listed k hk hmode
    have hjs : j ≠ slot := by
      rintro rfl
      exact hki e.symm
    exact ⟨j, hj, by rw [hold j hjs]; exact huj, by rw [hold j hjs]; exact e⟩

/-- The deleted file, and no other change. -/
theorem Paired.lookup_cleared {slot : Nat} (h : Paired d m) (hs : slot < slotCount)
    (hname : (entryAt d slot).hasName name) (hnew : entryAt d' slot = .zero)
    (hold : ∀ j, j ≠ slot → entryAt d' j = entryAt d j) (h' : Paired d' m') (n : CStr) :
    lookup d' n = if n = name then none else lookup d n := by
  have hz : ¬ Dirent.zero.hasName n := fun hn => hn.1 rfl
  split
  · rename_i e
    subst e
    rw [lookup_eq_none]
    intro j hj hnj
    by_cases hjs : j = slot
    · rw [hjs, hnew] at hnj; exact hz hnj
    · rw [hold j hjs] at hnj
      exact hjs (h.unique j hj slot hs n hnj hname)
  · rename_i hne
    cases hl : lookup d n with
    | none =>
      rw [lookup_eq_none] at hl ⊢
      intro j hj
      by_cases hjs : j = slot
      · rw [hjs, hnew]; exact hz
      · rw [hold j hjs]; exact hl j hj
    | some k =>
      obtain ⟨j, hj, hnj, e⟩ := h.lookup_iff.1 hl
      have hjs : j ≠ slot := by
        rintro rfl
        obtain ⟨n₀, hv, e₀⟩ := h.named j hj hnj.1
        rw [e₀] at hnj hname
        exact hne (((hasName_newEntry hv _).1 hnj).trans ((hasName_newEntry hv _).1 hname).symm)
      exact h'.lookup_iff.2 ⟨j, hj, by rw [hold j hjs]; exact hnj, by rw [hold j hjs]; exact e⟩

/-! ## Outcomes by name -/

/-- There are fewer inodes than slots, so a slot is free. -/
theorem Linked.exists_unused (h : Linked d m) (hS : Sound N d m) : ∃ slot < slotCount, (entryAt d slot).used = 0 := by
  by_contra hno
  push Not at hno
  have hle := Finset.card_le_card_of_injOn (fun slot => (entryAt d slot).inode) (s := Finset.range slotCount)
    (t := Finset.Ico 1 128) (fun slot hs => ?_) fun slot hs slot' hs' e => ?_
  · rw [Finset.card_range, Nat.card_Ico] at hle
    simp only [slotCount] at hle
    omega
  · rw [Finset.coe_range, Set.mem_Iio] at hs
    simpa using hS.entries slot hs (hno slot hs)
  · rw [Finset.coe_range, Set.mem_Iio] at hs hs'
    exact h.once slot hs slot' hs' (hno slot hs) (hno slot' hs') e

/-- `fs_create` by name. -/
theorem Linked.create_cases {res : Int} (h : Linked d m) (hS : Sound N d m) (hr : m.filesystemReady = true)
    (hc : Created false false d m name res d' m') :
    (res = 0 ∧ d' = d ∧ m' = m ∧
      (validName name = false ∨ lookup d name ≠ none ∨ firstFreeInode m = none)) ∨
    ∃ i, res = 1 ∧ validName name = true ∧ lookup d name = none ∧ firstFreeInode m = some i ∧
      m' = setInode m i .fresh ∧ (∀ n, lookup d' n = if n = name then some i else lookup d n) ∧
      ∀ l, 129 ≤ l → d' l = d l := by
  cases hc with
  | refused hwhy =>
    refine .inl ⟨rfl, rfl, rfl, ?_⟩
    cases hv : validName name with
    | false => exact .inl rfl
    | true =>
      right
      rcases hwhy rfl hr hv with ⟨slot, hs, hn⟩ | hfull | hnone
      · refine .inl fun e => ?_
        rw [lookup_eq_none] at e
        exact e slot hs hn
      · obtain ⟨slot, hs, hu⟩ := h.exists_unused hS
        exact absurd hu (hfull slot hs)
      · exact .inr hnone
  | unsaved _ _ hrw => simp at hrw
  | undone _ _ _ hrw => simp at hrw
  | done i slot _ hn hno hs hu hi =>
    refine .inr ⟨i, rfl, hn, lookup_eq_none.2 (hno rfl), hi, rfl,
      h.lookup_created hn (hno rfl) hs hu hi, fun l hl => ?_⟩
    have hi' := (firstFreeInode_some hi).2.2
    rw [withEntry_of_ne _ _ _ (by simp only [slotCount] at hs; omega), withInode, Function.update_of_ne (by omega)]

/-- `fs_delete` by name. -/
theorem Linked.delete_cases {res : Int} (h : Linked d m) (hS : Sound N d m) (hr : m.filesystemReady = true)
    (hc : Deleted false false d m name res d' m') :
    (res = 0 ∧ d' = d ∧ m' = m ∧ lookup d name = none) ∨
    ∃ i, res = 1 ∧ lookup d name = some i ∧ m' = releaseInode m i ∧
      (∀ n, lookup d' n = if n = name then none else lookup d n) ∧ ∀ l, 129 ≤ l → d' l = d l := by
  cases hc with
  | refused hwhy =>
    refine .inl ⟨rfl, rfl, rfl, ?_⟩
    cases hl : lookup d name with
    | none => rfl
    | some i =>
      rw [← hl, lookup_eq_none]
      exact hwhy rfl hr (h.lookup_valid hl)
  | unsaved _ _ _ _ hrw => simp at hrw
  | kept _ _ _ _ hrw => simp at hrw
  | done slot slot' _ _ hs hname _ hs' hu' e' _ =>
    obtain rfl := h.once slot' hs' slot hs hu' hname.1 e'
    have hi := (hS.entries slot' hs' hu').2
    obtain ⟨hnew, hold⟩ := @entryAt_deleted d (releaseInode m (entryAt d slot').inode)
      ((releaseInode m (entryAt d slot').inode).inode (entryAt d slot').inode) _ slot' hi
    refine .inr ⟨_, rfl, h.lookup_iff.2 ⟨slot', hs', hname, rfl⟩, rfl,
      h.lookup_cleared hs' hname hnew hold (h.cleared hS hs' hu' hnew hold).toPaired, fun l hl => ?_⟩
    rw [withEntry_of_ne _ _ _ (by simp only [slotCount] at hs; omega), withInode, Function.update_of_ne (by omega),
      withBitmap_agree _ _ _ (by omega)]

/-- `fs_open` by name. -/
theorem Linked.open_cases {res : Int} (h : Linked d m) (hr : m.filesystemReady = true)
    (hc : Opened false d m name res m') :
    (res = -1 ∧ m' = m ∧ (lookup d name = none ∨ ∀ fd < 16, 0 ≤ (m.handles fd).inode)) ∨
    ∃ i fd, res = (fd : Nat) ∧ lookup d name = some i ∧ fd < 16 ∧ (m.handles fd).inode < 0 ∧
      (∀ j < fd, 0 ≤ (m.handles j).inode) ∧ m' = setHandle m fd ⟨i, 0⟩ := by
  cases hc with
  | refused hwhy =>
    refine .inl ⟨rfl, rfl, ?_⟩
    cases hl : lookup d name with
    | none => exact .inl rfl
    | some i =>
      refine (hwhy rfl hr (h.lookup_valid hl)).imp (fun hno => ?_) id
      rw [← lookup_eq_none, hl] at hno
      cases hno
  | done slot fd _ _ hs hname _ hfd hneg hfirst =>
    exact .inr ⟨_, fd, rfl, h.lookup_iff.2 ⟨slot, hs, hname, rfl⟩, hfd, hneg, hfirst, rfl⟩

/-! ## Runs -/

/-- Without failures every call keeps the directory linked. -/
theorem CallEffect.linked {call : Call} {ret : Ret} (hS : Sound N d m) (h : Linked d m)
    (hc : CallEffect false false d m call ret d' m') : Linked d' m' := by
  cases call with
  | create name =>
    obtain ⟨-, hc⟩ := hc
    generalize ret.val = v at hc
    cases hc with
    | refused => exact h
    | done i slot _ hn hno hs hu hi => exact h.created hn (hno rfl) hs hu hi
    | unsaved _ _ hrw => simp at hrw
    | undone _ _ _ hrw => simp at hrw
  | delete name =>
    obtain ⟨-, hc⟩ := hc
    generalize ret.val = v at hc
    cases hc with
    | refused => exact h
    | unsaved _ _ _ _ hrw => simp at hrw
    | kept _ _ _ _ hrw => simp at hrw
    | done slot slot' _ _ hs hname _ hs' hu' e' _ =>
      obtain rfl := h.once slot' hs' slot hs hu' hname.1 e'
      obtain ⟨hnew, hold⟩ := @entryAt_deleted d (releaseInode m (entryAt d slot').inode)
        ((releaseInode m (entryAt d slot').inode).inode (entryAt d slot').inode) _ slot' (hS.entries slot' hs' hu').2
      exact h.cleared hS hs hu' hnew hold
  | exist name => obtain ⟨rfl, rfl, -⟩ := hc; exact h
  | «open» name =>
    obtain ⟨rfl, -, hc⟩ := hc
    generalize ret.val = v at hc
    cases hc with
    | refused => exact h
    | done => exact h.congr (fun _ _ => rfl) fun _ => rfl
  | close fd =>
    obtain ⟨rfl, -, hc⟩ := hc
    split at hc
    · rw [hc.2]; exact h.congr (fun _ _ => rfl) fun _ => rfl
    · rw [hc.2]; exact h
  | read fd buffer size =>
    obtain ⟨rfl, hc⟩ := hc
    exact h.congr (fun _ _ => rfl) fun j => by rw [hc.frame.1]
  | write fd buffer =>
    obtain ⟨h1, h2, -⟩ := hc.2.frame hS
    exact h.congr h1 h2
  | list buffer size => obtain ⟨rfl, rfl⟩ := hc; exact h

theorem Live.linked {cp : Primitives} {s : Conf FsMem Machine} (h : Live cp N false false s)
    (hl : Linked (logicalDisk cp s.dev) s.mem) (calls : List Call) :
    Linked (logicalDisk cp (SpectreOS.runCalls (fsDisk cp) calls s).2.dev)
      (SpectreOS.runCalls (fsDisk cp) calls s).2.mem :=
  (h.runCalls_all (J := Linked) (fun _ _ _ _ _ _ hS hJ hc => hc.linked hS hJ) calls hl).2

end

end SpectreOS
