/-
What each file operation does to memory and disk, on a disk with known contents whose requests may
fail: one relation per operation lists its outcomes with the reason for each (`Created`, `Deleted`,
`Opened`, `ReadFrom`, `WroteTo`). All of them keep the well-formedness of the filesystem (`Sound`):
directory entries and handles refer to inodes 1 to 127, and every field fits its word.
-/
import SpectreOS.Fs.Directory
import SpectreOS.Fs.Content
import SpectreOS.Fs.Boot

namespace SpectreOS

open BlockIO Prog

/-- A well-formed filesystem on a disk with the contents `d`. -/
structure Sound (N : Nat) (d : Nat → Sector) (m : FsMem) : Prop where
  lo : 129 < N
  total : m.superblock.totalSectors = N
  owned : Owned m
  root : m.inode 0 = rootInode 32
  entries : ∀ slot < slotCount, (entryAt d slot).used ≠ 0 → 1 ≤ (entryAt d slot).inode ∧ (entryAt d slot).inode < 128
  handles : ∀ fd < 16, (m.handles fd).inode = -1 ∨ 1 ≤ (m.handles fd).inode ∧ (m.handles fd).inode < 128
  positions : ∀ fd < 16, (m.handles fd).position ≤ 16384
  sizes : ∀ i, (m.inode i).size ≤ 16384
  modes : ∀ i, (m.inode i).mode ≤ 1
  reserved : ∀ i k, (m.inode i).reserved k = 0

theorem int32_of_lt {x : Nat} (h : x < 128) : int32 x = x := by
  unfold int32
  rw [Nat.mod_eq_of_lt (by omega), if_pos (by omega)]

namespace Sound

variable {N : Nat} {d : Nat → Sector} {m : FsMem}

theorem fits (h : Sound N d m) (i : Nat) : (m.inode i).Fits := by
  intro k
  match k with
  | 0 => have := h.modes i; simp only [Inode.word]; omega
  | 1 => have := h.sizes i; simp only [Inode.word]; omega
  | 2 =>
    simp only [Inode.word]
    rw [h.owned.blocks i]
    have := held_le (m.inode i); omega
  | k + 3 =>
    simp only [Inode.word]
    split
    · rename_i hk
      by_cases h0 : (m.inode i).direct ⟨k, hk⟩ = 0
      · rw [h0]; omega
      · have h1 := (h.owned.range i _ h0).2.1
        have h2 := h.owned.totalHi
        omega
    · split
      · rw [h.reserved]; omega
      · omega

/-- A used entry's inode number is its value as an `int`. -/
theorem int32_inode (h : Sound N d m) {slot : Nat} (hs : slot < slotCount) (hu : (entryAt d slot).used ≠ 0) :
    int32 (entryAt d slot).inode = (entryAt d slot).inode := int32_of_lt (h.entries slot hs hu).2

/-- Only the disk's directory matters. -/
theorem congr_disk {d' : Nat → Sector} (h : Sound N d m) (hd : ∀ l, 97 ≤ l → l < 129 → d' l = d l) :
    Sound N d' m := by
  refine ⟨h.lo, h.total, h.owned, h.root, fun slot hs => ?_, h.handles, h.positions, h.sizes, h.modes, h.reserved⟩
  rw [entryAt_congr (hd _ (by omega) (by simp only [slotCount] at hs; omega))]
  exact h.entries slot hs

theorem withEntry (h : Sound N d m) (slot : Nat) {e : Dirent} (hi : e.inode < 128) (hu : e.used < 2 ^ 32)
    (he : e.used ≠ 0 → 1 ≤ e.inode) : Sound N (withEntry d slot e) m := by
  refine ⟨h.lo, h.total, h.owned, h.root, fun slot' hs hused => ?_, h.handles, h.positions, h.sizes, h.modes,
    h.reserved⟩
  by_cases hne : slot' = slot
  · subst hne
    rw [entryAt_withEntry d slot' (by omega) hu] at hused ⊢
    exact ⟨he hused, hi⟩
  · rw [entryAt_withEntry_of_ne d hne] at hused ⊢
    exact h.entries slot' hs hused

/-- A small, empty inode may take any place but the root's. -/
theorem setInode (h : Sound N d m) {i : Nat} (hi : 0 < i) {n : Inode} (hd : n.direct = fun _ => 0)
    (hb : n.blocks = 0) (hsz : n.size = 0) (hm : n.mode ≤ 1) (hr : ∀ k, n.reserved k = 0) :
    Sound N d (setInode m i n) := by
  refine ⟨h.lo, h.total, h.owned.setInode_empty i n hd hb, ?_, h.entries, h.handles, h.positions, fun j => ?_,
    fun j => ?_, fun j k => ?_⟩
  · rw [inode_setInode, if_neg (by omega)]; exact h.root
  · rw [inode_setInode]; split
    · omega
    · exact h.sizes j
  · rw [inode_setInode]; split
    · exact hm
    · exact h.modes j
  · rw [inode_setInode]; split
    · exact hr k
    · exact h.reserved j k

theorem release (h : Sound N d m) {i : Nat} (hi : 0 < i) : Sound N d (releaseInode m i) := by
  obtain ⟨q1, q2, q3, -, -⟩ := releaseInode_spec m i h.owned.totalHi
  refine ⟨h.lo, by rw [q2]; exact h.total, h.owned.release i, ?_, h.entries, by rw [q3]; exact h.handles,
    by rw [q3]; exact h.positions, fun j => ?_, fun j => ?_, fun j k => ?_⟩
  · rw [q1, if_neg (by omega)]; exact h.root
  · rw [q1]; split
    · simp
    · exact h.sizes j
  · rw [q1]; split
    · simp
    · exact h.modes j
  · rw [q1]; split
    · exact h.reserved i k
    · exact h.reserved j k

theorem setHandle (h : Sound N d m) (fd : Nat) {hd : Handle}
    (hi : hd.inode = -1 ∨ 1 ≤ hd.inode ∧ hd.inode < 128) (hp : hd.position ≤ 16384) :
    Sound N d (setHandle m fd hd) := by
  refine ⟨h.lo, h.total, h.owned.congr (fun _ => rfl) rfl rfl, h.root, h.entries, fun fd' hfd => ?_, fun fd' hfd => ?_,
    h.sizes, h.modes, h.reserved⟩
  · unfold SpectreOS.setHandle
    by_cases e : fd' = fd
    · subst e; simpa using hi
    · simpa [e] using h.handles fd' hfd
  · unfold SpectreOS.setHandle
    by_cases e : fd' = fd
    · subst e; simpa using hp
    · simpa [e] using h.positions fd' hfd

end Sound

theorem Fresh.sound {N : Nat} {d : Nat → Sector} {m : FsMem} (h : Fresh N d m) (hO : Owned m) : Sound N d m := by
  have hinode : ∀ i, m.inode i = rootInode 32 ∨ m.inode i = .zero := fun i => by
    rcases Nat.eq_zero_or_pos i with rfl | hi
    · exact .inl h.root
    · exact .inr (h.empty i hi)
  refine ⟨h.lo, h.total, hO, h.root, fun slot hs hu => ?_, fun fd hfd => .inl ?_, fun fd hfd => ?_, fun i => ?_,
    fun i => ?_, fun i k => ?_⟩
  · refine absurd ?_ hu
    unfold entryAt
    rw [h.zeroed _ (by simp only [slotCount] at hs; omega)]
    simp [Dirent.ofImage, wordAt, Block.slice]
  · rw [h.closed fd hfd]; rfl
  · rw [h.closed fd hfd]; simp [Handle.closed]
  · rcases hinode i with e | e <;> rw [e] <;> simp [rootInode, Inode.zero]
  · rcases hinode i with e | e <;> rw [e] <;> simp [rootInode, Inode.zero]
  · rcases hinode i with e | e <;> rw [e] <;> simp [rootInode, Inode.zero]

section

variable {N : Nat} {r w : Bool} {d : Nat → Sector} {m : FsMem}

/-! ## Exists and create -/

/-- `find_dir_entry` on a well-formed filesystem. -/
theorem findDirEntry_sound (h : Sound N d m) (name : CStr) :
    (findDirEntry name).wp (exact N r w) (fun res d' m' => m' = m ∧ d' = d ∧
      ((res < 0 ∧ (r = false → ∀ j < slotCount, ¬ (entryAt d j).hasName name)) ∨
        ∃ slot < slotCount, res = (entryAt d slot).inode ∧ 1 ≤ (entryAt d slot).inode ∧ (entryAt d slot).inode < 128 ∧
          (entryAt d slot).hasName name ∧ (r = false → ∀ j < slot, ¬ (entryAt d j).hasName name))) d m := by
  refine (findDirEntry_exact h.lo h.root name).mono ?_
  rintro res d' m' ⟨rfl, rfl, hres⟩
  refine ⟨rfl, rfl, ?_⟩
  rcases hres with ⟨rfl, hno⟩ | ⟨slot, hs, rfl, hname, hfirst⟩
  · exact .inl ⟨by omega, hno⟩
  · obtain ⟨h1, h2⟩ := h.entries slot hs hname.1
    exact .inr ⟨slot, hs, h.int32_inode hs hname.1, h1, h2, hname, hfirst⟩

theorem fsExists_exact (h : Sound N d m) (name : CStr) :
    (fsExists name).wp (exact N r w) (fun res d' m' => m' = m ∧ d' = d ∧ (r = false → res =
      if m.filesystemReady = true ∧ validName name = true ∧ ∃ slot < slotCount, (entryAt d slot).hasName name
      then 1 else 0)) d m := by
  unfold fsExists
  rw [wp_bind, wp_load]
  split
  · rename_i hno
    refine ⟨rfl, rfl, fun _ => (if_neg ?_).symm⟩
    rintro ⟨h1, h2, -⟩
    simp [h1, h2] at hno
  · rename_i hok
    simp only [Bool.or_eq_true, Bool.not_eq_true', not_or, Bool.not_eq_false] at hok
    refine (findDirEntry_sound h name).seq ?_
    rintro res d' m' ⟨rfl, rfl, hres⟩
    refine ⟨rfl, rfl, fun hr => ?_⟩
    rcases hres with ⟨hlt, hno⟩ | ⟨slot, hs, rfl, h1, -, hname, -⟩
    · rw [if_neg (by omega), if_neg]
      rintro ⟨-, -, slot, hs, hname⟩
      exact hno hr slot hs hname
    · rw [if_pos (by omega), if_pos ⟨hok.1, hok.2, slot, hs, hname⟩]

/-- The outcomes of `fs_create`. -/
inductive Created (r w : Bool) (d : Nat → Sector) (m : FsMem) (name : CStr) : Int → (Nat → Sector) → FsMem → Prop
  | refused : (r = false → m.filesystemReady = true → validName name = true →
      (∃ slot < slotCount, (entryAt d slot).hasName name) ∨ (∀ slot < slotCount, (entryAt d slot).used ≠ 0) ∨
        firstFreeInode m = none) → Created r w d m name 0 d m
  | done (i slot : Nat) : m.filesystemReady = true → validName name = true →
      (r = false → ∀ j < slotCount, ¬ (entryAt d j).hasName name) → slot < slotCount → (entryAt d slot).used = 0 →
      firstFreeInode m = some i →
      Created r w d m name 1 (withEntry (withInode d i .fresh) slot (newEntry name i)) (setInode m i .fresh)
  | unsaved (i : Nat) : firstFreeInode m = some i → (r = true ∨ w = true) →
      Created r w d m name 0 d (setInode m i .fresh)
  | undone (i : Nat) (d' : Nat → Sector) : firstFreeInode m = some i → (r = true ∨ w = true) →
      (∀ l, ¬ (33 ≤ l ∧ l < 97) → d' l = d l) →
      Created r w d m name 0 d' (setInode m i { Inode.fresh with mode := fsModeFree })

theorem setInode_setInode (m : FsMem) (i : Nat) (n n' : Inode) : setInode (setInode m i n) i n' = setInode m i n' := by
  unfold setInode
  simp only [FsMem.mk.injEq, and_true, true_and]
  funext j; split <;> rfl

theorem fsCreate_exact (h : Sound N d m) (name : CStr) :
    (fsCreate name).wp (exact N r w) (Created r w d m name) d m := by
  have hN : 97 ≤ N := by have := h.lo; omega
  unfold fsCreate
  rw [wp_bind, wp_load]
  split
  · rename_i hno
    refine .refused fun _ h1 h2 => ?_
    simp [h1, h2] at hno
  · rename_i hok
    simp only [Bool.or_eq_true, Bool.not_eq_true', not_or, Bool.not_eq_false] at hok
    refine (findDirEntry_sound h name).seq ?_
    rintro res d' m' ⟨rfl, rfl, hres⟩
    rcases hres with ⟨hlt, hno⟩ | ⟨slot, hs, rfl, h1, -, hname, -⟩
    · rw [if_neg (by omega)]
      refine (findFreeDirSlot_exact h.lo h.root).seq ?_
      rintro (_ | slot) d'' m'' ⟨rfl, rfl, hnone, hsome⟩
      · exact .refused fun hr _ _ => .inr (.inl (hnone rfl hr))
      · obtain ⟨hs, hu⟩ := hsome slot rfl
        rw [wp_bind, wp_load]
        cases hi : firstFreeInode m'' with
        | none => exact .refused fun _ _ _ => .inr (.inr hi)
        | some i =>
          obtain ⟨i1, i2, i3⟩ := firstFreeInode_some hi
          have hinode : (setInode m'' i .fresh).inode i = .fresh := by rw [inode_setInode, if_pos ⟨rfl, i3⟩]
          have hroot : (setInode m'' i .fresh).inode 0 = rootInode 32 := by
            rw [inode_setInode, if_neg (by omega)]; exact h.root
          rw [wp_bind, wp_modify]
          refine (saveInode_exact hN i3).seq ?_
          rintro ok d₁ m₁ ⟨rfl, rfl, hf⟩
          cases ok with
          | false => exact .unsaved i hi (hf rfl)
          | true =>
            simp only [Bool.not_true, Bool.false_eq_true, ↓reduceIte, hinode]
            refine (dirWriteEntry_exact h.lo hroot hs (newEntry name i)).seq ?_
            rintro ok d₂ m₂ ⟨rfl, rfl, hf⟩
            cases ok with
            | true => exact .done i slot hok.1 hok.2 hno hs hu hi
            | false =>
              simp only [Bool.not_false, Bool.false_eq_true, ↓reduceIte]
              rw [wp_bind, wp_modify, hinode, setInode_setInode]
              refine (saveInode_exact hN i3).seq ?_
              rintro ok d₃ m₃ ⟨rfl, rfl, -⟩
              refine .undone i _ hi (hf rfl) fun l hl => ?_
              have hne : l ≠ 33 + i / 2 := by omega
              cases ok <;> simp [withInode, Function.update_of_ne hne]
    · rw [if_pos (by omega)]
      exact .refused fun _ _ _ => .inl ⟨slot, hs, hname⟩

theorem Created.sound {name : CStr} {res : Int} {d' : Nat → Sector} {m' : FsMem} (h : Sound N d m)
    (hc : Created r w d m name res d' m') : Sound N d' m' := by
  cases hc with
  | refused => exact h
  | done i slot _ _ _ hs _ hi =>
    obtain ⟨i1, -, i3⟩ := firstFreeInode_some hi
    refine Sound.withEntry ?_ slot (by simpa [newEntry] using i3) (by simp [newEntry]) fun _ => i1
    refine Sound.congr_disk (h.setInode i1 rfl rfl rfl (by simp [Inode.fresh]) fun _ => rfl) fun l h1 _ => ?_
    exact Function.update_of_ne (by omega) _ _
  | unsaved i hi => exact h.setInode (firstFreeInode_some hi).1 rfl rfl rfl (by simp [Inode.fresh]) fun _ => rfl
  | undone i d' hi _ hd =>
    exact Sound.congr_disk (h.setInode (firstFreeInode_some hi).1 rfl rfl rfl (by simp) fun _ => rfl)
      fun l h1 _ => hd l (by omega)

/-! ## Delete -/

/-- The outcomes of `fs_delete`. The inode `i` is that of the first entry of the name; the entry it
clears is the first one with that inode. -/
inductive Deleted (r w : Bool) (d : Nat → Sector) (m : FsMem) (name : CStr) : Int → (Nat → Sector) → FsMem → Prop
  | refused : (r = false → m.filesystemReady = true → validName name = true →
      ∀ j < slotCount, ¬ (entryAt d j).hasName name) → Deleted r w d m name 0 d m
  | unsaved (slot : Nat) (d' : Nat → Sector) : slot < slotCount → (entryAt d slot).hasName name →
      (r = true ∨ w = true) → (∀ l, ¬ (1 ≤ l ∧ l < 33) → d' l = d l) →
      Deleted r w d m name 0 d' (releaseInode m (entryAt d slot).inode)
  | kept (slot : Nat) (d' : Nat → Sector) : slot < slotCount → (entryAt d slot).hasName name →
      (r = true ∨ w = true) → (∀ l, ¬ (1 ≤ l ∧ l < 97) → d' l = d l) →
      Deleted r w d m name 1 d' (releaseInode m (entryAt d slot).inode)
  | done (slot slot' : Nat) : m.filesystemReady = true → validName name = true → slot < slotCount →
      (entryAt d slot).hasName name → (r = false → ∀ j < slot, ¬ (entryAt d j).hasName name) →
      slot' < slotCount → (entryAt d slot').used ≠ 0 → (entryAt d slot').inode = (entryAt d slot).inode →
      (r = false → ∀ j < slot', ¬ ((entryAt d j).used ≠ 0 ∧ (entryAt d j).inode = (entryAt d slot).inode)) →
      Deleted r w d m name 1
        (withEntry
          (withInode (withBitmap d (releaseInode m (entryAt d slot).inode)) (entryAt d slot).inode
            ((releaseInode m (entryAt d slot).inode).inode (entryAt d slot).inode))
          slot' .zero)
        (releaseInode m (entryAt d slot).inode)

/-- The loop of `fs_delete` that clears the entry of inode `i`. -/
theorem clearEntry_exact (hN : 129 < N) (hroot : m.inode 0 = rootInode 32) (i : Nat) :
    ((List.range dirSlots).findSomeM? fun slot => do
      match ← dirReadEntry slot with
      | none => pure none
      | some entry =>
        if entry.used ≠ 0 ∧ entry.inode = i then
          let _ ← dirWriteEntry slot .zero
          pure (some ())
        else pure none : FsM (Option Unit)).wp (exact N r w) (fun _ d' m' => m' = m ∧
      ((d' = d ∧ (r = false → w = false → ∀ j < slotCount, ¬ ((entryAt d j).used ≠ 0 ∧ (entryAt d j).inode = i))) ∨
        ∃ slot < slotCount, d' = withEntry d slot .zero ∧ (entryAt d slot).used ≠ 0 ∧ (entryAt d slot).inode = i ∧
          (r = false → ∀ j < slot, ¬ ((entryAt d j).used ≠ 0 ∧ (entryAt d j).inode = i)))) d m := by
  refine wp_findSomeM (J := fun pre d' m' => m' = m ∧ d' = d ∧
    (r = false → ∀ j ∈ pre, j < slotCount → ¬ ((entryAt d j).used ≠ 0 ∧ (entryAt d j).inode = i))) _
    ⟨rfl, rfl, by simp⟩ ?_ ?_
  · rintro pre slot post d' m' hl ⟨rfl, rfl, hpre⟩
    obtain ⟨rfl, -⟩ := range_split hl
    refine (dirReadEntry_exact hN hroot slot).seq ?_
    rintro res d'' m'' ⟨rfl, rfl, hin, hout⟩
    by_cases hs : slot < slotCount
    · rcases hin hs with rfl | ⟨rfl, hr⟩
      · simp only
        split
        · rename_i hmatch
          refine (dirWriteEntry_exact hN hroot hs .zero).seq ?_
          rintro ok d₁ m₁ ⟨rfl, rfl, hf⟩
          refine ⟨rfl, ?_⟩
          cases ok with
          | true =>
            exact .inr ⟨slot, hs, rfl, hmatch.1, hmatch.2, fun hr j hj => hpre hr j (by simpa using hj) (by omega)⟩
          | false =>
            refine .inl ⟨rfl, fun hr hw => ?_⟩
            rcases hf rfl with h | h
            · rw [h] at hr; cases hr
            · rw [h] at hw; cases hw
        · rename_i hmatch
          refine ⟨rfl, rfl, fun hr j hj hjs => ?_⟩
          rcases List.mem_append.1 hj with hj | hj
          · exact hpre hr j hj hjs
          · rw [List.mem_singleton.1 hj]; exact hmatch
      · exact ⟨rfl, rfl, fun hr' => by rw [hr] at hr'; cases hr'⟩
    · rw [hout (by omega)]
      refine ⟨rfl, rfl, fun hr j hj hjs => ?_⟩
      rcases List.mem_append.1 hj with hj | hj
      · exact hpre hr j hj hjs
      · rw [List.mem_singleton.1 hj] at hjs; exact absurd hjs hs
  · rintro d' m' ⟨rfl, rfl, hpre⟩
    exact ⟨rfl, .inl ⟨rfl, fun hr _ j hj => hpre hr j (by
      simp only [List.mem_range, dirSlots, fsDirectBlocks]; simp only [slotCount] at hj; omega) hj⟩⟩

theorem fsDelete_exact (h : Sound N d m) (name : CStr) :
    (fsDelete name).wp (exact N r w) (Deleted r w d m name) d m := by
  have hN : 97 ≤ N := by have := h.lo; omega
  unfold fsDelete
  rw [wp_bind, wp_load]
  split
  · rename_i hno
    refine .refused fun _ h1 h2 => ?_
    simp [h1, h2] at hno
  · rename_i hok
    simp only [Bool.or_eq_true, Bool.not_eq_true', not_or, Bool.not_eq_false] at hok
    refine (findDirEntry_sound h name).seq ?_
    rintro res d' m' ⟨rfl, rfl, hres⟩
    rcases hres with ⟨hlt, hno⟩ | ⟨slot, hs, rfl, h1, h2, hname, hfirst⟩
    · rw [if_pos (by omega)]
      exact .refused fun hr _ _ => hno hr
    · rw [if_neg (by omega), wp_bind, wp_modify, Int.toNat_natCast]
      have hrel := h.release (i := (entryAt d' slot).inode) (by omega)
      refine (saveBitmap_exact (by omega)).seq ?_
      rintro saved d₁ m₁ ⟨rfl, ha, hsaved, hfail⟩
      cases saved with
      | false => exact .unsaved slot d₁ hs hname (.inr (hfail rfl)) ha
      | true =>
        obtain rfl := hsaved rfl
        simp only [Bool.not_true, Bool.false_eq_true, ↓reduceIte]
        refine (saveInode_exact hN h2).seq ?_
        rintro saved d₂ m₂ ⟨rfl, rfl, hfail⟩
        cases saved with
        | false =>
          simp only [Bool.not_false, Bool.false_eq_true, ↓reduceIte, wp_pure]
          exact .unsaved slot _ hs hname (hfail rfl) ha
        | true =>
          simp only [Bool.not_true, Bool.false_eq_true, ↓reduceIte]
          refine (clearEntry_exact h.lo hrel.root _).seq ?_
          have hsame : ∀ l, ¬ (1 ≤ l ∧ l < 97) → withInode (withBitmap d' (releaseInode m' (entryAt d' slot).inode))
              (entryAt d' slot).inode ((releaseInode m' (entryAt d' slot).inode).inode (entryAt d' slot).inode) l =
                d' l := by
            intro l hl
            rw [withInode, Function.update_of_ne (by omega), withBitmap_agree _ _ _ (by omega)]
          have hentry : ∀ j < slotCount, entryAt (withInode (withBitmap d' (releaseInode m' (entryAt d' slot).inode))
              (entryAt d' slot).inode ((releaseInode m' (entryAt d' slot).inode).inode (entryAt d' slot).inode)) j =
              entryAt d' j := by
            intro j hj
            exact entryAt_congr (hsame _ (by omega))
          rintro _ d₃ m₃ ⟨rfl, hout⟩
          rcases hout with ⟨rfl, hno⟩ | ⟨slot', hs', rfl, hu, hi, hfirst'⟩
          · by_cases hrw : r = true ∨ w = true
            · exact .kept slot _ hs hname hrw hsame
            · -- without failures the entry of the name is found again
              simp only [not_or, Bool.not_eq_true] at hrw
              refine absurd ⟨?_, ?_⟩ (hno hrw.1 hrw.2 slot hs)
              · rw [hentry slot hs]; exact hname.1
              · rw [hentry slot hs]
          · rw [hentry slot' hs'] at hu hi
            refine .done slot slot' hok.1 hok.2 hs hname hfirst hs' hu hi fun hr j hj => ?_
            have := hfirst' hr j hj
            rwa [hentry j (by omega)] at this

theorem Deleted.sound {name : CStr} {res : Int} {d' : Nat → Sector} {m' : FsMem} (h : Sound N d m)
    (hc : Deleted r w d m name res d' m') : Sound N d' m' := by
  cases hc with
  | refused => exact h
  | unsaved slot d' hs hname _ hd =>
    have := (h.entries slot hs hname.1).1
    exact (h.release (by omega)).congr_disk fun l h1 _ => hd l (by omega)
  | kept slot d' hs hname _ hd =>
    have := (h.entries slot hs hname.1).1
    exact (h.release (by omega)).congr_disk fun l h1 _ => hd l (by omega)
  | done slot slot' _ _ hs hname _ _ _ _ _ =>
    have := h.entries slot hs hname.1
    refine Sound.withEntry (Sound.congr_disk (h.release (by omega)) fun l h1 _ => ?_) slot' (by simp [Dirent.zero])
      (by simp [Dirent.zero]) (by simp [Dirent.zero])
    rw [withInode, Function.update_of_ne (by omega), withBitmap_agree _ _ _ (by omega)]

/-! ## Handles -/

/-- The outcomes of `fs_open`. -/
inductive Opened (r : Bool) (d : Nat → Sector) (m : FsMem) (name : CStr) : Int → FsMem → Prop
  | refused : (r = false → m.filesystemReady = true → validName name = true →
      (∀ j < slotCount, ¬ (entryAt d j).hasName name) ∨ ∀ fd < 16, 0 ≤ (m.handles fd).inode) → Opened r d m name (-1) m
  | done (slot fd : Nat) : m.filesystemReady = true → validName name = true → slot < slotCount →
      (entryAt d slot).hasName name → (r = false → ∀ j < slot, ¬ (entryAt d j).hasName name) → fd < 16 →
      (m.handles fd).inode < 0 → (∀ j < fd, 0 ≤ (m.handles j).inode) →
      Opened r d m name fd (setHandle m fd ⟨(entryAt d slot).inode, 0⟩)

theorem fsOpen_exact (h : Sound N d m) (name : CStr) :
    (fsOpen name).wp (exact N r w) (fun res d' m' => d' = d ∧ Opened r d m name res m') d m := by
  unfold fsOpen
  rw [wp_bind, wp_load]
  split
  · rename_i hno
    refine ⟨rfl, .refused fun _ h1 h2 => ?_⟩
    simp [h1, h2] at hno
  · rename_i hok
    simp only [Bool.or_eq_true, Bool.not_eq_true', not_or, Bool.not_eq_false] at hok
    refine (findDirEntry_sound h name).seq ?_
    rintro res d' m' ⟨rfl, rfl, hres⟩
    rcases hres with ⟨hlt, hno⟩ | ⟨slot, hs, rfl, h1, h2, hname, hfirst⟩
    · rw [if_pos hlt]
      exact ⟨rfl, .refused fun hr _ _ => .inl (hno hr)⟩
    · rw [if_neg (by omega), wp_bind, wp_load]
      cases hf : (List.range fsMaxHandles).find? fun i => decide ((m'.handles i).inode < 0) with
      | none =>
        refine ⟨rfl, .refused fun _ _ _ => .inr fun fd hfd => ?_⟩
        rw [List.find?_eq_none] at hf
        simpa using hf fd (by simpa using hfd)
      | some fd =>
        have hlt := List.mem_of_find?_eq_some hf
        have hneg := List.find?_some hf
        rw [List.find?_range_eq_some] at hf
        simp only [List.mem_range, fsMaxHandles, decide_eq_true_eq] at hlt hneg
        refine ⟨rfl, .done slot fd hok.1 hok.2 hs hname hfirst hlt hneg fun j hj => ?_⟩
        simpa using hf.2.2 j hj

theorem Opened.sound {name : CStr} {res : Int} {m' : FsMem} (h : Sound N d m) (ho : Opened r d m name res m') :
    Sound N d m' := by
  cases ho with
  | refused => exact h
  | done slot fd _ _ hs hname _ _ _ _ =>
    obtain ⟨h1, h2⟩ := h.entries slot hs hname.1
    exact h.setHandle fd (.inr ⟨by simp only; omega, by simp only; omega⟩) (by simp)

theorem fsClose_exact (fd : Int) :
    (fsClose fd).wp (exact N r w) (fun res d' m' => d' = d ∧
      if 0 ≤ fd ∧ fd < 16 then res = 1 ∧ m' = setHandle m fd.toNat .closed else res = 0 ∧ m' = m) d m := by
  unfold fsClose
  split
  · rename_i hfd
    simp only [fsMaxHandles] at hfd
    rw [wp_pure, if_neg (by omega)]
    exact ⟨rfl, rfl, rfl⟩
  · rename_i hfd
    simp only [fsMaxHandles] at hfd
    rw [wp_bind, wp_modify, wp_pure, if_pos (by omega)]
    exact ⟨rfl, rfl, rfl⟩

/-- What the checks of `fs_read` and `fs_write` establish. -/
theorem handleUsable_iff {fd : Int} {buffer : Bool} : handleUsable m fd buffer = true ↔
    m.filesystemReady = true ∧ buffer = true ∧ 0 ≤ fd ∧ fd < 16 ∧ 0 ≤ (m.handles fd.toNat).inode := by
  simp [handleUsable, and_assoc]

/-- A usable handle of a well-formed filesystem is open on an inode of the table. -/
theorem Sound.usable (h : Sound N d m) {fd : Int} {buffer : Bool} (hu : handleUsable m fd buffer = true) :
    fd.toNat < 16 ∧ 1 ≤ (m.handles fd.toNat).inode.toNat ∧ (m.handles fd.toNat).inode.toNat < 128 ∧
      ((m.handles fd.toNat).inode.toNat : Int) = (m.handles fd.toNat).inode := by
  obtain ⟨-, -, h1, h2, h3⟩ := handleUsable_iff.1 hu
  have hlt : fd.toNat < 16 := by omega
  rcases h.handles _ hlt with h4 | h4
  · omega
  · exact ⟨hlt, by omega, by omega, by omega⟩

/-! ## Read -/

/-- The bytes of an inode from a position on. -/
def bytesFrom (d : Nat → Sector) (n : Inode) (position count : Nat) : List Byte :=
  (List.range count).map fun k => byteAt d n (position + k)

/-! ## Files as the directory names them -/

/-- The inode of the first used entry of a name. -/
def lookup (d : Nat → Sector) (name : CStr) : Option Nat :=
  ((List.range slotCount).find? fun slot => decide ((entryAt d slot).hasName name)).map
    fun slot => (entryAt d slot).inode

/-- The contents of the file of that name. -/
def fileBytes (d : Nat → Sector) (m : FsMem) (name : CStr) : Option (List Byte) :=
  (lookup d name).map fun i => bytesFrom d (m.inode i) 0 (m.inode i).size

/-- The outcomes of `fs_read`. -/
inductive ReadFrom (r : Bool) (d : Nat → Sector) (m : FsMem) (fd : Int) (buffer : Bool) (size : Nat) :
    Int × List Byte → FsMem → Prop
  | refused : handleUsable m fd buffer = false → ReadFrom r d m fd buffer size (-1, []) m
  | done (n : Nat) : handleUsable m fd buffer = true →
      n ≤ min size ((m.inode (m.handles fd.toNat).inode.toNat).size - (m.handles fd.toNat).position) →
      (n < min size ((m.inode (m.handles fd.toNat).inode.toNat).size - (m.handles fd.toNat).position) →
        r = true ∨ (m.inode (m.handles fd.toNat).inode.toNat).blockOf ((m.handles fd.toNat).position + n) = 0) →
      ReadFrom r d m fd buffer size
        (n, bytesFrom d (m.inode (m.handles fd.toNat).inode.toNat) (m.handles fd.toNat).position n)
        (setHandle m fd.toNat { m.handles fd.toNat with position := (m.handles fd.toNat).position + n })

theorem setHandle_self (m : FsMem) (fd : Nat) : setHandle m fd (m.handles fd) = m := by
  unfold setHandle; rw [Function.update_eq_self]

theorem Sound.direct_lt (h : Sound N d m) (i : Nat) (k : Fin 32) : (m.inode i).direct k < N := by
  by_cases h0 : (m.inode i).direct k = 0
  · have := h.lo; omega
  · rw [← h.total]; exact (h.owned.range i k h0).2.1

theorem fsRead_exact (h : Sound N d m) (fd : Int) (buffer : Bool) (size : Nat) :
    (fsRead fd buffer size).wp (exact N r w) (fun res d' m' => d' = d ∧ ReadFrom r d m fd buffer size res m') d m := by
  unfold fsRead
  rw [wp_bind, wp_load]
  split
  · rename_i hu
    exact ⟨rfl, .refused (by simpa using hu)⟩
  · rename_i hu
    have hu : handleUsable m fd buffer = true := by simpa using hu
    dsimp only
    split
    · rename_i hpos
      have hdone := @ReadFrom.done r d m fd buffer size 0 hu (Nat.zero_le _) (by omega)
      refine ⟨rfl, ?_⟩
      rw [Nat.add_zero] at hdone
      rwa [show ({ m.handles fd.toNat with position := (m.handles fd.toNat).position } : Handle) = m.handles fd.toNat
        from rfl, setHandle_self] at hdone
    · refine (fsReadLoop_exact (h.direct_lt _) _ _ 0 (Nat.zero_le _)).seq ?_
      rintro ⟨n, out⟩ d' m' ⟨rfl, rfl, -, hle, hout, hstop⟩
      simp only at hle hout hstop
      subst hout
      exact ⟨rfl, .done n hu hle hstop⟩

theorem ReadFrom.sound {fd : Int} {buffer : Bool} {size : Nat} {res : Int × List Byte} {m' : FsMem} (h : Sound N d m)
    (hr : ReadFrom r d m fd buffer size res m') : Sound N d m' := by
  cases hr with
  | refused => exact h
  | done n hu hle _ =>
    obtain ⟨h1, h2, h3, h4⟩ := h.usable hu
    have hsz := h.sizes (m.handles fd.toNat).inode.toNat
    have hp := h.positions fd.toNat h1
    exact h.setHandle fd.toNat (by simpa using h.handles _ h1) (by simp only; omega)

/-! ## Write -/

theorem Grows.inode_of_ne {i j : Nat} {m m' : FsMem} (h : Grows i m m') (hj : j ≠ i) : m'.inode j = m.inode j := by
  induction h with
  | refl => rfl
  | assign b s _ _ _ ih =>
    unfold assignBlock
    rw [inode_setInode, if_neg (by tauto), inode_bitmapSet, ih]

theorem Grows.fields {i : Nat} {m m' : FsMem} (h : Grows i m m') (j : Nat) : (m'.inode j).mode = (m.inode j).mode ∧
    (m'.inode j).size = (m.inode j).size ∧ (m'.inode j).reserved = (m.inode j).reserved := by
  induction h with
  | refl => exact ⟨rfl, rfl, rfl⟩
  | assign b s _ _ _ ih =>
    unfold assignBlock
    rw [inode_setInode, inode_bitmapSet, inode_bitmapSet]
    split
    · rename_i hj; rw [← hj.1]; exact ih
    · exact ih

theorem inode_finishWrite (m : FsMem) (fd i position j : Nat) (hi : i < 128) :
    (finishWrite m fd i position).inode j =
      if j = i then { m.inode i with size := max (m.inode i).size position } else m.inode j := by
  by_cases hgt : position > (m.inode i).size
  · have e : finishWrite m fd i position = setInode (setHandle m fd { m.handles fd with position := position }) i
        { m.inode i with size := position } := if_pos hgt
    rw [e, inode_setInode, inode_setHandle]
    by_cases hj : j = i
    · rw [if_pos ⟨hj, hi⟩, if_pos hj, Nat.max_eq_right (by omega)]
    · rw [if_neg (by tauto), if_neg hj]
  · have e : finishWrite m fd i position = setHandle m fd { m.handles fd with position := position } := if_neg hgt
    rw [e, inode_setHandle]
    by_cases hj : j = i
    · rw [if_pos hj, Nat.max_eq_left (by omega), hj]
    · rw [if_neg hj]

theorem handles_finishWrite (m : FsMem) (fd i position : Nat) : (finishWrite m fd i position).handles =
    Function.update m.handles fd { m.handles fd with position := position } := by
  unfold finishWrite; simp only; split <;> rfl

/-- The outcomes of `fs_write`. -/
inductive WroteTo (r w : Bool) (d : Nat → Sector) (m : FsMem) (fd : Int) (buffer : Option (List Byte)) :
    Int → (Nat → Sector) → FsMem → Prop
  | refused : handleUsable m fd buffer.isSome = false → WroteTo r w d m fd buffer (-1) d m
  | full : handleUsable m fd buffer.isSome = true → 16384 ≤ (m.handles fd.toNat).position →
      WroteTo r w d m fd buffer 0 d m
  | done (n : Nat) (d₁ : Nat → Sector) (m₁ : FsMem) (d' : Nat → Sector) : handleUsable m fd buffer.isSome = true →
      (m.handles fd.toNat).position < 16384 →
      Wrote r w (m.handles fd.toNat).inode.toNat (m.handles fd.toNat).position
        (min (buffer.getD []).length (16384 - (m.handles fd.toNat).position))
          ((buffer.getD []).getD · 0) d m 0 n d₁ m₁ →
      (∀ l, ¬ (1 ≤ l ∧ l < 97) → d' l = d₁ l) →
      (r = false → w = false → d' = withBitmap
        (withInode d₁ (m.handles fd.toNat).inode.toNat
          ((finishWrite m₁ fd.toNat (m.handles fd.toNat).inode.toNat ((m.handles fd.toNat).position + n)).inode
            (m.handles fd.toNat).inode.toNat))
        (finishWrite m₁ fd.toNat (m.handles fd.toNat).inode.toNat ((m.handles fd.toNat).position + n))) →
      WroteTo r w d m fd buffer n d'
        (finishWrite m₁ fd.toNat (m.handles fd.toNat).inode.toNat ((m.handles fd.toNat).position + n))

theorem fsWrite_exact (h : Sound N d m) (fd : Int) (buffer : Option (List Byte)) :
    (fsWrite fd buffer).wp (exact N r w) (WroteTo r w d m fd buffer) d m := by
  have hN : 97 ≤ N := by have := h.lo; omega
  unfold fsWrite
  rw [wp_bind, wp_load]
  split
  · rename_i hu
    exact .refused (by simpa using hu)
  · rename_i hu
    have hu : handleUsable m fd buffer.isSome = true := by simpa using hu
    obtain ⟨h1, h2, h3, -⟩ := h.usable hu
    dsimp only
    split
    · rename_i hpos
      exact .full hu hpos
    · rename_i hpos
      simp only [fsMaxFileSize, ge_iff_le, not_le] at hpos
      refine (fsWriteLoop_exact hN h.total h.owned h3 _ _ (by simp only [fsMaxFileSize]; omega) _ 0 (Nat.zero_le _)).seq
        ?_
      rintro n d₁ m₁ W
      rw [wp_bind, wp_modify]
      refine (saveInode_exact hN h3).seq ?_
      rintro ok₁ d₂ m₂ ⟨rfl, rfl, hf₁⟩
      refine (saveBitmap_exact (by omega)).seq ?_
      rintro ok₂ d₃ m₃ ⟨rfl, ha, hs, hf₂⟩
      refine .done n d₁ m₁ d₃ hu hpos W (fun l hl => ?_) fun hr hw => ?_
      · rw [ha l (by omega)]
        have hne : l ≠ 33 + (m.handles fd.toNat).inode.toNat / 2 := by omega
        cases ok₁ <;> simp [withInode, Function.update_of_ne hne]
      · obtain rfl : ok₁ = true := by
          by_contra hne
          rcases hf₁ (by simpa using hne) with h | h
          · rw [h] at hr; cases hr
          · rw [h] at hw; cases hw
        obtain rfl : ok₂ = true := by
          by_contra hne
          have := hf₂ (by simpa using hne)
          rw [this] at hw; cases hw
        exact hs rfl

/-- The directory sectors are not the file's. -/
theorem Wrote.dir_frame (h : Sound N d m) {i position size n : Nat} {input : Nat → Byte} {d₁ : Nat → Sector}
    {m₁ : FsMem} (hi : 1 ≤ i) (W : Wrote r w i position size input d m 0 n d₁ m₁) {l : Nat} (h1 : 97 ≤ l)
    (h2 : l < 129) : d₁ l = d l := by
  refine W.frame l (by omega) (.inr fun k hk => ?_)
  have hroot : (m₁.inode 0).direct ⟨l - 97, by omega⟩ = l := by
    rw [W.grows.inode_of_ne (by omega), h.root]
    simp only [rootInode]
    rw [if_pos (by omega)]; omega
  have := ((W.grows.owned h.owned).once i k 0 ⟨l - 97, by omega⟩ (by omega) (by rw [hk, hroot])).1
  omega

theorem WroteTo.sound {fd : Int} {buffer : Option (List Byte)} {res : Int} {d' : Nat → Sector} {m' : FsMem}
    (h : Sound N d m) (hw : WroteTo r w d m fd buffer res d' m') : Sound N d' m' := by
  cases hw with
  | refused => exact h
  | full => exact h
  | done n d₁ m₁ d' hu hpos W hd _ =>
    obtain ⟨h1, h2, h3, h4⟩ := h.usable hu
    have hle := W.le
    have hO := W.grows.owned h.owned
    obtain ⟨f1, -⟩ := finishWrite_bits m₁ fd.toNat (m.handles fd.toNat).inode.toNat ((m.handles fd.toNat).position + n)
    have hin := fun j => inode_finishWrite m₁ fd.toNat (m.handles fd.toNat).inode.toNat
      ((m.handles fd.toNat).position + n) j h3
    have hfields := W.grows.fields
    have hsz : ∀ j, (m₁.inode j).size ≤ 16384 := fun j => by rw [(hfields j).2.1]; exact h.sizes j
    refine ⟨h.lo, by rw [f1, W.grows.frame.1]; exact h.total, hO.finishWrite _ _ _, ?_, fun slot hs => ?_,
      fun fd' hfd => ?_, fun fd' hfd => ?_, fun j => ?_, fun j => ?_, fun j k => ?_⟩
    · rw [hin, if_neg (by omega), W.grows.inode_of_ne (by omega)]; exact h.root
    · have hl : 97 + slot / 9 < 129 := by simp only [slotCount] at hs; omega
      rw [entryAt_congr ((hd _ (by omega)).trans (W.dir_frame h h2 (by omega) hl))]
      exact h.entries slot hs
    · rw [handles_finishWrite, W.grows.frame.2.1]
      by_cases e : fd' = fd.toNat
      · rw [e, Function.update_self]; exact h.handles _ h1
      · rw [Function.update_of_ne e]; exact h.handles fd' hfd
    · rw [handles_finishWrite, W.grows.frame.2.1]
      by_cases e : fd' = fd.toNat
      · rw [e, Function.update_self]; simp only; omega
      · rw [Function.update_of_ne e]; exact h.positions fd' hfd
    · rw [hin]
      split
      · have := hsz (m.handles fd.toNat).inode.toNat
        simp only; omega
      · exact hsz j
    · rw [hin]
      split
      · simp only; rw [(hfields _).1]; exact h.modes _
      · rw [(hfields j).1]; exact h.modes j
    · rw [hin]
      split
      · simp only; rw [(hfields _).2.2]; exact h.reserved _ k
      · rw [(hfields j).2.2]; exact h.reserved j k

/-! ## Calls -/

theorem fsListLoop_exact (h : Sound N d m) (size : Nat) (slots : List Nat) (written : List Byte) :
    (fsListLoop size slots written).wp (exact N r w) (fun _ d' m' => m' = m ∧ d' = d) d m := by
  induction slots generalizing written with
  | nil => exact ⟨rfl, rfl⟩
  | cons slot slots ih =>
    rw [fsListLoop]
    refine (dirReadEntry_exact h.lo h.root slot).seq ?_
    rintro (_ | entry) d' m' ⟨rfl, rfl, -⟩
    · exact ih _
    · simp only
      split
      · exact ih _
      · split
        · exact ⟨rfl, rfl⟩
        · exact ih _

theorem fsList_exact (h : Sound N d m) (buffer : Bool) (size : Nat) :
    (fsList buffer size).wp (exact N r w) (fun _ d' m' => m' = m ∧ d' = d) d m := by
  unfold fsList
  rw [wp_bind, wp_load]
  split
  · exact ⟨rfl, rfl⟩
  · exact (fsListLoop_exact h _ _ _).seq fun _ _ _ h => h

/-- What a call returns and does. -/
def CallEffect (r w : Bool) (d : Nat → Sector) (m : FsMem) (call : Call) (ret : Ret) (d' : Nat → Sector) (m' : FsMem) :
    Prop :=
  match call with
  | .create name => ret.bytes = [] ∧ Created r w d m name ret.val d' m'
  | .delete name => ret.bytes = [] ∧ Deleted r w d m name ret.val d' m'
  | .exist name => m' = m ∧ d' = d ∧ (r = false → ret =
      ⟨if m.filesystemReady = true ∧ validName name = true ∧ ∃ slot < slotCount, (entryAt d slot).hasName name
        then 1 else 0, []⟩)
  | .open name => d' = d ∧ ret.bytes = [] ∧ Opened r d m name ret.val m'
  | .close fd => d' = d ∧ ret.bytes = [] ∧
      if 0 ≤ fd ∧ fd < 16 then ret.val = 1 ∧ m' = setHandle m fd.toNat .closed else ret.val = 0 ∧ m' = m
  | .read fd buffer size => d' = d ∧ ReadFrom r d m fd buffer size (ret.val, ret.bytes) m'
  | .write fd buffer => ret.bytes = [] ∧ WroteTo r w d m fd buffer ret.val d' m'
  | .list _ _ => m' = m ∧ d' = d

theorem call_exact (h : Sound N d m) (call : Call) : call.prog.wp (exact N r w) (CallEffect r w d m call) d m := by
  cases call with
  | create name => exact (fsCreate_exact h name).seq fun _ _ _ h => ⟨rfl, h⟩
  | delete name => exact (fsDelete_exact h name).seq fun _ _ _ h => ⟨rfl, h⟩
  | exist name => exact (fsExists_exact h name).seq fun _ _ _ h => ⟨h.1, h.2.1, fun hr => by rw [h.2.2 hr]⟩
  | «open» name => exact (fsOpen_exact h name).seq fun _ _ _ h => ⟨h.1, rfl, h.2⟩
  | close fd => exact (fsClose_exact fd).seq fun _ _ _ h => ⟨h.1, rfl, h.2⟩
  | read fd buffer size => exact (fsRead_exact h fd buffer size).seq fun _ _ _ h => h
  | write fd buffer => exact (fsWrite_exact h fd buffer).seq fun _ _ _ h => ⟨rfl, h⟩
  | list buffer size => exact (fsList_exact h buffer size).seq fun _ _ _ h => h

/-- Every call keeps the filesystem well formed, whatever fails. -/
theorem CallEffect.sound {call : Call} {ret : Ret} {d' : Nat → Sector} {m' : FsMem} (h : Sound N d m)
    (hc : CallEffect r w d m call ret d' m') : Sound N d' m' := by
  cases call with
  | create name => exact hc.2.sound h
  | delete name => exact hc.2.sound h
  | exist name => obtain ⟨rfl, rfl, -⟩ := hc; exact h
  | «open» name => obtain ⟨rfl, -, hc⟩ := hc; exact hc.sound h
  | close fd =>
    obtain ⟨rfl, -, hc⟩ := hc
    split at hc
    · obtain ⟨-, rfl⟩ := hc
      exact h.setHandle _ (.inl rfl) (by simp [Handle.closed])
    · obtain ⟨-, rfl⟩ := hc; exact h
  | read fd buffer size => obtain ⟨rfl, hc⟩ := hc; exact hc.sound h
  | write fd buffer => exact hc.2.sound h
  | list buffer size => obtain ⟨rfl, rfl⟩ := hc; exact h

end

end SpectreOS
