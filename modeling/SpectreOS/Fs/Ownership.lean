/-
Who owns a sector, in memory: every nonzero `direct[]` entry lies in the data area, is marked used
and occurs once; the metadata sectors are marked used; `blocks` counts the entries (`Owned`). The
effects a file operation can have on the tables are listed once (`MemStep`), and each of them
keeps the invariant, on every disk and under every failure pattern.
-/
import SpectreOS.Fs.Mount

namespace SpectreOS

open BlockIO Prog

/-! ## Table accesses -/

@[simp] theorem inode_setInode (m : FsMem) (i : Nat) (n : Inode) (j : Nat) :
    (setInode m i n).inode j = if j = i ∧ i < 128 then n else m.inode j := by
  unfold setInode FsMem.inode
  by_cases hj : j < 128
  · by_cases e : j = i
    · subst e; simp [hj]
    · simp [hj, e]
  · have : ¬ (j = i ∧ i < 128) := by rintro ⟨rfl, h⟩; exact hj h
    simp [hj, this]

@[simp] theorem bitmap_setInode (m : FsMem) (i : Nat) (n : Inode) : (setInode m i n).bitmap = m.bitmap := rfl

@[simp] theorem superblock_setInode (m : FsMem) (i : Nat) (n : Inode) :
    (setInode m i n).superblock = m.superblock := rfl

@[simp] theorem handles_setInode (m : FsMem) (i : Nat) (n : Inode) : (setInode m i n).handles = m.handles := rfl

@[simp] theorem ready_setInode (m : FsMem) (i : Nat) (n : Inode) :
    (setInode m i n).filesystemReady = m.filesystemReady := rfl

@[simp] theorem inode_setHandle (m : FsMem) (fd : Nat) (h : Handle) (j : Nat) :
    (setHandle m fd h).inode j = m.inode j := rfl

@[simp] theorem bitmap_setHandle (m : FsMem) (fd : Nat) (h : Handle) : (setHandle m fd h).bitmap = m.bitmap := rfl

@[simp] theorem superblock_setHandle (m : FsMem) (fd : Nat) (h : Handle) :
    (setHandle m fd h).superblock = m.superblock := rfl

@[simp] theorem ready_setHandle (m : FsMem) (fd : Nat) (h : Handle) :
    (setHandle m fd h).filesystemReady = m.filesystemReady := rfl

theorem inode_of_ge (m : FsMem) {i : Nat} (h : 128 ≤ i) : m.inode i = .zero := by
  unfold FsMem.inode; rw [dif_neg (by omega)]

theorem inode_congr {m m' : FsMem} (h : m'.inodes = m.inodes) (i : Nat) : m'.inode i = m.inode i := by
  unfold FsMem.inode; rw [h]

/-! ## Bits -/

/-- The bitmap bit of a sector. -/
def bitSet (m : FsMem) (sector : Nat) : Bool := (m.bitmap (sector / 8)).getLsbD (sector % 8)

theorem bitmapGet_eq (m : FsMem) (s : Nat) :
    bitmapGet m s = (decide (m.superblock.totalSectors ≤ s) || bitSet m s) := by
  unfold bitmapGet bitSet
  by_cases h : s ≥ m.superblock.totalSectors
  · simp [h]
  · rw [if_neg h, and_bit_ne_zero _ (Nat.mod_lt _ (by omega))]
    simp [h]

theorem bitSet_congr {m m' : FsMem} (h : m'.bitmap = m.bitmap) (s : Nat) : bitSet m' s = bitSet m s := by
  unfold bitSet; rw [h]

/-- Two sectors share a bitmap bit only if they are one. -/
theorem div_mod_eight {s t : Nat} (h1 : s / 8 = t / 8) (h2 : s % 8 = t % 8) : s = t := by omega

theorem bitSet_bitmapSet (m : FsMem) {s : Nat} (hs : s < 131072) (t : Nat) :
    bitSet (bitmapSet m s) t = (bitSet m t || decide (t = s)) := by
  unfold bitmapSet bitSet
  rw [if_neg (by simp only [fsBitmapSectors]; omega)]
  simp only
  by_cases e : t / 8 = s / 8
  · rw [e, Function.update_self, getLsbD_or_bit _ (Nat.mod_lt _ (by omega))]
    congr 1
    rw [decide_eq_decide]
    exact ⟨fun h => div_mod_eight e h, fun h => by rw [h]⟩
  · rw [Function.update_of_ne e]
    have : t ≠ s := fun h => e (by rw [h])
    simp [this]

theorem bitSet_bitmapClear (m : FsMem) {s : Nat} (hs : s < 131072) (t : Nat) :
    bitSet (bitmapClear m s) t = (bitSet m t && !decide (t = s)) := by
  unfold bitmapClear bitSet
  rw [if_neg (by simp only [fsBitmapSectors]; omega)]
  simp only
  by_cases e : t / 8 = s / 8
  · rw [e, Function.update_self, getLsbD_and_not_bit _ (Nat.mod_lt _ (by omega))]
    congr 2
    rw [decide_eq_decide]
    exact ⟨fun h => div_mod_eight e h, fun h => by rw [h]⟩
  · rw [Function.update_of_ne e]
    have : t ≠ s := fun h => e (by rw [h])
    simp [this]

@[simp] theorem inodes_bitmapSet (m : FsMem) (s : Nat) : (bitmapSet m s).inodes = m.inodes := by
  unfold bitmapSet; split <;> rfl

@[simp] theorem inode_bitmapSet (m : FsMem) (s j : Nat) : (bitmapSet m s).inode j = m.inode j :=
  inode_congr (inodes_bitmapSet m s) j

@[simp] theorem superblock_bitmapSet (m : FsMem) (s : Nat) : (bitmapSet m s).superblock = m.superblock := by
  unfold bitmapSet; split <;> rfl

@[simp] theorem handles_bitmapSet (m : FsMem) (s : Nat) : (bitmapSet m s).handles = m.handles := by
  unfold bitmapSet; split <;> rfl

@[simp] theorem ready_bitmapSet (m : FsMem) (s : Nat) :
    (bitmapSet m s).filesystemReady = m.filesystemReady := by
  unfold bitmapSet; split <;> rfl

/-- Bytes past the bitmap are not touched. -/
theorem bitmap_bitmapSet_of_ge (m : FsMem) {s k : Nat} (hs : s < 131072) (hk : 16384 ≤ k) :
    (bitmapSet m s).bitmap k = m.bitmap k := by
  unfold bitmapSet
  rw [if_neg (by simp only [fsBitmapSectors]; omega)]
  exact Function.update_of_ne (by omega) _ _

@[simp] theorem inodes_bitmapClear (m : FsMem) (s : Nat) : (bitmapClear m s).inodes = m.inodes := by
  unfold bitmapClear; split <;> rfl

@[simp] theorem superblock_bitmapClear (m : FsMem) (s : Nat) : (bitmapClear m s).superblock = m.superblock := by
  unfold bitmapClear; split <;> rfl

@[simp] theorem handles_bitmapClear (m : FsMem) (s : Nat) : (bitmapClear m s).handles = m.handles := by
  unfold bitmapClear; split <;> rfl

@[simp] theorem ready_bitmapClear (m : FsMem) (s : Nat) :
    (bitmapClear m s).filesystemReady = m.filesystemReady := by
  unfold bitmapClear; split <;> rfl

/-- A failed allocation leaves the bitmap as it was. -/
theorem bitmapClear_bitmapSet (m : FsMem) {s : Nat} (h : bitSet m s = false) :
    bitmapClear (bitmapSet m s) s = m := by
  unfold bitmapClear bitmapSet
  by_cases hs : s ≥ fsBitmapSectors * 4096
  · rw [if_pos hs, if_pos hs]
  · rw [if_neg hs, if_neg hs]
    simp only [Function.update_self, Function.update_idem]
    rw [or_bit_and_not_bit _ (Nat.mod_lt _ (by omega)) h, Function.update_eq_self]

/-! ## The first free sector -/

theorem firstFree_some {m : FsMem} {s : Nat} (h : firstFree m = some s) :
    97 ≤ s ∧ s < m.superblock.totalSectors ∧ bitSet m s = false := by
  have h1 := List.mem_of_find?_eq_some h
  have h2 := List.find?_some h
  rw [List.mem_range'_1] at h1
  simp only [Bool.not_eq_true', bitmapGet_eq, Bool.or_eq_false_iff, decide_eq_false_iff_not, not_le] at h2
  exact ⟨h1.1, h2.1, h2.2⟩

theorem firstFree_none {m : FsMem} (h : firstFree m = none) {s : Nat} (h1 : 97 ≤ s)
    (h2 : s < m.superblock.totalSectors) : bitSet m s = true := by
  unfold firstFree at h
  rw [List.find?_eq_none] at h
  have := h s (by rw [List.mem_range'_1]; simp only [fsDataStart]; omega)
  simpa [bitmapGet_eq, h2] using this

/-- No free sector comes before the one taken. -/
theorem firstFree_least {m : FsMem} {s t : Nat} (h : firstFree m = some s) (h1 : 97 ≤ t) (h2 : t < s) :
    bitSet m t = true := by
  obtain ⟨-, s2, -⟩ := firstFree_some h
  unfold firstFree at h
  rw [List.find?_eq_some_iff_append] at h
  obtain ⟨-, as, bs, hl, has⟩ := h
  have hmem : t ∈ as := by
    have hsort : (as ++ s :: bs).Pairwise (· < ·) := hl ▸ List.pairwise_lt_range'
    have ht : t ∈ as ++ s :: bs := by rw [← hl, List.mem_range'_1]; simp only [fsDataStart]; omega
    rw [List.pairwise_append] at hsort
    rcases List.mem_append.1 ht with h | h
    · exact h
    · rcases List.mem_cons.1 h with rfl | h
      · omega
      · have := (List.pairwise_cons.1 hsort.2.1).1 t h
        omega
  have := has t hmem
  rw [bitmapGet_eq] at this
  simpa [show ¬ m.superblock.totalSectors ≤ t by omega] using this

/-! ## Releasing an inode -/

theorem freeSector_tables (m : FsMem) (s : Nat) : (freeSector m s).inodes = m.inodes ∧
    (freeSector m s).superblock = m.superblock ∧ (freeSector m s).handles = m.handles ∧
    (freeSector m s).filesystemReady = m.filesystemReady := by
  unfold freeSector
  split
  · exact ⟨rfl, rfl, rfl, rfl⟩
  · simp

theorem bitSet_freeSector (m : FsMem) (hN : m.superblock.totalSectors ≤ 131072) (s t : Nat) :
    bitSet (freeSector m s) t =
      (bitSet m t && !decide (t = s ∧ 97 ≤ s ∧ s < m.superblock.totalSectors)) := by
  unfold freeSector
  split
  · rename_i h
    have : ¬ (t = s ∧ 97 ≤ s ∧ s < m.superblock.totalSectors) := by simp only [fsDataStart] at h; omega
    simp [this]
  · rename_i h
    simp only [fsDataStart, not_or, not_lt, not_le] at h
    rw [bitSet_bitmapClear _ (by omega)]
    simp [h.1, h.2]

/-- The fold of `fs_delete` over the direct entries. -/
theorem freeAll_spec (N : Nat) (hN : N ≤ 131072) (direct : Fin 32 → Nat) (l : List (Fin 32)) (m : FsMem)
    (hm : m.superblock.totalSectors = N) :
    let f := l.foldl (fun m i => if direct i ≠ 0 then freeSector m (direct i) else m) m
    f.inodes = m.inodes ∧ f.superblock = m.superblock ∧ f.handles = m.handles ∧
      f.filesystemReady = m.filesystemReady ∧
      ∀ t, bitSet f t = true ↔ bitSet m t = true ∧ ¬ (97 ≤ t ∧ t < N ∧ ∃ i ∈ l, direct i = t) := by
  induction l generalizing m with
  | nil => simp
  | cons i l ih =>
    simp only [List.foldl_cons]
    have hstep : ∀ t, bitSet (if direct i ≠ 0 then freeSector m (direct i) else m) t = true ↔
        bitSet m t = true ∧ ¬ (97 ≤ t ∧ t < N ∧ direct i = t) := by
      intro t
      split
      · rw [bitSet_freeSector m (by omega), hm]
        simp only [Bool.and_eq_true, Bool.not_eq_true', decide_eq_false_iff_not]
        constructor
        · rintro ⟨h1, h2⟩; exact ⟨h1, fun ⟨h3, h4, h5⟩ => h2 ⟨h5.symm, h5 ▸ h3, h5 ▸ h4⟩⟩
        · rintro ⟨h1, h2⟩; exact ⟨h1, fun ⟨h3, h4, h5⟩ => h2 ⟨h3 ▸ h4, h3 ▸ h5, h3.symm⟩⟩
      · rename_i h0
        simp only [ne_eq, not_not] at h0
        constructor
        · intro h; exact ⟨h, fun ⟨h1, _, h3⟩ => by omega⟩
        · exact fun h => h.1
    have htab : (if direct i ≠ 0 then freeSector m (direct i) else m).inodes = m.inodes ∧
        (if direct i ≠ 0 then freeSector m (direct i) else m).superblock = m.superblock ∧
        (if direct i ≠ 0 then freeSector m (direct i) else m).handles = m.handles ∧
        (if direct i ≠ 0 then freeSector m (direct i) else m).filesystemReady = m.filesystemReady := by
      split
      · exact freeSector_tables m _
      · exact ⟨rfl, rfl, rfl, rfl⟩
    obtain ⟨i1, i2, i3, i4, i5⟩ := ih _ (by rw [htab.2.1, hm])
    refine ⟨i1.trans htab.1, i2.trans htab.2.1, i3.trans htab.2.2.1, i4.trans htab.2.2.2, fun t => ?_⟩
    rw [i5, hstep]
    simp only [List.mem_cons, exists_eq_or_imp]
    constructor
    · rintro ⟨⟨h1, h2⟩, h3⟩
      exact ⟨h1, fun ⟨a, b, e⟩ => e.elim (fun e => h2 ⟨a, b, e⟩) fun e => h3 ⟨a, b, e⟩⟩
    · rintro ⟨h1, h2⟩
      exact ⟨⟨h1, fun ⟨a, b, e⟩ => h2 ⟨a, b, .inl e⟩⟩, fun ⟨a, b, e⟩ => h2 ⟨a, b, .inr e⟩⟩

/-- What `fs_delete` does to the tables. -/
theorem releaseInode_spec (m : FsMem) (i : Nat) (hN : m.superblock.totalSectors ≤ 131072) :
    (∀ j, (releaseInode m i).inode j = if j = i ∧ i < 128 then
      { m.inode i with mode := 0, size := 0, blocks := 0, direct := fun _ => 0 } else m.inode j) ∧
    (releaseInode m i).superblock = m.superblock ∧ (releaseInode m i).handles = m.handles ∧
    (releaseInode m i).filesystemReady = m.filesystemReady ∧
    ∀ t, bitSet (releaseInode m i) t = true ↔
      bitSet m t = true ∧ ¬ (97 ≤ t ∧ t < m.superblock.totalSectors ∧ ∃ k, (m.inode i).direct k = t) := by
  obtain ⟨h1, h2, h3, h4, h5⟩ := freeAll_spec _ hN (m.inode i).direct (List.finRange 32) m rfl
  unfold releaseInode
  refine ⟨fun j => ?_, h2, h3, h4, fun t => ?_⟩
  · rw [inode_setInode]
    split
    · rfl
    · exact inode_congr h1 j
  · rw [bitSet_congr (bitmap_setInode _ _ _), h5]
    simp

/-! ## The ownership invariant -/

/-- The number of sectors an inode refers to. -/
def Inode.held (n : Inode) : Nat := (Finset.univ.filter fun k => n.direct k ≠ 0).card

/-- No sector is referenced twice, none outside the data area, none that is marked free. -/
structure Owned (m : FsMem) : Prop where
  totalLo : 97 < m.superblock.totalSectors
  totalHi : m.superblock.totalSectors ≤ 131072
  range : ∀ i k, (m.inode i).direct k ≠ 0 →
    97 ≤ (m.inode i).direct k ∧ (m.inode i).direct k < m.superblock.totalSectors ∧
      bitSet m ((m.inode i).direct k) = true
  once : ∀ i k j l, (m.inode i).direct k ≠ 0 → (m.inode i).direct k = (m.inode j).direct l → i = j ∧ k = l
  reserved : ∀ s < 97, bitSet m s = true
  blocks : ∀ i, (m.inode i).blocks = (m.inode i).held

theorem Owned.congr {m m' : FsMem} (h : Owned m) (hi : ∀ i, m'.inode i = m.inode i)
    (hb : m'.bitmap = m.bitmap) (hs : m'.superblock = m.superblock) : Owned m' := by
  refine ⟨by rw [hs]; exact h.totalLo, by rw [hs]; exact h.totalHi, fun i k => ?_, fun i k j l => ?_,
    fun s hs' => by rw [bitSet_congr hb]; exact h.reserved s hs', fun i => by rw [hi]; exact h.blocks i⟩
  · rw [hi, hs, bitSet_congr hb]; exact h.range i k
  · rw [hi, hi]; exact h.once i k j l

/-- An inode that refers to nothing may replace any other. -/
theorem Owned.setInode_empty {m : FsMem} (h : Owned m) (i : Nat) (n : Inode) (hd : n.direct = fun _ => 0)
    (hb : n.blocks = 0) : Owned (setInode m i n) := by
  have hcase : ∀ j k, ((setInode m i n).inode j).direct k ≠ 0 →
      ((setInode m i n).inode j).direct k = (m.inode j).direct k := by
    intro j k hne
    rw [inode_setInode] at hne ⊢
    split at hne
    · rw [hd] at hne; exact absurd rfl hne
    · rename_i hj; rw [if_neg hj]
  refine ⟨h.totalLo, h.totalHi, fun j k hne => ?_, fun j k j' l hne he => ?_, h.reserved, fun j => ?_⟩
  · have := hcase j k hne
    rw [this] at hne ⊢
    exact h.range j k hne
  · have h1 := hcase j k hne
    have h2 := hcase j' l (by rw [← he]; exact hne)
    rw [h1] at hne he; rw [h2] at he
    exact h.once j k j' l hne he
  · rw [inode_setInode]
    split
    · rw [hb]; symm
      simp [Inode.held, hd]
    · exact h.blocks j

theorem Owned.release {m : FsMem} (h : Owned m) (i : Nat) : Owned (releaseInode m i) := by
  obtain ⟨h1, h2, -, -, h5⟩ := releaseInode_spec m i h.totalHi
  have hcase : ∀ j k, ((releaseInode m i).inode j).direct k ≠ 0 →
      ((releaseInode m i).inode j).direct k = (m.inode j).direct k ∧ j ≠ i := by
    intro j k hne
    rw [h1] at hne ⊢
    split at hne
    · exact absurd rfl hne
    · rename_i hj
      rw [if_neg hj]
      refine ⟨rfl, ?_⟩
      rintro rfl
      -- an index behind the table refers to nothing
      rw [inode_of_ge m (by by_contra hlt; exact hj ⟨rfl, by omega⟩)] at hne
      exact hne rfl
  refine ⟨by rw [h2]; exact h.totalLo, by rw [h2]; exact h.totalHi, fun j k hne => ?_,
    fun j k j' l hne he => ?_, fun s hs => ?_, fun j => ?_⟩
  · obtain ⟨e, hj⟩ := hcase j k hne
    rw [e] at hne ⊢
    obtain ⟨r1, r2, r3⟩ := h.range j k hne
    refine ⟨r1, by rw [h2]; exact r2, (h5 _).2 ⟨r3, ?_⟩⟩
    rintro ⟨-, -, l, hl⟩
    exact hj (h.once j k i l hne hl.symm).1
  · obtain ⟨e1, -⟩ := hcase j k hne
    obtain ⟨e2, -⟩ := hcase j' l (by rw [← he]; exact hne)
    rw [e1] at hne he; rw [e2] at he
    exact h.once j k j' l hne he
  · exact (h5 s).2 ⟨h.reserved s hs, fun ⟨h97, _⟩ => by omega⟩
  · rw [h1]
    split
    · simp [Inode.held]
    · exact h.blocks j

/-- A block an inode lacks. -/
theorem held_update {n : Inode} {b : Fin 32} {s : Nat} (h0 : n.direct b = 0) (hs : s ≠ 0) :
    (Finset.univ.filter fun k => Function.update n.direct b s k ≠ 0).card = n.held + 1 := by
  have : (Finset.univ.filter fun k => Function.update n.direct b s k ≠ 0) =
      insert b (Finset.univ.filter fun k => n.direct k ≠ 0) := by
    ext k
    simp only [Finset.mem_filter, Finset.mem_univ, true_and, Finset.mem_insert]
    by_cases e : k = b
    · subst e; simp [hs]
    · simp [e]
  rw [this, Finset.card_insert_of_notMem (by simp [h0])]
  rfl

theorem held_le (n : Inode) : n.held ≤ 32 := by
  refine (Finset.card_le_univ _).trans ?_
  simp

/-- A new sector for a block that had none. -/
theorem Owned.assign {m : FsMem} (h : Owned m) (i : Nat) (b : Fin 32) (h0 : (m.inode i).direct b = 0) {s : Nat}
    (hs : firstFree m = some s) : Owned (assignBlock (bitmapSet m s) i b s) := by
  obtain ⟨s1, s2, s3⟩ := firstFree_some hs
  have hlt : s < 131072 := lt_of_lt_of_le s2 h.totalHi
  have hbit : ∀ t, bitSet (assignBlock (bitmapSet m s) i b s) t = (bitSet m t || decide (t = s)) := by
    intro t
    rw [← bitSet_bitmapSet m hlt]; rfl
  have hin : ∀ j, (assignBlock (bitmapSet m s) i b s).inode j = if j = i ∧ i < 128 then
      { m.inode i with direct := Function.update (m.inode i).direct b s
                       blocks := ((m.inode i).blocks + 1) % 2 ^ 32 } else m.inode j := by
    intro j; unfold assignBlock; rw [inode_setInode]; simp
  -- a sector of the new tables is the new one, at its place, or an old one
  have hcase : ∀ j k, ((assignBlock (bitmapSet m s) i b s).inode j).direct k ≠ 0 →
      (j = i ∧ k = b ∧ ((assignBlock (bitmapSet m s) i b s).inode j).direct k = s) ∨
      (((assignBlock (bitmapSet m s) i b s).inode j).direct k = (m.inode j).direct k ∧ (m.inode j).direct k ≠ s) := by
    intro j k hne
    have hold : (m.inode j).direct k ≠ 0 → (m.inode j).direct k ≠ s := by
      intro hne' e
      have := (h.range j k hne').2.2
      rw [e, s3] at this; cases this
    rw [hin] at hne ⊢
    split at hne
    · rename_i hj
      rw [if_pos hj]
      by_cases e : k = b
      · subst e; exact .inl ⟨hj.1, rfl, Function.update_self ..⟩
      · simp only [Function.update_of_ne e] at hne ⊢
        right; rw [hj.1]; rw [hj.1] at hold; exact ⟨rfl, hold hne⟩
    · rename_i hj
      rw [if_neg hj]; exact .inr ⟨rfl, hold hne⟩
  refine ⟨by simpa [assignBlock] using h.totalLo, by simpa [assignBlock] using h.totalHi, fun j k hne => ?_,
    fun j k j' l hne he => ?_, fun t ht => ?_, fun j => ?_⟩
  · have hsb : (assignBlock (bitmapSet m s) i b s).superblock = m.superblock := by simp [assignBlock]
    rw [hsb, hbit]
    rcases hcase j k hne with ⟨-, -, e⟩ | ⟨e, -⟩
    · rw [e]; exact ⟨s1, s2, by simp⟩
    · rw [e] at hne ⊢
      obtain ⟨r1, r2, r3⟩ := h.range j k hne
      exact ⟨r1, r2, by simp [r3]⟩
  · rcases hcase j k hne with ⟨rfl, rfl, e1⟩ | ⟨e1, n1⟩ <;>
      rcases hcase j' l (by rw [← he]; exact hne) with ⟨rfl, rfl, e2⟩ | ⟨e2, n2⟩
    · exact ⟨rfl, rfl⟩
    · rw [e1, e2] at he; exact absurd he.symm n2
    · rw [e1, e2] at he; exact absurd he n1
    · rw [e1] at hne he; rw [e2] at he
      exact h.once j k j' l hne he
  · rw [hbit, h.reserved t ht]; rfl
  · rw [hin]
    split
    · simp only [Inode.held]
      rw [held_update h0 (by omega), h.blocks i, Nat.mod_eq_of_lt (by have := held_le (m.inode i); omega)]
    · exact h.blocks j

/-! ## The steps of the file operations on the tables -/

/-- The blocks a write gives to an inode, one after the other. -/
inductive Grows (index : Nat) (m : FsMem) : FsMem → Prop
  | refl : Grows index m m
  | assign {m' : FsMem} (b : Fin 32) (s : Nat) : Grows index m m' → (m'.inode index).direct b = 0 →
      firstFree m' = some s → Grows index m (assignBlock (bitmapSet m' s) index b s)

/-- What one file operation can do to the tables. A write gives blocks to the inode of its handle
only when there is something to write and the position is below the maximal size. -/
inductive MemStep (m : FsMem) : Call → FsMem → Prop
  | skip (call : Call) : MemStep m call m
  | create (name : CStr) (i : Nat) : firstFreeInode m = some i → MemStep m (.create name) (setInode m i .fresh)
  | createUndone (name : CStr) (i : Nat) : firstFreeInode m = some i →
      MemStep m (.create name) (setInode m i { Inode.fresh with mode := fsModeFree })
  | delete (name : CStr) (i : Nat) : 0 < i → MemStep m (.delete name) (releaseInode m i)
  | handle (call : Call) (fd : Nat) (h : Handle) : fd < 16 → MemStep m call (setHandle m fd h)
  | write (fd : Int) (data : List Byte) (m' : FsMem) (position : Nat) : handleUsable m fd true = true →
      Grows (m.handles fd.toNat).inode.toNat m m' →
      (m' = m ∨ data ≠ [] ∧ (m.handles fd.toNat).position < fsMaxFileSize) →
      MemStep m (.write fd (some data)) (finishWrite m' fd.toNat (m.handles fd.toNat).inode.toNat position)

theorem Grows.owned {index : Nat} {m m' : FsMem} (h : Grows index m m') (hm : Owned m) : Owned m' := by
  induction h with
  | refl => exact hm
  | assign b s _ h0 hs ih => exact ih.assign index b h0 hs

theorem Grows.trans {i : Nat} {m₁ m₂ m₃ : FsMem} (h1 : Grows i m₁ m₂) (h2 : Grows i m₂ m₃) : Grows i m₁ m₃ := by
  induction h2 with
  | refl => exact h1
  | assign b s _ h0 hs ih => exact .assign b s ih h0 hs

theorem Grows.frame {index : Nat} {m m' : FsMem} (h : Grows index m m') : m'.superblock = m.superblock ∧
    m'.handles = m.handles ∧ m'.filesystemReady = m.filesystemReady := by
  induction h with
  | refl => exact ⟨rfl, rfl, rfl⟩
  | assign b s _ _ _ ih => simpa [assignBlock] using ih

theorem finishWrite_bits (m : FsMem) (fd i position : Nat) :
    (finishWrite m fd i position).superblock = m.superblock ∧ (finishWrite m fd i position).bitmap = m.bitmap := by
  unfold finishWrite; simp only; split <;> exact ⟨rfl, rfl⟩

theorem Owned.finishWrite {m : FsMem} (h : Owned m) (fd index position : Nat) :
    Owned (finishWrite m fd index position) := by
  have hin : ∀ j, ((SpectreOS.finishWrite m fd index position).inode j).direct = (m.inode j).direct ∧
      ((SpectreOS.finishWrite m fd index position).inode j).blocks = (m.inode j).blocks := by
    intro j
    unfold SpectreOS.finishWrite
    simp only
    split
    · rw [inode_setInode]
      split
      · rename_i hj; rw [hj.1]; exact ⟨rfl, rfl⟩
      · exact ⟨rfl, rfl⟩
    · exact ⟨rfl, rfl⟩
  have hsb : (SpectreOS.finishWrite m fd index position).superblock = m.superblock := by
    unfold SpectreOS.finishWrite; simp only; split <;> rfl
  have hbm : (SpectreOS.finishWrite m fd index position).bitmap = m.bitmap := by
    unfold SpectreOS.finishWrite; simp only; split <;> rfl
  refine ⟨by rw [hsb]; exact h.totalLo, by rw [hsb]; exact h.totalHi, fun j k => ?_, fun j k j' l => ?_,
    fun s hs => by rw [bitSet_congr hbm]; exact h.reserved s hs, fun j => ?_⟩
  · rw [(hin j).1, hsb, bitSet_congr hbm]; exact h.range j k
  · rw [(hin j).1, (hin j').1]; exact h.once j k j' l
  · rw [(hin j).2, h.blocks j]; unfold Inode.held; rw [(hin j).1]

theorem firstFreeInode_some {m : FsMem} {i : Nat} (h : firstFreeInode m = some i) :
    0 < i ∧ (m.inode i).mode = fsModeFree ∧ i < 128 := by
  have h1 := List.mem_of_find?_eq_some h
  have h2 := List.find?_some h
  rw [List.mem_range'_1] at h1
  simp only [fsMaxFiles] at h1
  exact ⟨by omega, by simpa using h2, by omega⟩

/-- Every file operation keeps the ownership invariant. -/
theorem MemStep.owned {m m' : FsMem} {call : Call} (h : MemStep m call m') (hm : Owned m) : Owned m' := by
  cases h with
  | skip => exact hm
  | create name i _ => exact hm.setInode_empty i _ rfl rfl
  | createUndone name i _ => exact hm.setInode_empty i _ rfl rfl
  | delete name i _ => exact hm.release i
  | handle fd h _ => exact hm.congr (fun _ => rfl) rfl rfl
  | write fd data m' position _ hg _ => exact (hg.owned hm).finishWrite _ _ _

theorem MemStep.superblock {m m' : FsMem} {call : Call} (h : MemStep m call m') (hm : Owned m) :
    m'.superblock = m.superblock := by
  cases h with
  | skip => rfl
  | create name i _ => rfl
  | createUndone name i _ => rfl
  | delete name i _ => exact (releaseInode_spec m i hm.totalHi).2.1
  | handle fd h _ => rfl
  | write fd data m' position _ hg _ =>
    unfold SpectreOS.finishWrite
    simp only
    split <;> exact hg.frame.1

end SpectreOS
