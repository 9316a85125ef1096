/-
What the storage functions do to the contents of the disk. The interface is a disk with known
contents on which a read fails only when `r` and a write only when `w`; each function has one
specification over it: the exact new contents on success, and on failure which sectors may have
changed.
-/
import SpectreOS.Fs.Ownership

namespace SpectreOS

open BlockIO Prog

/-- Requests below `N` against a disk with contents `d`. A failed write leaves its sector as it
was. -/
def exact (N : Nat) (r w : Bool) : Iface (Nat → Sector) Sector where
  readPre _ lba := lba < N
  readPost d lba res d' := d' = d ∧ (res = some (d lba) ∨ res = none ∧ r = true)
  writePre _ lba _ := lba < N
  writePost d lba b ok d' := d' = (if ok then Function.update d lba b else d) ∧ (ok = false → w = true)

section

variable {N : Nat} {r w : Bool} {d : Nat → Sector} {m : FsMem}

/-! ## The bitmap -/

/-- The disk with the bitmap of `m` saved. -/
def withBitmap (d : Nat → Sector) (m : FsMem) : Nat → Sector :=
  fun l => if 1 ≤ l ∧ l < 33 then bitmapSector m (l - 1) else d l

/-- The two disks agree outside the bitmap sectors. -/
def AgreeOffBitmap (d d' : Nat → Sector) : Prop := ∀ l, ¬ (1 ≤ l ∧ l < 33) → d' l = d l

theorem withBitmap_agree (d : Nat → Sector) (m : FsMem) : AgreeOffBitmap d (withBitmap d m) :=
  fun _ h => if_neg h

/-- The bitmap sectors hold the bitmap of `m`. -/
def BitmapSaved (d : Nat → Sector) (m : FsMem) : Prop := ∀ i < 32, d (1 + i) = bitmapSector m i

theorem withBitmap_saved (d : Nat → Sector) (m : FsMem) : BitmapSaved (withBitmap d m) m := by
  intro i hi
  unfold withBitmap
  rw [if_pos (by omega), Nat.add_sub_cancel_left]

theorem saveBitmap_exact (hN : 33 ≤ N) :
    saveBitmap.wp (exact N r w) (fun ok d' m' => m' = m ∧ AgreeOffBitmap d d' ∧
      (ok = true → d' = withBitmap d m) ∧ (ok = false → w = true)) d m := by
  refine wp_allM (J := fun done d' m' => m' = m ∧ AgreeOffBitmap d d' ∧
    ∀ i ∈ done, d' (1 + i) = bitmapSector m i) _ ⟨rfl, fun _ _ => rfl, by simp⟩ ?_ ?_
  · rintro done i rest d' m' hl ⟨hm, ha, hd⟩
    have hi : i < 32 := (range_split hl).2
    simp only [wp_bind, wp_load, wp_writeBlock]
    subst hm
    refine ⟨by simp only [exact, fsBitmapStart]; omega, ?_⟩
    rintro ok d'' ⟨rfl, hw⟩
    cases ok with
    | false => exact ⟨rfl, ha, by simp, fun _ => hw rfl⟩
    | true =>
      refine ⟨rfl, fun l hl => ?_, fun j hj => ?_⟩
      · simp only [↓reduceIte]
        rw [Function.update_of_ne (by simp only [fsBitmapStart]; omega), ha l hl]
      · simp only [↓reduceIte, fsBitmapStart]
        by_cases e : j = i
        · rw [e, Function.update_self]
        · rw [Function.update_of_ne (by omega)]
          exact hd j (by simpa [e] using hj)
  · rintro d' m' ⟨rfl, ha, hd⟩
    refine ⟨rfl, ha, fun _ => ?_, by simp⟩
    funext l
    unfold withBitmap
    split
    · rename_i hl
      rw [← hd (l - 1) (by simp only [List.mem_range, fsBitmapSectors]; omega),
        Nat.add_sub_cancel' hl.1]
    · rename_i hl
      exact ha l hl

/-- The bitmap bytes a disk holds. -/
theorem loadBitmap_exact (hN : 33 ≤ N) :
    loadBitmap.wp (exact N r w) (fun ok d' m' => d' = d ∧
      (ok = true → m'.superblock = m.superblock ∧ m'.inodes = m.inodes ∧ m'.handles = m.handles ∧
        ∀ i < 32, d (1 + i) = bitmapSector m' i) ∧ (ok = false → r = true)) d m := by
  refine wp_allM (J := fun done d' m' => d' = d ∧ m'.superblock = m.superblock ∧ m'.inodes = m.inodes ∧
    m'.handles = m.handles ∧ ∀ i ∈ done, d (1 + i) = bitmapSector m' i) _
    ⟨rfl, rfl, rfl, rfl, by simp⟩ ?_ ?_
  · rintro done i rest d' m' hl ⟨rfl, h1, h2, h3, hd⟩
    have hi : i < 32 := (range_split hl).2
    rw [wp_bind, wp_readBlock]
    refine ⟨by simp only [exact, fsBitmapStart]; omega, ?_⟩
    rintro res d'' ⟨rfl, (rfl | ⟨rfl, hr⟩)⟩
    · rw [wp_bind, wp_modify, wp_pure, if_pos rfl]
      refine ⟨rfl, h1, h2, h3, fun j hj => ?_⟩
      funext k
      have hk := k.isLt
      unfold bitmapSector
      simp only
      by_cases e : j = i
      · subst e
        rw [if_pos (by omega), Nat.add_sub_cancel_left, Block.slice_apply _ (by omega)]
        congr 1
        ext
        simp
      · rw [if_neg (by omega)]
        exact congrFun (hd j (by simpa [e] using hj)) k
    · exact ⟨rfl, by simp, fun _ => hr⟩
  · rintro d' m' ⟨rfl, h1, h2, h3, hd⟩
    exact ⟨rfl, fun _ => ⟨h1, h2, h3, fun i hi => hd i (by simpa using hi)⟩, by simp⟩

/-! ## The inode table -/

/-- An inode sector with one slot replaced. -/
def slotReplaced (s : Sector) (i : Nat) (n : Inode) : Sector :=
  (s.patch (i % 2 * 256) 256 fun _ => 0).patch (i % 2 * 256) 172 n.image

/-- The disk with inode `i` saved as `n`. -/
def withInode (d : Nat → Sector) (i : Nat) (n : Inode) : Nat → Sector :=
  Function.update d (33 + i / 2) (slotReplaced (d (33 + i / 2)) i n)

/-- The inode a disk holds at index `i`. -/
def storedInode (d : Nat → Sector) (i : Nat) : Inode := .ofImage ((d (33 + i / 2)).slice (i % 2 * 256))

/-- Slot `i` of the inode table is `n`, filled up with zeros. -/
def SlotSaved (d : Nat → Sector) (i : Nat) (n : Inode) : Prop :=
  ∀ k < 256, (d (33 + i / 2)).slice (i % 2 * 256) k = if k < 172 then n.image k else 0

theorem SlotSaved.stored {i : Nat} {n : Inode} (h : SlotSaved d i n) (hn : n.Fits) : storedInode d i = n := by
  refine Eq.trans (Inode.ofImage_congr fun k hk => ?_) (Inode.ofImage_image hn)
  rw [h k (by omega), if_pos hk]

theorem SlotSaved.congr {d d' : Nat → Sector} {i : Nat} {n : Inode} (h : SlotSaved d i n)
    (hd : d' (33 + i / 2) = d (33 + i / 2)) : SlotSaved d' i n := by
  unfold SlotSaved at h ⊢
  rwa [hd]

theorem withInode_slotSaved (d : Nat → Sector) (i : Nat) (n : Inode) : SlotSaved (withInode d i n) i n := by
  intro k hk
  unfold withInode slotReplaced
  rw [Function.update_self]
  split
  · rw [Block.slice_patch_inside _ _ (by omega) (by omega) (by omega), Nat.add_sub_cancel_left]
  · rw [Block.slice_patch_outside _ _ (by omega), Block.slice_patch_inside _ _ (by omega) (by omega) (by omega)]

/-- The bytes of the other slots. -/
theorem slice_withInode_of_ne (d : Nat → Sector) {i j k : Nat} (hij : j ≠ i) (hk : k < 256) (n : Inode) :
    (withInode d i n (33 + j / 2)).slice (j % 2 * 256) k = (d (33 + j / 2)).slice (j % 2 * 256) k := by
  unfold withInode
  by_cases e : 33 + j / 2 = 33 + i / 2
  · rw [e, Function.update_self]
    unfold slotReplaced
    rw [Block.slice_patch_outside _ _ (by omega), Block.slice_patch_outside _ _ (by omega)]
  · rw [Function.update_of_ne e]

theorem SlotSaved.withInode_of_ne {i j : Nat} {n' : Inode} (h : SlotSaved d j n') (hij : j ≠ i) (n : Inode) :
    SlotSaved (withInode d i n) j n' :=
  fun k hk => (slice_withInode_of_ne d hij hk n).trans (h k hk)

theorem storedInode_withInode (d : Nat → Sector) (i : Nat) {n : Inode} (hn : n.Fits) :
    storedInode (withInode d i n) i = n := (withInode_slotSaved d i n).stored hn

theorem storedInode_withInode_of_ne (d : Nat → Sector) {i j : Nat} (hij : j ≠ i) (n : Inode) :
    storedInode (withInode d i n) j = storedInode d j :=
  Inode.ofImage_congr fun k hk => slice_withInode_of_ne d hij (by omega) n

/-- Two disks with the same inodes saved in all slots of a sector. -/
theorem SlotSaved.sector_eq {d d' : Nat → Sector} {f : Nat → Inode} (h : ∀ i < 128, SlotSaved d i (f i))
    (h' : ∀ i < 128, SlotSaved d' i (f i)) {l : Nat} (h1 : 33 ≤ l) (h2 : l < 97) : d' l = d l := by
  funext j
  have hj := j.isLt
  obtain ⟨i, hi⟩ : ∃ i, i = (l - 33) * 2 + j / 256 := ⟨_, rfl⟩
  have hl : 33 + i / 2 = l := by omega
  have hoff : i % 2 * 256 + j % 256 = j := by omega
  have hb := (h' i (by omega) (j % 256) (by omega)).trans (h i (by omega) (j % 256) (by omega)).symm
  rw [hl, Block.slice_apply _ (by omega), Block.slice_apply _ (by omega)] at hb
  simpa only [hoff] using hb

theorem storedInode_congr {d d' : Nat → Sector} {i : Nat} (h : d' (33 + i / 2) = d (33 + i / 2)) :
    storedInode d' i = storedInode d i := by
  unfold storedInode; rw [h]

theorem saveInode_exact (hN : 97 ≤ N) {i : Nat} (hi : i < 128) :
    (saveInode i).wp (exact N r w) (fun ok d' m' => m' = m ∧
      d' = (if ok then withInode d i (m.inode i) else d) ∧ (ok = false → r = true ∨ w = true)) d m := by
  have hs : fsInodeStart + i * fsInodeSize / 512 = 33 + i / 2 := by simp only [fsInodeStart, fsInodeSize]; omega
  have ho : i * fsInodeSize % 512 = i % 2 * 256 := by simp only [fsInodeSize]; omega
  unfold saveInode
  rw [if_neg (by simp only [fsMaxFiles]; omega)]
  simp only [hs, ho]
  rw [if_neg (by simp only [fsInodeSize]; omega), wp_bind, wp_readBlock]
  refine ⟨by simp only [exact]; omega, ?_⟩
  rintro res d' ⟨rfl, (rfl | ⟨rfl, hr⟩)⟩
  · simp only [wp_bind, wp_load, wp_writeBlock]
    refine ⟨by simp only [exact]; omega, ?_⟩
    rintro ok d'' ⟨rfl, hw⟩
    exact ⟨trivial, rfl, fun h => .inr (hw h)⟩
  · exact ⟨rfl, rfl, fun _ => .inl hr⟩

theorem loadInodes_exact (hN : 97 ≤ N) :
    loadInodes.wp (exact N r w) (fun ok d' m' => d' = d ∧
      (ok = true → m'.superblock = m.superblock ∧ m'.bitmap = m.bitmap ∧ m'.handles = m.handles ∧
        ∀ i < 128, m'.inode i = storedInode d i) ∧ (ok = false → r = true)) d m := by
  refine wp_allM (J := fun done d' m' => d' = d ∧ m'.superblock = m.superblock ∧ m'.bitmap = m.bitmap ∧
    m'.handles = m.handles ∧ ∀ i < 128, i / 2 ∈ done → m'.inode i = storedInode d i) _
    ⟨rfl, rfl, rfl, rfl, by simp⟩ ?_ ?_
  · rintro done k rest d' m' hl ⟨rfl, h1, h2, h3, hd⟩
    have hk : k < 64 := (range_split hl).2
    rw [wp_bind, wp_readBlock]
    refine ⟨by simp only [exact, fsInodeStart]; omega, ?_⟩
    rintro res d'' ⟨rfl, (rfl | ⟨rfl, hr⟩)⟩
    · rw [wp_bind, wp_modify, wp_pure, if_pos rfl]
      refine ⟨rfl, h1, h2, h3, fun i hi hm => ?_⟩
      rw [inode_setInode, inode_setInode]
      by_cases e : i / 2 = k
      · subst e
        unfold storedInode
        rcases Nat.mod_two_eq_zero_or_one i with hi2 | hi2
        · rw [if_neg (by omega), if_pos (by omega), hi2]
        · rw [if_pos (by omega), hi2]
      · rw [if_neg (by omega), if_neg (by omega)]
        exact hd i hi (by simpa [e] using hm)
    · exact ⟨rfl, by simp, fun _ => hr⟩
  · rintro d' m' ⟨rfl, h1, h2, h3, hd⟩
    exact ⟨rfl, fun _ => ⟨h1, h2, h3, fun i hi => hd i hi (by
      simp only [List.mem_range, fsInodeSectors]; omega)⟩, by simp⟩

/-! ## Sector allocation -/

/-- A successful allocation takes the first free sector, saves the bitmap and zero-fills it; a
failed one leaves the memory as it was. -/
theorem allocateSector_exact (hN : 97 ≤ N) (htot : m.superblock.totalSectors = N) :
    allocateSector.wp (exact N r w) (fun res d' m' =>
      (∀ s, res = some s → firstFree m = some s ∧ m' = bitmapSet m s ∧
        d' = Function.update (withBitmap d (bitmapSet m s)) s fun _ => 0) ∧
      (res = none → m' = m ∧ AgreeOffBitmap d d' ∧ (firstFree m = none ∧ d' = d ∨ w = true))) d m := by
  unfold allocateSector
  rw [wp_bind, wp_load]
  cases hs : firstFree m with
  | none => exact ⟨by simp, fun _ => ⟨rfl, fun _ _ => rfl, .inl ⟨rfl, rfl⟩⟩⟩
  | some s =>
    obtain ⟨s1, s2, s3⟩ := firstFree_some hs
    rw [htot] at s2
    simp only [wp_bind, wp_modify]
    refine (saveBitmap_exact (by omega)).mono ?_
    rintro saved d' m' ⟨rfl, ha, hsaved, hfail⟩
    cases saved with
    | false => exact ⟨by simp, fun _ => ⟨bitmapClear_bitmapSet m s3, ha, .inr (hfail rfl)⟩⟩
    | true =>
      obtain rfl := hsaved rfl
      simp only [Bool.not_true, Bool.false_eq_true, ↓reduceIte, wp_bind, wp_writeBlock]
      refine ⟨s2, ?_⟩
      rintro ok d'' ⟨rfl, hw⟩
      cases ok with
      | true =>
        refine ⟨fun t ht => ?_, by simp⟩
        cases ht
        exact ⟨rfl, rfl, rfl⟩
      | false =>
        simp only [Bool.not_false, ↓reduceIte, wp_bind, wp_modify]
        refine (saveBitmap_exact (by omega)).mono ?_
        rintro _ d₃ m' ⟨rfl, ha', -, -⟩
        refine ⟨by simp, fun _ => ⟨bitmapClear_bitmapSet m s3, fun l hl => ?_, .inr (hw rfl)⟩⟩
        rw [ha' l hl, if_neg (by simp), withBitmap_agree d _ l hl]

end

end SpectreOS
