/-
What `fs_format` leaves behind: the root inode owns the first 32 data sectors, all zeroed, every
other inode is zero, nothing else but the metadata is marked used (`Formatted`), and the disk
holds the tables that are in memory (`Synced`). Formatting fails only when a request does.
-/
import SpectreOS.Fs.Exact

namespace SpectreOS

open BlockIO Prog

/-- The tables in memory are those on the disk. -/
structure Synced (d : Nat → Sector) (m : FsMem) : Prop where
  bitmap : BitmapSaved d m
  inodes : ∀ i < 128, storedInode d i = m.inode i

/-! ## The tables before the first allocation -/

theorem foldl_bitmapSet (l : List Nat) (m : FsMem) (hl : ∀ s ∈ l, s < 131072) :
    let f := l.foldl bitmapSet m
    f.inodes = m.inodes ∧ f.superblock = m.superblock ∧ f.handles = m.handles ∧
      (∀ k ≥ 16384, f.bitmap k = m.bitmap k) ∧ ∀ t, bitSet f t = true ↔ bitSet m t = true ∨ t ∈ l := by
  induction l generalizing m with
  | nil => simp
  | cons s l ih =>
    have hs : s < 131072 := hl s (List.mem_cons_self ..)
    obtain ⟨h1, h2, h3, h4, h5⟩ := ih (bitmapSet m s) (fun t ht => hl t (List.mem_cons_of_mem _ ht))
    refine ⟨by simpa using h1, by simpa using h2, by simpa using h3, fun k hk => ?_, fun t => ?_⟩
    · rw [List.foldl_cons, h4 k hk, bitmap_bitmapSet_of_ge m hs hk]
    · rw [List.foldl_cons, h5, bitSet_bitmapSet m hs]
      simp only [Bool.or_eq_true, decide_eq_true_eq, List.mem_cons]
      rw [or_assoc]

theorem zeroed_spec (f : FsMem) (h1 : f.inodes = fun _ => .zero) (i : Nat) :
    (setInode f 0 .fresh).inode i = if i = 0 then Inode.fresh else Inode.zero := by
  rw [inode_setInode]
  by_cases hi : i = 0
  · simp [hi]
  · rw [if_neg (by tauto), if_neg hi]
    unfold FsMem.inode
    rw [h1]
    split <;> rfl

/-- `resetTables` with the metadata sectors as a list. -/
theorem reserve_spec (l : List Nat) (hl : ∀ s ∈ l, s < 131072) (m : FsMem) :
    let f := setInode (l.foldl bitmapSet { m with
      bitmap := fun k => if k < fsBitmapSectors * 512 then 0 else m.bitmap k, inodes := fun _ => .zero }) 0 .fresh
    (∀ i, f.inode i = if i = 0 then Inode.fresh else Inode.zero) ∧ f.superblock = m.superblock ∧
      f.handles = m.handles ∧ (∀ k ≥ 16384, f.bitmap k = m.bitmap k) ∧
      ∀ t < 131072, (bitSet f t = true ↔ t ∈ l) := by
  obtain ⟨h1, h2, h3, h4, h5⟩ := foldl_bitmapSet l { m with
    bitmap := fun k => if k < fsBitmapSectors * 512 then 0 else m.bitmap k, inodes := fun _ => .zero } hl
  refine ⟨fun i => zeroed_spec _ h1 i, h2, h3, fun k hk => ?_, fun t ht => ?_⟩
  · rw [bitmap_setInode, h4 k hk]
    simp only
    rw [if_neg (by simp only [fsBitmapSectors]; omega)]
  · rw [bitSet_congr (bitmap_setInode _ _ _), h5]
    have : t / 8 < fsBitmapSectors * 512 := by simp only [fsBitmapSectors]; omega
    simp [bitSet, this]

/-! ## The allocation loop -/

/-- The root inode with its first `n` blocks. -/
def rootInode (n : Nat) : Inode := ⟨fsModeFile, 0, n, fun k => if k.val < n then 97 + k else 0, fun _ => 0⟩

theorem rootInode_held {n : Nat} (hn : n ≤ 32) : (rootInode n).held = n := by
  unfold Inode.held
  rw [Finset.filter_congr (q := fun k : Fin 32 => k.val < n) fun k _ => by simp [rootInode],
    Fin.card_filter_val_lt, Nat.min_eq_right hn]

theorem rootInode_fits : (rootInode 32).Fits := by
  intro k
  match k with
  | 0 => simp [Inode.word, rootInode]
  | 1 => simp [Inode.word, rootInode]
  | 2 => simp [Inode.word, rootInode]
  | k + 3 =>
    simp only [Inode.word, rootInode]
    split
    · omega
    · split <;> omega

theorem Inode.zero_fits : Inode.zero.Fits := by
  intro k
  match k with
  | 0 => simp [Inode.word, Inode.zero]
  | 1 => simp [Inode.word, Inode.zero]
  | 2 => simp [Inode.word, Inode.zero]
  | k + 3 => simp [Inode.word, Inode.zero]

/-- The tables after `n` blocks of the root directory, formatted from `m₀`. -/
structure Rooted (m₀ : FsMem) (n : Nat) (m : FsMem) : Prop where
  superblock : m.superblock = m₀.superblock
  handles : m.handles = m₀.handles
  root : m.inode 0 = rootInode n
  empty : ∀ i, 0 < i → m.inode i = .zero
  bits : ∀ t < 131072, (bitSet m t = true ↔ t < 97 + n)
  beyond : ∀ k ≥ 16384, m.bitmap k = m₀.bitmap k

theorem resetTables_rooted (m : FsMem) : Rooted m 0 (resetTables m) := by
  obtain ⟨h1, h2, h3, h4, h5⟩ :=
    reserve_spec (List.range fsDataStart) (by simp only [List.mem_range, fsDataStart]; omega) m
  simp only [List.mem_range] at h5
  refine ⟨h2, h3, (h1 0).trans ?_, fun i hi => (h1 i).trans (if_neg (by omega)), h5, h4⟩
  rfl

namespace Rooted

variable {m₀ m : FsMem} {n : Nat}

/-- First fit: the blocks of the root directory are consecutive. -/
theorem firstFree (h : Rooted m₀ n m) (hn : n < 32) (hN : 129 < m₀.superblock.totalSectors)
    (hN' : m₀.superblock.totalSectors ≤ 131072) : firstFree m = some (97 + n) := by
  cases hf : SpectreOS.firstFree m with
  | none =>
    have h1 := firstFree_none hf (s := 97 + n) (by omega) (by rw [h.superblock]; omega)
    rw [h.bits _ (by omega)] at h1
    omega
  | some s =>
    obtain ⟨s1, s2, s3⟩ := firstFree_some hf
    rw [h.superblock] at s2
    have h1 : ¬ s < 97 + n := fun hlt => by
      rw [(h.bits s (by omega)).2 hlt] at s3; cases s3
    have h2 : ¬ 97 + n < s := by
      intro hlt
      have := firstFree_least hf (t := 97 + n) (by omega) hlt
      rw [h.bits _ (by omega)] at this
      omega
    rw [show s = 97 + n by omega]

theorem assign (h : Rooted m₀ n m) (hn : n < 32) :
    Rooted m₀ (n + 1) (assignBlock (bitmapSet m (97 + n)) 0 ⟨n, hn⟩ (97 + n)) := by
  refine ⟨by simpa [assignBlock] using h.superblock, by simpa [assignBlock] using h.handles, ?_, fun i hi => ?_,
    fun t ht => ?_, fun k hk => ?_⟩
  · unfold assignBlock
    rw [inode_setInode, if_pos (by omega), inode_bitmapSet, h.root]
    unfold rootInode
    simp only [Inode.mk.injEq, true_and, and_true]
    refine ⟨Nat.mod_eq_of_lt (by omega), funext fun k => ?_⟩
    by_cases e : k = ⟨n, hn⟩
    · rw [e, Function.update_self]; simp
    · rw [Function.update_of_ne e]
      have : k.val ≠ n := fun h => e (Fin.ext h)
      exact if_congr (by omega) rfl rfl
  · unfold assignBlock
    rw [inode_setInode, if_neg (by omega), inode_bitmapSet, h.empty i hi]
  · rw [show bitSet (assignBlock (bitmapSet m (97 + n)) 0 ⟨n, hn⟩ (97 + n)) t =
      bitSet (bitmapSet m (97 + n)) t from rfl, bitSet_bitmapSet m (by omega), Bool.or_eq_true,
        h.bits t ht, decide_eq_true_eq]
    omega
  · rw [← h.beyond k hk]
    exact bitmap_bitmapSet_of_ge m (by omega) hk

end Rooted

/-! ## After format -/

/-- The tables of a disk freshly formatted from the memory `m₀`. -/
abbrev Formatted (m₀ m : FsMem) : Prop := Rooted m₀ 32 m

theorem Rooted.inode_fits {m₀ m : FsMem} (h : Formatted m₀ m) (i : Nat) : (m.inode i).Fits := by
  rcases Nat.eq_zero_or_pos i with rfl | hi
  · rw [h.root]; exact rootInode_fits
  · rw [h.empty i hi]; exact Inode.zero_fits

theorem Rooted.owned {m₀ m : FsMem} {n : Nat} (h : Rooted m₀ n m) (hn : n ≤ 32)
    (hN : 129 < m₀.superblock.totalSectors) (hN' : m₀.superblock.totalSectors ≤ 131072) : Owned m := by
  have hdir : ∀ i k, (m.inode i).direct k ≠ 0 → i = 0 ∧ k.val < n ∧ (m.inode i).direct k = 97 + k := by
    intro i k hne
    rcases Nat.eq_zero_or_pos i with rfl | hi
    · rw [h.root] at hne ⊢
      simp only [rootInode] at hne ⊢
      split at hne
      · rename_i hk; rw [if_pos hk]; exact ⟨trivial, hk, rfl⟩
      · exact absurd rfl hne
    · rw [h.empty i hi] at hne; exact absurd rfl hne
  refine ⟨by rw [h.superblock]; omega, by rw [h.superblock]; exact hN', fun i k hne => ?_,
    fun i k j l hne he => ?_, fun s hs => (h.bits s (by omega)).2 (by omega), fun i => ?_⟩
  · obtain ⟨-, h2, h3⟩ := hdir i k hne
    rw [h3, h.superblock, h.bits _ (by omega)]
    omega
  · obtain ⟨rfl, h2, h3⟩ := hdir i k hne
    obtain ⟨rfl, h5, h6⟩ := hdir j l (by rw [← he]; exact hne)
    rw [h3, h6] at he
    exact ⟨rfl, Fin.ext (by omega)⟩
  · rcases Nat.eq_zero_or_pos i with rfl | hi
    · rw [h.root, rootInode_held hn]; rfl
    · rw [h.empty i hi]; simp [Inode.held, Inode.zero]

theorem finRange_split {n : Nat} {x : Fin n} {pre post : List (Fin n)} (h : List.finRange n = pre ++ x :: post) :
    x.val = pre.length := by
  have hlt : pre.length < (List.finRange n).length := by rw [h]; simp
  have h1 : (List.finRange n)[pre.length]? = some x := by rw [h]; simp
  rw [List.getElem?_eq_getElem hlt, Option.some.injEq, List.getElem_finRange] at h1
  rw [← h1]; rfl

theorem range'_split {n x : Nat} {pre post : List Nat} (h : List.range' 1 n = pre ++ x :: post) :
    x = 1 + pre.length ∧ pre.length < n := by
  have hlt : pre.length < n := by
    have := congrArg List.length h
    simp at this; omega
  have h1 : (List.range' 1 n)[pre.length]? = some x := by rw [h]; simp
  rw [List.getElem?_range' hlt, Option.some.injEq] at h1
  exact ⟨by omega, hlt⟩

section

variable {N : Nat} {r w : Bool} {d : Nat → Sector} {m : FsMem}

/-- The allocation loop of `fs_format`. -/
theorem allocateRoot_exact {m₁ : FsMem} (hm : Rooted m 0 m₁) (hN : m.superblock.totalSectors = N) (h1 : 129 < N)
    (h2 : N ≤ 131072) :
    ((List.finRange 32).allM fun i => do
      match ← allocateSector with
      | none => pure false
      | some sector => modify (assignBlock · 0 i sector); pure true : FsM Bool).wp (exact N r w)
      (fun ok d' m' => (ok = true → Formatted m m' ∧ d' 0 = d 0 ∧ ∀ k < 32, d' (97 + k) = fun _ => 0) ∧
        (ok = false → w = true)) d m₁ := by
  refine wp_allM (J := fun pre d' m' => Rooted m pre.length m' ∧ d' 0 = d 0 ∧
    ∀ k < pre.length, d' (97 + k) = fun _ => 0) _ ⟨hm, rfl, by simp⟩ ?_ ?_
  · rintro pre b post d' m' hl ⟨hr, hd0, hdk⟩
    obtain ⟨b, hb⟩ := b
    obtain rfl : b = pre.length := finRange_split hl
    have hf := hr.firstFree hb (by omega) (by omega)
    refine (allocateSector_exact (by omega) (by rw [hr.superblock, hN])).seq ?_
    rintro (_ | s) d'' m'' ⟨hs, hn⟩
    · obtain ⟨-, -, ⟨hnone, -⟩ | hw⟩ := hn rfl
      · rw [hf] at hnone; cases hnone
      · exact ⟨by simp, fun _ => hw⟩
    · obtain ⟨hfs, rfl, rfl⟩ := hs s rfl
      obtain rfl : 97 + pre.length = s := Option.some.inj (hf.symm.trans hfs)
      rw [wp_bind, wp_modify, wp_pure, if_pos rfl, List.length_append, List.length_singleton]
      refine ⟨hr.assign hb, ?_, fun k hk => ?_⟩
      · rw [Function.update_of_ne (by omega), withBitmap_agree _ _ 0 (by omega), hd0]
      · by_cases e : k = pre.length
        · rw [e, Function.update_self]
        · rw [Function.update_of_ne (by omega), withBitmap_agree _ _ _ (by omega), hdk k (by omega)]
  · rintro d' m' ⟨hr, hd0, hdk⟩
    rw [List.length_finRange] at hr hdk
    exact ⟨fun _ => ⟨hr, hd0, hdk⟩, by simp⟩

/-- The loop of `fs_format` that saves the empty inodes, after the root inode. -/
theorem saveEmpty_exact (hN : 129 < N) (h0 : SlotSaved d 0 (m.inode 0)) (hz : ∀ i, 0 < i → m.inode i = .zero) :
    ((List.range' 1 (fsMaxFiles - 1)).allM saveInode).wp (exact N r w)
      (fun ok d' m' => m' = m ∧ (ok = true → (∀ i < 128, SlotSaved d' i (m.inode i)) ∧
        ∀ l, ¬ (33 ≤ l ∧ l < 97) → d' l = d l) ∧ (ok = false → r = true ∨ w = true)) d m := by
  refine wp_allM (J := fun pre d' m' => m' = m ∧ (∀ i ≤ pre.length, SlotSaved d' i (m.inode i)) ∧
    ∀ l, ¬ (33 ≤ l ∧ l < 97) → d' l = d l) _ ⟨rfl, fun i hi => ?_, fun _ _ => rfl⟩ ?_ ?_
  · obtain rfl : i = 0 := by simpa using hi
    exact h0
  · rintro pre i post d' m' hl ⟨rfl, hd, ha⟩
    obtain ⟨rfl, hlt⟩ := range'_split hl
    simp only [fsMaxFiles] at hlt
    refine (saveInode_exact (by omega) (by omega)).mono ?_
    rintro ok d'' m'' ⟨rfl, rfl, hf⟩
    cases ok with
    | false => exact ⟨rfl, by simp, hf⟩
    | true =>
      rw [if_pos rfl, if_pos rfl]
      refine ⟨rfl, fun i hi => ?_, fun l hl => ?_⟩
      · by_cases e : i = 1 + pre.length
        · rw [e]
          exact withInode_slotSaved _ _ _
        · exact (hd i (by simp at hi; omega)).withInode_of_ne e _
      · rw [withInode, Function.update_of_ne (by omega)]
        exact ha l hl
  · rintro d' m' ⟨rfl, hd, ha⟩
    exact ⟨rfl, fun _ => ⟨fun i hi => hd i (by simp only [List.length_range', fsMaxFiles]; omega), ha⟩, by simp⟩

/-- Formatting succeeds unless a request fails. -/
theorem formatTables_exact (hN : m.superblock.totalSectors = N) (h1 : 129 < N) (h2 : N ≤ 131072) :
    formatTables.wp (exact N r w) (fun ok d' m' =>
      (ok = true → Formatted m m' ∧ Synced d' m' ∧ (∀ i < 128, SlotSaved d' i (m'.inode i)) ∧ d' 0 = d 0 ∧
        ∀ k < 32, d' (97 + k) = fun _ => 0) ∧
      (ok = false → r = true ∨ w = true)) d m := by
  unfold formatTables
  rw [wp_bind, wp_modify]
  have hm := resetTables_rooted m
  generalize resetTables m = m₁ at hm ⊢
  refine (allocateRoot_exact hm hN h1 h2).seq ?_
  rintro (_ | _) d' m' ⟨hok, hfail⟩
  · exact ⟨by simp, fun _ => .inr (hfail rfl)⟩
  · obtain ⟨hf, hd0, hdk⟩ := hok rfl
    simp only [Bool.not_true, Bool.false_eq_true, ↓reduceIte]
    refine (saveInode_exact (by omega) (by omega)).seq ?_
    rintro ok d'' m'' ⟨rfl, rfl, hfail⟩
    cases ok with
    | false => exact ⟨by simp, fun _ => hfail rfl⟩
    | true =>
      simp only [Bool.not_true, Bool.false_eq_true, ↓reduceIte]
      refine (saveEmpty_exact h1 (withInode_slotSaved _ _ _) hf.empty).seq ?_
      rintro ok d₃ m₃ ⟨rfl, hd₃, hfail⟩
      cases ok with
      | false => exact ⟨by simp, fun _ => hfail rfl⟩
      | true =>
        obtain ⟨hst, ha⟩ := hd₃ rfl
        simp only [Bool.not_true, Bool.false_eq_true, ↓reduceIte]
        refine (saveBitmap_exact (by omega)).mono ?_
        rintro ok d₄ m₄ ⟨rfl, -, hs, hfail⟩
        refine ⟨fun hok => ?_, fun h => .inr (hfail h)⟩
        obtain rfl := hs hok
        have hsame : ∀ l, l = 0 ∨ 97 ≤ l → withBitmap d₃ m₄ l = d' l := by
          intro l hl
          rw [withBitmap_agree _ _ l (by omega), ha l (by omega), withInode, Function.update_of_ne (by omega)]
        have hslot : ∀ i < 128, SlotSaved (withBitmap d₃ m₄) i (m₄.inode i) := fun i hi =>
          (hst i hi).congr (withBitmap_agree d₃ m₄ _ (by omega))
        refine ⟨hf, ⟨withBitmap_saved _ _, fun i hi => (hslot i hi).stored (hf.inode_fits i)⟩, hslot,
          by rw [hsame 0 (by omega), hd0], fun k hk => by rw [hsame _ (by omega), hdk k hk]⟩

end

end SpectreOS
