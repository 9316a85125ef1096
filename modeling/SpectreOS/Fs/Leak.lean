/-
Sectors that no file owns. As long as no write gives sectors to an inode that is not in use, every
used data sector belongs to a file (`NoLeak`), and deleting all files frees all sectors; a write
through the handle of a deleted file loses the sector it allocates.
-/
import SpectreOS.Fs.Names

namespace SpectreOS

open BlockIO Prog

/-- The data sectors marked free. -/
def freeSectors (m : FsMem) : Finset Nat :=
  (Finset.range m.superblock.totalSectors).filter fun s => 97 ≤ s ∧ bitSet m s = false

/-- Every sector an inode gains is one free sector less. -/
theorem Grows.free_card {i : Nat} {m m' : FsMem} (hi : i < 128) (hO : Owned m) (h : Grows i m m') :
    (freeSectors m').card + (m'.inode i).held = (freeSectors m).card + (m.inode i).held := by
  induction h with
  | refl => rfl
  | @assign m' b s hg h0 hs ih =>
    obtain ⟨s1, s2, s3⟩ := firstFree_some hs
    have hlt : s < 131072 := lt_of_lt_of_le s2 (hg.owned hO).totalHi
    have hset : freeSectors (assignBlock (bitmapSet m' s) i b s) = (freeSectors m').erase s := by
      ext t
      have hsb : (assignBlock (bitmapSet m' s) i b s).superblock = m'.superblock := by simp [assignBlock]
      simp only [freeSectors, Finset.mem_erase, Finset.mem_filter, Finset.mem_range, hsb]
      rw [show bitSet (assignBlock (bitmapSet m' s) i b s) t = bitSet (bitmapSet m' s) t from rfl,
        bitSet_bitmapSet m' hlt, Bool.or_eq_false_iff, decide_eq_false_iff_not]
      constructor
      · rintro ⟨h1, h2, h3, h4⟩; exact ⟨h4, h1, h2, h3⟩
      · rintro ⟨h4, h1, h2, h3⟩; exact ⟨h1, h2, h3, h4⟩
    have hmem : s ∈ freeSectors m' := by
      simp only [freeSectors, Finset.mem_filter, Finset.mem_range]; exact ⟨s2, s1, s3⟩
    have hheld : ((assignBlock (bitmapSet m' s) i b s).inode i).held = (m'.inode i).held + 1 := by
      unfold Inode.held
      rw [inode_assignBlock _ hi]
      exact held_update h0 (by omega)
    have hpos := Finset.card_pos.2 ⟨s, hmem⟩
    rw [hset, Finset.card_erase_of_mem hmem, hheld]
    omega

theorem freeSectors_of_none {m : FsMem} (h : firstFree m = none) : freeSectors m = ∅ := by
  rw [Finset.eq_empty_iff_forall_notMem]
  intro s hs
  simp only [freeSectors, Finset.mem_filter, Finset.mem_range] at hs
  rw [firstFree_none h hs.2.1 hs.1] at hs
  simp at hs

/-- A write that would give a sector to an inode that is not in use: through a handle that was open
on a deleted file. -/
def Call.growsIdle (m : FsMem) : Call → Bool
  | .write fd (some data) =>
    handleUsable m fd true && decide ((m.inode (m.handles fd.toNat).inode.toNat).mode ≠ fsModeFile) &&
      !data.isEmpty && decide ((m.handles fd.toNat).position < fsMaxFileSize) && (firstFree m).isSome
  | _ => false

/-- Every used data sector belongs to an inode in use, and the root directory keeps its sectors. -/
structure NoLeak (m : FsMem) : Prop where
  used : ∀ s, 97 ≤ s → s < m.superblock.totalSectors → bitSet m s = true →
    ∃ i k, (m.inode i).mode = fsModeFile ∧ (m.inode i).direct k = s
  idle : ∀ i k, (m.inode i).mode ≠ fsModeFile → (m.inode i).direct k = 0
  rootMode : (m.inode 0).mode = fsModeFile
  root : ∀ k, (m.inode 0).direct k = 97 + k

theorem Fresh.noLeak {N : Nat} {d : Nat → Sector} {m : FsMem} (h : Fresh N d m) : NoLeak m := by
  have hroot : ∀ k : Fin 32, (m.inode 0).direct k = 97 + k := fun k => by
    rw [h.root]; exact if_pos k.isLt
  refine ⟨fun s h1 h2 h3 => ?_, fun i k hne => ?_, by rw [h.root]; rfl, hroot⟩
  · have hlt := (h.bits s (by have := h.hi; rw [h.total] at h2; omega)).1 h3
    refine ⟨0, ⟨s - 97, by omega⟩, by rw [h.root]; rfl, ?_⟩
    rw [hroot]
    simp only; omega
  · rcases Nat.eq_zero_or_pos i with rfl | hi
    · rw [h.root] at hne; exact absurd rfl hne
    · rw [h.empty i hi]; rfl

namespace NoLeak

variable {m : FsMem}

theorem congr {m' : FsMem} (h : NoLeak m) (hb : m'.bitmap = m.bitmap) (hs : m'.superblock = m.superblock)
    (hi : ∀ i, (m'.inode i).mode = (m.inode i).mode ∧ (m'.inode i).direct = (m.inode i).direct) : NoLeak m' := by
  refine ⟨fun s h1 h2 h3 => ?_, fun i k hne => ?_, by rw [(hi 0).1]; exact h.rootMode,
    fun k => by rw [(hi 0).2]; exact h.root k⟩
  · rw [hs] at h2; rw [bitSet_congr hb] at h3
    obtain ⟨i, k, h4, h5⟩ := h.used s h1 h2 h3
    exact ⟨i, k, by rw [(hi i).1]; exact h4, by rw [(hi i).2]; exact h5⟩
  · rw [(hi i).1] at hne; rw [(hi i).2]; exact h.idle i k hne

/-- An inode not in use may be replaced by one that refers to nothing. -/
theorem setInode_idle (h : NoLeak m) {i : Nat} (hi : 0 < i) (hm : (m.inode i).mode ≠ fsModeFile) (n : Inode)
    (hn : ∀ k, n.direct k = 0) : NoLeak (setInode m i n) := by
  refine ⟨fun s h1 h2 h3 => ?_, fun j k hne => ?_, ?_, fun k => ?_⟩
  · obtain ⟨j, k, h4, h5⟩ := h.used s h1 h2 h3
    have : j ≠ i := by rintro rfl; exact hm h4
    exact ⟨j, k, by rw [inode_setInode, if_neg (by tauto)]; exact h4,
      by rw [inode_setInode, if_neg (by tauto)]; exact h5⟩
  · rw [inode_setInode] at hne ⊢
    split
    · exact hn k
    · rename_i hj
      rw [if_neg hj] at hne
      exact h.idle j k hne
  · rw [inode_setInode, if_neg (by omega)]; exact h.rootMode
  · rw [inode_setInode, if_neg (by omega)]; exact h.root k

theorem release (h : NoLeak m) (hO : Owned m) {i : Nat} (hi : 0 < i) : NoLeak (releaseInode m i) := by
  obtain ⟨q1, q2, -, -, q5⟩ := releaseInode_spec m i hO.totalHi
  have hother : ∀ j, j ≠ i → (releaseInode m i).inode j = m.inode j := fun j hj => by
    rw [q1, if_neg (by tauto)]
  refine ⟨fun s h1 h2 h3 => ?_, fun j k hne => ?_, by rw [hother 0 (by omega)]; exact h.rootMode,
    fun k => by rw [hother 0 (by omega)]; exact h.root k⟩
  · rw [q2] at h2
    obtain ⟨h3, h4⟩ := (q5 s).1 h3
    obtain ⟨j, k, h5, h6⟩ := h.used s h1 h2 h3
    -- a sector of the deleted inode would have been freed
    have hj : j ≠ i := by
      rintro rfl
      exact h4 ⟨h1, h2, k, h6⟩
    exact ⟨j, k, by rw [hother j hj]; exact h5, by rw [hother j hj]; exact h6⟩
  · by_cases hj : j = i
    · subst hj
      by_cases hlt : j < 128
      · rw [q1, if_pos ⟨rfl, hlt⟩]
      · rw [inode_of_ge _ (by omega)]; rfl
    · rw [hother j hj] at hne ⊢
      exact h.idle j k hne

theorem grows (h : NoLeak m) (hO : Owned m) {i : Nat} (hi : (m.inode i).mode = fsModeFile) {m' : FsMem}
    (hg : Grows i m m') : NoLeak m' ∧ (m'.inode i).mode = fsModeFile := by
  induction hg with
  | refl => exact ⟨h, hi⟩
  | @assign m' b s hg h0 hs ih =>
    obtain ⟨ih, him⟩ := ih
    have hlt : s < 131072 := lt_of_lt_of_le (firstFree_some hs).2.1 (hg.owned hO).totalHi
    have hi128 : i < 128 := by
      by_contra hge
      rw [inode_of_ge _ (by omega)] at him
      cases him
    have hin : ∀ j, (assignBlock (bitmapSet m' s) i b s).inode j = if j = i ∧ i < 128 then
        { m'.inode i with direct := Function.update (m'.inode i).direct b s
                          blocks := ((m'.inode i).blocks + 1) % 2 ^ 32 } else m'.inode j := by
      intro j; unfold assignBlock; rw [inode_setInode]; simp
    have hmode : ∀ j, ((assignBlock (bitmapSet m' s) i b s).inode j).mode = (m'.inode j).mode := by
      intro j
      rw [hin]
      split
      · rename_i hj; rw [hj.1]
      · rfl
    have hdir : ∀ j k, (m'.inode j).direct k ≠ 0 →
        ((assignBlock (bitmapSet m' s) i b s).inode j).direct k = (m'.inode j).direct k := by
      intro j k hne
      rw [hin]
      split
      · rename_i hj
        obtain ⟨rfl, -⟩ := hj
        have : k ≠ b := by rintro rfl; exact hne h0
        simp [Function.update_of_ne this]
      · rfl
    refine ⟨⟨fun t h1 h2 h3 => ?_, fun j k hne => ?_, by rw [hmode]; exact ih.rootMode, fun k => ?_⟩, ?_⟩
    · rw [show bitSet (assignBlock (bitmapSet m' s) i b s) t = bitSet (bitmapSet m' s) t from rfl,
        bitSet_bitmapSet m' hlt, Bool.or_eq_true, decide_eq_true_eq] at h3
      rcases h3 with h3 | rfl
      · obtain ⟨j, k, h4, rfl⟩ := ih.used t h1 (by simpa [assignBlock] using h2) h3
        exact ⟨j, k, by rw [hmode]; exact h4, hdir j k (by omega)⟩
      · exact ⟨i, b, by rw [hmode]; exact him, by rw [hin, if_pos ⟨rfl, hi128⟩]; exact Function.update_self ..⟩
    · rw [hmode] at hne
      rw [hin, if_neg (by rintro ⟨rfl, -⟩; exact hne him)]
      exact ih.idle j k hne
    · rw [hdir 0 k (by rw [ih.root]; omega), ih.root]
    · rw [hmode]; exact him

theorem finishWrite_inode (m : FsMem) (fd i position j : Nat) :
    ((finishWrite m fd i position).inode j).mode = (m.inode j).mode ∧
      ((finishWrite m fd i position).inode j).direct = (m.inode j).direct := by
  unfold finishWrite
  simp only
  split
  · rw [inode_setInode]
    split
    · rename_i hj; rw [hj.1]; exact ⟨rfl, rfl⟩
    · exact ⟨rfl, rfl⟩
  · exact ⟨rfl, rfl⟩

theorem step (h : NoLeak m) (hO : Owned m) {call : Call} (hcall : call.growsIdle m = false) {m' : FsMem}
    (hs : MemStep m call m') : NoLeak m' := by
  cases hs with
  | skip => exact h
  | create name i hi =>
    obtain ⟨h1, h2, -⟩ := firstFreeInode_some hi
    exact h.setInode_idle h1 (by rw [h2]; decide) _ fun _ => rfl
  | createUndone name i hi =>
    obtain ⟨h1, h2, -⟩ := firstFreeInode_some hi
    exact h.setInode_idle h1 (by rw [h2]; decide) _ fun _ => rfl
  | delete name i hi => exact h.release hO hi
  | handle fd hd _ => exact h.congr rfl rfl fun _ => ⟨rfl, rfl⟩
  | write fd data m₁ position hu hg hne =>
    have hm₁ : NoLeak m₁ := by
      by_cases hmode : (m.inode (m.handles fd.toNat).inode.toNat).mode = fsModeFile
      · exact (h.grows hO hmode hg).1
      · -- nothing can have been allocated
        cases hf : firstFree m with
        | none =>
          have hnone : ∀ m₂, Grows (m.handles fd.toNat).inode.toNat m m₂ → m₂ = m := by
            intro m₂ hg
            induction hg with
            | refl => rfl
            | assign b s _ _ hs ih => rw [ih, hf] at hs; cases hs
          rw [hnone m₁ hg]; exact h
        | some s =>
          rcases hne with rfl | ⟨hd, hpos⟩
          · exact h
          · simp [Call.growsIdle, hu, hmode, hd, hpos, hf] at hcall
    obtain ⟨f1, f2⟩ := finishWrite_bits m₁ fd.toNat (m.handles fd.toNat).inode.toNat position
    exact hm₁.congr f2 f1 fun j => finishWrite_inode m₁ _ _ _ j

/-- When no file is left, the free sectors are those after format. -/
theorem free_card (h : NoLeak m) (hO : Owned m) (hno : ∀ i, 0 < i → (m.inode i).mode ≠ fsModeFile) :
    (freeSectors m).card = m.superblock.totalSectors - 129 := by
  have hset : freeSectors m = Finset.Ico 129 m.superblock.totalSectors := by
    ext s
    simp only [freeSectors, Finset.mem_filter, Finset.mem_range, Finset.mem_Ico]
    constructor
    · rintro ⟨h1, h2, h3⟩
      refine ⟨?_, h1⟩
      by_contra hlt
      have hd : (m.inode 0).direct ⟨s - 97, by omega⟩ = s := by rw [h.root]; simp only; omega
      have := (hO.range 0 ⟨s - 97, by omega⟩ (by rw [hd]; omega)).2.2
      rw [hd, h3] at this
      cases this
    · rintro ⟨h1, h2⟩
      refine ⟨h2, by omega, ?_⟩
      cases hb : bitSet m s with
      | false => rfl
      | true =>
        obtain ⟨i, k, h3, h4⟩ := h.used s (by omega) h2 hb
        rcases Nat.eq_zero_or_pos i with rfl | hi
        · rw [h.root] at h4; omega
        · exact absurd h3 (hno i hi)
  rw [hset, Nat.card_Ico]

end NoLeak

/-- A byte written to an empty inode gets a sector when one is free. -/
theorem WroteTo.first_byte {N : Nat} {d d' : Nat → Sector} {m m' : FsMem} {fd res : Int} {b : Byte} {i : Nat}
    (hS : Sound N d m) (hu : handleUsable m fd true = true) (hh : m.handles fd.toNat = ⟨i, 0⟩)
    (hdir : ∀ k, (m.inode i).direct k = 0) (hfree : (freeSectors m).Nonempty)
    (hw : WroteTo false false d m fd (some [b]) res d' m') :
    ∃ m₁, Grows i m m₁ ∧ (m₁.inode i).direct 0 ≠ 0 ∧ m' = finishWrite m₁ fd.toNat i 1 := by
  obtain ⟨-, -, i3, -⟩ := hS.usable hu
  rw [hh] at i3
  simp only [Int.toNat_natCast] at i3
  cases hw with
  | refused hno => rw [show (some [b]).isSome = true from rfl, hu] at hno; cases hno
  | full _ hp => rw [hh] at hp; simp at hp
  | done n d₁ m₁ d' _ hp W hd _ =>
    rw [hh] at W ⊢
    simp only [Int.toNat_natCast, Nat.zero_add] at W ⊢
    have hle := W.le
    simp only [Option.getD_some, List.length_cons, List.length_nil] at hle
    have hcard := W.grows.free_card i3 hS.owned
    obtain rfl : n = 1 := by
      by_contra hn
      obtain rfl : n = 0 := by omega
      -- nothing was added, so the free sectors are still there
      have hnone : ∀ k, (m₁.inode i).direct k = 0 := by
        intro k
        by_contra hne
        rcases W.added rfl rfl k hne with h1 | h1
        · exact h1 (hdir k)
        · omega
      rcases W.stuck (by simp) with h1 | h1 | ⟨h1, -⟩
      · cases h1
      · cases h1
      · have hheld : (m₁.inode i).held = (m.inode i).held := by
          unfold Inode.held
          simp [hnone, hdir]
        rw [freeSectors_of_none h1, hheld, Finset.card_empty] at hcard
        have := Finset.card_pos.2 hfree
        omega
    exact ⟨m₁, W.grows, W.filled 0 (by omega) (by omega), rfl⟩

theorem Vacant.free {N : Nat} {d : Nat → Sector} {m : FsMem} (h : Vacant d m) (hS : Sound N d m) :
    (freeSectors m).Nonempty := by
  refine ⟨129, ?_⟩
  simp only [freeSectors, Finset.mem_filter, Finset.mem_range, hS.total]
  refine ⟨hS.lo, by omega, ?_⟩
  have := (h.bits 129 (by omega)).not.2 (by omega)
  simpa using this

/-- On a filesystem without files, a byte written through a handle takes a sector that no file
has. -/
theorem Vacant.write_leaks {N : Nat} {d d' : Nat → Sector} {m m' : FsMem} {res : Int} {b : Byte} (h : Vacant d m)
    (hS : Sound N d m) (hh : m.handles 0 = ⟨1, 0⟩) (hw : WroteTo false false d m 0 (some [b]) res d' m') :
    ∃ t, 97 ≤ t ∧ t < m'.superblock.totalSectors ∧ bitSet m' t = true ∧
      ¬ ∃ i k, (m'.inode i).mode = fsModeFile ∧ (m'.inode i).direct k = t := by
  have hzero : m.inode 1 = .zero := h.inodes 1 (by omega)
  have hS' := hw.sound hS
  obtain ⟨m₁, hg, hne, rfl⟩ := WroteTo.first_byte (i := 1) hS (by simp [handleUsable, h.ready, hh])
    (show m.handles (0 : Int).toNat = _ from hh) (fun k => by rw [hzero]; rfl) (h.free hS) hw
  have hin := inode_finishWrite m₁ (0 : Int).toNat 1 1 1 (by omega)
  rw [if_pos rfl] at hin
  obtain ⟨r1, r2, r3⟩ := hS'.owned.range 1 0 (by rw [hin]; exact hne)
  refine ⟨_, r1, r2, r3, ?_⟩
  -- its owner is inode 1, which is free
  rintro ⟨j, k, hmode, hk⟩
  obtain ⟨rfl, -⟩ := hS'.owned.once j k 1 0 (by rw [hk]; omega) hk
  rw [hin] at hmode
  have := (hg.fields 1).1.symm.trans hmode
  rw [hzero] at this
  cases this

theorem leaks_of_fresh {cp : Primitives} {N : Nat} {s : Conf FsMem Machine} (h : Live cp N false false s)
    (hfresh : Fresh N (logicalDisk cp s.dev) s.mem) :
    let m := (runCalls (fsDisk cp) [.create nameA, .open nameA, .delete nameA, .write 0 (some [0x78])] s).2.mem
    ∃ t, 97 ≤ t ∧ t < m.superblock.totalSectors ∧ bitSet m t = true ∧
      ¬ ∃ i k, (m.inode i).mode = fsModeFile ∧ (m.inode i).direct k = t := by
  obtain ⟨hlive, hv, hh⟩ := create_open_delete nameA h hfresh.vacant (by
    rw [hfresh.closed 0 (by omega)]; decide) (by decide)
  obtain ⟨⟨-, heff⟩, -⟩ := hlive.call (.write 0 (some [0x78]))
  exact hv.write_leaks hlive.sound hh heff

section

variable (cp : Primitives) (material : Nat → Byte) (c : Conf FsMem Machine)

/-- As long as no write goes to an inode that is not in use, every used data sector belongs to a
file, and without files the free sectors are as many as after format. -/
theorem fsFormat_runCalls_noLeak (hreg : Registry c.dev) (h : (fsFormat (current cp) material c).1 = true)
    (calls : List Call)
    (hok : EveryStep (fun call s => call.growsIdle s.mem = false) (fsDisk cp) calls
      (fsFormat (current cp) material c).2) :
    let m := (runCalls (fsDisk cp) calls (fsFormat (current cp) material c).2).2.mem
    (∀ s, 97 ≤ s → s < m.superblock.totalSectors → bitSet m s = true →
      ∃ i k, (m.inode i).mode = fsModeFile ∧ (m.inode i).direct k = s) ∧
    ((∀ i, 0 < i → (m.inode i).mode ≠ fsModeFile) →
      (freeSectors m).card = (freeSectors (fsFormat (current cp) material c).2.mem).card) := by
  obtain ⟨-, -, -, -, slot, -, -, -, hfresh⟩ := fsFormat_current hreg h rfl
  obtain ⟨hO, hJ, hs⟩ := runCalls_invariant
    (J := fun m => NoLeak m ∧ m.superblock = (fsFormat (current cp) material c).2.mem.superblock)
    (fun m call m' hO hJ hc hm => ⟨hJ.1.step hO hc hm, (hm.superblock hO).trans hJ.2⟩) calls _ hfresh.owned
    ⟨hfresh.noLeak, rfl⟩ hok
  refine ⟨hJ.used, fun hno => ?_⟩
  rw [hJ.free_card hO hno, hs]
  refine (hfresh.noLeak.free_card hfresh.owned fun i hi => ?_).symm
  rw [hfresh.empty i hi]; decide

/-- A file that is written and then deleted while it is open. -/
theorem fsFormat_runCalls_noLeak_boot :
    let s := (fsFormat (current nullPrimitives) (fun _ => 0) (bootConf (blankDrive 200))).2
    let m := (runCalls (fsDisk nullPrimitives)
      [.create nameA, .open nameA, .write 0 (some [0x78]), .delete nameA] s).2.mem
    (∀ t, 97 ≤ t → t < m.superblock.totalSectors → bitSet m t = true →
      ∃ i k, (m.inode i).mode = fsModeFile ∧ (m.inode i).direct k = t) ∧
    ((∀ i, 0 < i → (m.inode i).mode ≠ fsModeFile) → (freeSectors m).card = (freeSectors s.mem).card) := by
  have h := fsFormat_boot nullPrimitives (fun _ => 0) (a := blankDrive 200) rfl (by decide) fun _ => rfl
  obtain ⟨hlive, hfresh⟩ := fsFormat_live (Registry.boot _) (.inr fun _ => rfl) h rfl
  refine fsFormat_runCalls_noLeak _ _ _ (Registry.boot _) h _ ?_
  refine (everyStep_append [.create nameA, .open nameA] [.write 0 (some [0x78]), .delete nameA] _).2
    ⟨⟨rfl, rfl, trivial⟩, ?_, rfl, trivial⟩
  obtain ⟨-, hmem, -⟩ := create_open nameA hlive hfresh.vacant (by rw [hfresh.closed 0 (by omega)]; decide) (by decide)
  rw [hmem]
  generalize (fsFormat (current nullPrimitives) (fun _ => 0) (bootConf (blankDrive 200))).2.mem = m
  -- the handle is on inode 1, which is in use
  have hhandle : (setHandle (setInode m 1 .fresh) 0 ⟨1, 0⟩).handles (0 : Int).toNat = ⟨1, 0⟩ :=
    show Function.update m.handles 0 (⟨1, 0⟩ : Handle) 0 = ⟨1, 0⟩ from Function.update_self 0 _ _
  have hmode : ((setHandle (setInode m 1 .fresh) 0 ⟨1, 0⟩).inode (1 : Int).toNat).mode = fsModeFile := by
    rw [inode_setHandle, inode_setInode, if_pos ⟨rfl, by decide⟩]
    rfl
  simp only [Call.growsIdle, hhandle, hmode, ne_eq, not_true_eq_false, decide_false, Bool.and_false, Bool.false_and]

/-- Writing one byte through the handle of a deleted file marks a sector used that no file has. -/
theorem fsFormat_runCalls_leaks :
    let s := (fsFormat (current nullPrimitives) (fun _ => 0) (bootConf (blankDrive 200))).2
    let m := (runCalls (fsDisk nullPrimitives)
      [.create nameA, .open nameA, .delete nameA, .write 0 (some [0x78])] s).2.mem
    ∃ t, 97 ≤ t ∧ t < m.superblock.totalSectors ∧ bitSet m t = true ∧
      ¬ ∃ i k, (m.inode i).mode = fsModeFile ∧ (m.inode i).direct k = t := by
  have h := fsFormat_boot nullPrimitives (fun _ => 0) (a := blankDrive 200) rfl (by decide) fun _ => rfl
  obtain ⟨hlive, hfresh⟩ := fsFormat_live (Registry.boot _) (.inr fun _ => rfl) h rfl
  exact leaks_of_fresh hlive hfresh

end

end SpectreOS
