/-
The bytes of a file: where `fs_read` finds them and what `fs_write` does to them. A block without
a sector reads as zeros here; the loops of the code stop at such a block when they read and fill it
when they write. The loops' specifications say which bytes were read or replaced, that no sector of
another inode changed, and why a loop stopped early.
-/
import SpectreOS.Fs.Format

namespace SpectreOS

open BlockIO Prog

/-- The sector of the block that holds byte `p`, 0 when there is none. -/
def Inode.blockOf (n : Inode) (p : Nat) : Nat := if h : p / 512 < 32 then n.direct ⟨p / 512, h⟩ else 0

theorem mod_sector_lt (p : Nat) : p % 512 < 512 := Nat.mod_lt p (by omega)

/-- Byte `p` of an inode's data. -/
def byteAt (d : Nat → Sector) (n : Inode) (p : Nat) : Byte :=
  if n.blockOf p = 0 then 0 else d (n.blockOf p) ⟨p % 512, mod_sector_lt p⟩

theorem Inode.blockOf_eq {n : Inode} {p : Nat} (h : p / 512 < 32) : n.blockOf p = n.direct ⟨p / 512, h⟩ := dif_pos h

theorem byteAt_congr {d d' : Nat → Sector} {n n' : Inode} {p : Nat} (hn : n'.blockOf p = n.blockOf p)
    (hd : n.blockOf p ≠ 0 → d' (n.blockOf p) = d (n.blockOf p)) : byteAt d' n' p = byteAt d n p := by
  unfold byteAt
  rw [hn]
  split
  · rfl
  · rename_i hne; rw [hd hne]

theorem byteAt_slice {d : Nat → Sector} {n : Inode} {p : Nat} (h : n.blockOf p ≠ 0) {off k : Nat}
    (hk : off + k < 512) (hp : p % 512 = off + k) : (d (n.blockOf p)).slice off k = byteAt d n p := by
  unfold byteAt
  rw [if_neg h, Block.slice_apply _ hk]
  congr 1
  exact Fin.ext hp.symm

section

variable {N : Nat} {r w : Bool} {d : Nat → Sector} {m : FsMem}

/-! ## Reading -/

/-- The read loop delivers the file's bytes, and stops early only at a failed read or at a block
without a sector. -/
theorem fsReadLoop_exact {i : Nat} (hdir : ∀ k, (m.inode i).direct k < N) (position size done : Nat)
    (hd : done ≤ size) :
    (fsReadLoop i position size done ((List.range done).map fun k => byteAt d (m.inode i) (position + k))).wp
      (exact N r w) (fun res d' m' => m' = m ∧ d' = d ∧ done ≤ res.1 ∧ res.1 ≤ size ∧
        res.2 = (List.range res.1).map (fun k => byteAt d (m.inode i) (position + k)) ∧
        (res.1 < size → r = true ∨ (m.inode i).blockOf (position + res.1) = 0)) d m := by
  induction hk : size - done using Nat.strong_induction_on generalizing done with
  | _ k ih =>
    rw [fsReadLoop]
    split
    · rename_i hlt
      split
      · rename_i hb
        have hblock : (m.inode i).blockOf (position + done) = (m.inode i).direct ⟨(position + done) / 512, hb⟩ :=
          Inode.blockOf_eq hb
        rw [wp_bind, wp_load]
        simp only [← hblock]
        split
        · rename_i h0
          exact ⟨rfl, rfl, le_rfl, hd, rfl, fun _ => .inr h0⟩
        · rename_i hne
          rw [wp_bind, wp_readBlock]
          refine ⟨by rw [hblock]; exact hdir _, ?_⟩
          rintro res d' ⟨rfl, (rfl | ⟨rfl, hr⟩)⟩
          · have hmod := Nat.mod_lt (position + done) (show 0 < 512 by omega)
            simp only
            generalize hc : min (512 - (position + done) % 512) (size - done) = chunk
            have hbytes : (List.range done).map (fun k => byteAt d' (m.inode i) (position + k)) ++
                (List.range chunk).map ((d' ((m.inode i).blockOf (position + done))).slice ((position + done) % 512)) =
                (List.range (done + chunk)).map fun k => byteAt d' (m.inode i) (position + k) := by
              rw [List.range_add, List.map_append, List.map_map]
              congr 1
              refine List.map_congr_left fun j hj => ?_
              rw [List.mem_range] at hj
              -- the chunk lies inside one block
              have hsame : (m.inode i).blockOf (position + (done + j)) = (m.inode i).blockOf (position + done) := by
                have he : (position + (done + j)) / 512 = (position + done) / 512 := by omega
                unfold Inode.blockOf
                simp only [he]
              show _ = byteAt d' (m.inode i) (position + (done + j))
              rw [← hsame]
              exact byteAt_slice (by rw [hsame]; exact hne) (by omega) (by omega)
            rw [hbytes]
            refine (ih _ (by omega) (done + chunk) (by omega) rfl).mono ?_
            rintro res d'' m'' ⟨rfl, rfl, h1, h2⟩
            exact ⟨rfl, rfl, by omega, h2⟩
          · exact ⟨rfl, rfl, le_rfl, hd, rfl, fun _ => .inl hr⟩
      · rename_i hb
        exact ⟨rfl, rfl, le_rfl, hd, rfl, fun _ => .inr (dif_neg hb)⟩
    · exact ⟨rfl, rfl, le_rfl, hd, rfl, fun h => by simp only at h; omega⟩

/-! ## Writing -/

/-- Writing part of a sector of an inode replaces those bytes and no others. -/
theorem byteAt_patch (hO : Owned m) {i : Nat} {b : Fin 32} (hne : (m.inode i).direct b ≠ 0) (off len : Nat)
    (src : Nat → Byte) (p : Nat) :
    byteAt (Function.update d ((m.inode i).direct b) ((d ((m.inode i).direct b)).patch off len src)) (m.inode i) p =
      if p / 512 = b ∧ off ≤ p % 512 ∧ p % 512 < off + len then src (p % 512 - off) else byteAt d (m.inode i) p := by
  by_cases hb : p / 512 = b
  · have hblock : (m.inode i).blockOf p = (m.inode i).direct b := by
      rw [Inode.blockOf_eq (by omega)]
      congr 1
      exact Fin.ext hb
    unfold byteAt
    rw [hblock, if_neg hne, if_neg hne, Function.update_self]
    unfold Block.patch
    by_cases hin : off ≤ p % 512 ∧ p % 512 < off + len
    · rw [if_pos hin, if_pos ⟨hb, hin⟩]
    · rw [if_neg hin, if_neg (by tauto)]
  · rw [if_neg (by tauto)]
    refine byteAt_congr rfl fun hne' => Function.update_of_ne ?_ _ _
    -- another block has another sector
    intro he
    by_cases hlt : p / 512 < 32
    · rw [Inode.blockOf_eq hlt] at hne' he
      have := (hO.once i ⟨p / 512, hlt⟩ i b hne' he).2
      exact hb (congrArg Fin.val this)
    · exact hne' (dif_neg hlt)

/-- What writing to inode `i` has done to the disk so far: only bitmap sectors and sectors that now
belong to the inode have changed. -/
def WriteFrame (i : Nat) (d d' : Nat → Sector) (m' : FsMem) : Prop :=
  ∀ l, ¬ (1 ≤ l ∧ l < 33) → (l = 0 ∨ ∀ k, (m'.inode i).direct k ≠ l) → d' l = d l

theorem inode_assignBlock (m : FsMem) {i s : Nat} (hi : i < 128) (b : Fin 32) :
    ((assignBlock (bitmapSet m s) i b s).inode i).direct = Function.update (m.inode i).direct b s := by
  unfold assignBlock
  rw [inode_setInode, if_pos ⟨rfl, hi⟩, inode_bitmapSet]

theorem Grows.direct {i : Nat} {m m' : FsMem} (h : Grows i m m') {k : Fin 32} (hk : (m.inode i).direct k ≠ 0) :
    (m'.inode i).direct k = (m.inode i).direct k := by
  induction h with
  | refl => rfl
  | @assign m' b s _ h0 _ ih =>
    by_cases hi : i < 128
    · rw [inode_assignBlock _ hi]
      have : k ≠ b := by rintro rfl; rw [ih] at h0; exact hk h0
      rw [Function.update_of_ne this, ih]
    · rw [inode_of_ge m (by omega)] at hk; exact absurd rfl hk

/-- A block is there, or a fresh one of zeros was added. -/
theorem ensureBlock_exact (hN : 97 ≤ N) (htot : m.superblock.totalSectors = N) (hO : Owned m) {i : Nat}
    (hi : i < 128) (b : Fin 32) :
    (ensureBlock i b).wp (exact N r w) (fun res d' m' => Grows i m m' ∧ WriteFrame i d d' m' ∧
      (∀ p, byteAt d' (m'.inode i) p = byteAt d (m.inode i) p) ∧
      (∀ lba, res = some lba → (m'.inode i).direct b = lba ∧ lba ≠ 0 ∧
        ∀ k, (m'.inode i).direct k ≠ 0 → (m.inode i).direct k ≠ 0 ∨ k = b) ∧
      (res = none → m' = m ∧ (m.inode i).direct b = 0 ∧ (firstFree m = none ∨ w = true))) d m := by
  unfold ensureBlock
  rw [wp_bind, wp_load]
  split
  · rename_i h0
    refine (allocateSector_exact hN htot).seq ?_
    rintro (_ | s) d' m' ⟨hs, hn⟩
    · obtain ⟨rfl, ha, hwhy⟩ := hn rfl
      refine ⟨.refl, fun l hl _ => ha l hl, fun p => ?_, by simp, fun _ => ⟨rfl, h0, hwhy.imp (·.1) id⟩⟩
      refine byteAt_congr rfl fun hne => ha _ ?_
      by_cases hp : p / 512 < 32
      · rw [Inode.blockOf_eq hp] at hne ⊢
        have := (hO.range i _ hne).1
        omega
      · exact absurd (dif_neg hp) hne
    · obtain ⟨hfree, rfl, rfl⟩ := hs s rfl
      obtain ⟨s1, s2, s3⟩ := firstFree_some hfree
      have hdir := inode_assignBlock (s := s) m hi b
      refine ⟨.assign b s .refl h0 hfree, fun l hl hne => ?_, fun p => ?_, ?_, by simp⟩
      · have hls : l ≠ s := by
          rintro rfl
          rcases hne with h0 | hne
          · omega
          · exact hne b (by rw [hdir, Function.update_self])
        rw [Function.update_of_ne hls, withBitmap_agree _ _ l hl]
      · by_cases hp : p / 512 < 32
        · by_cases hb : (⟨p / 512, hp⟩ : Fin 32) = b
          · -- the new sector holds zeros, as the missing block did
            have h1 : ((assignBlock (bitmapSet m s) i b s).inode i).blockOf p = s := by
              rw [Inode.blockOf_eq hp, hdir, hb, Function.update_self]
            have h2 : (m.inode i).blockOf p = 0 := by rw [Inode.blockOf_eq hp, hb, h0]
            unfold byteAt
            rw [h1, h2, if_neg (by omega), if_pos rfl, Function.update_self]
          · refine byteAt_congr ?_ fun hne => ?_
            · rw [Inode.blockOf_eq hp, Inode.blockOf_eq hp, hdir, Function.update_of_ne hb]
            · rw [Inode.blockOf_eq hp] at hne ⊢
              obtain ⟨r1, -, r3⟩ := hO.range i _ hne
              have hls : (m.inode i).direct ⟨p / 512, hp⟩ ≠ s := by
                intro e; rw [e, s3] at r3; cases r3
              rw [Function.update_of_ne hls, withBitmap_agree _ _ _ (by omega)]
        · have h1 : ((assignBlock (bitmapSet m s) i b s).inode i).blockOf p = 0 := dif_neg hp
          have h2 : (m.inode i).blockOf p = 0 := dif_neg hp
          unfold byteAt
          rw [if_pos h1, if_pos h2]
      · rintro lba e
        cases e
        refine ⟨by rw [hdir, Function.update_self], by omega, fun k hk => ?_⟩
        by_cases hkb : k = b
        · exact .inr hkb
        · rw [hdir, Function.update_of_ne hkb] at hk; exact .inl hk
  · rename_i hne
    exact ⟨.refl, fun _ _ _ => rfl, fun _ => rfl, fun lba e => by
      cases e; exact ⟨rfl, hne, fun k hk => .inl hk⟩, by simp⟩

/-- What a run of the write loop from `done` to `done'` has done. -/
structure Wrote (r w : Bool) (i position size : Nat) (input : Nat → Byte) (d : Nat → Sector) (m : FsMem)
    (done done' : Nat) (d' : Nat → Sector) (m' : FsMem) : Prop where
  grows : Grows i m m'
  frame : WriteFrame i d d' m'
  ge : done ≤ done'
  le : done' ≤ size
  bytes : ∀ p, byteAt d' (m'.inode i) p =
    if position + done ≤ p ∧ p < position + done' then input (p - position) else byteAt d (m.inode i) p
  filled : ∀ p, position + done ≤ p → p < position + done' → (m'.inode i).blockOf p ≠ 0
  added : r = false → w = false → ∀ k : Fin 32, (m'.inode i).direct k ≠ 0 → (m.inode i).direct k ≠ 0 ∨
    (position + done) / 512 ≤ k ∧ k * 512 < position + done'
  stuck : done' < size → r = true ∨ w = true ∨ firstFree m' = none ∧ (m'.inode i).blockOf (position + done') = 0

theorem Wrote.nothing {i position size done : Nat} {input : Nat → Byte} {d' : Nat → Sector} {m' : FsMem}
    (hd : done ≤ size) (hg : Grows i m m') (hf : WriteFrame i d d' m')
    (hb : ∀ p, byteAt d' (m'.inode i) p = byteAt d (m.inode i) p)
    (ha : r = false → w = false → ∀ k : Fin 32, (m'.inode i).direct k ≠ 0 → (m.inode i).direct k ≠ 0)
    (hs : done < size → r = true ∨ w = true ∨ firstFree m' = none ∧ (m'.inode i).blockOf (position + done) = 0) :
    Wrote r w i position size input d m done done d' m' :=
  ⟨hg, hf, le_rfl, hd, fun p => by rw [if_neg (by omega)]; exact hb p, fun p h1 h2 => by omega,
    fun h1 h2 k hk => .inl (ha h1 h2 k hk), hs⟩

/-- The write loop replaces the bytes it counts and stops early only at a failed request or when no
sector is free. -/
theorem fsWriteLoop_exact (hN : 97 ≤ N) (htot : m.superblock.totalSectors = N) (hO : Owned m) {i : Nat} (hi : i < 128)
    (position size : Nat) (hmax : position + size ≤ 16384) (input : Nat → Byte) (done : Nat) (hd : done ≤ size) :
    (fsWriteLoop i position size input done).wp (exact N r w) (Wrote r w i position size input d m done) d m := by
  induction hk : size - done using Nat.strong_induction_on generalizing done d m with
  | _ k ih =>
    rw [fsWriteLoop]
    split
    · rename_i hlt
      rw [dif_pos (show (position + done) / 512 < 32 by omega)]
      have hb : (position + done) / 512 < 32 := by omega
      refine (ensureBlock_exact hN htot hO hi ⟨(position + done) / 512, hb⟩).seq ?_
      rintro (_ | lba) d₁ m₁ ⟨hg₁, hf₁, hb₁, hsome, hnone⟩
      · obtain ⟨rfl, h0, hwhy⟩ := hnone rfl
        refine .nothing hd hg₁ hf₁ hb₁ (fun _ _ _ h => h) fun _ => ?_
        rcases hwhy with h | h
        · exact .inr (.inr ⟨h, by rw [Inode.blockOf_eq hb]; exact h0⟩)
        · exact .inr (.inl h)
      · obtain ⟨rfl, hne, hadd⟩ := hsome lba rfl
        have hO₁ := hg₁.owned hO
        have htot₁ : m₁.superblock.totalSectors = N := by rw [hg₁.frame.1, htot]
        have hlba : (m₁.inode i).direct ⟨(position + done) / 512, hb⟩ < N := by
          rw [← htot₁]; exact (hO₁.range i _ hne).2.1
        rw [wp_bind, wp_readBlock]
        refine ⟨hlba, ?_⟩
        rintro res d' ⟨rfl, (rfl | ⟨rfl, hr⟩)⟩
        · simp only
          have hmod := Nat.mod_lt (position + done) (show 0 < 512 by omega)
          generalize hc : min (512 - (position + done) % 512) (size - done) = chunk
          rw [wp_bind, wp_writeBlock]
          refine ⟨hlba, ?_⟩
          rintro ok d₂ ⟨rfl, hw⟩
          cases ok with
          | false =>
            rw [if_neg (by simp)]
            exact .nothing hd hg₁ hf₁ hb₁ (fun _ h => by rw [hw rfl] at h; cases h) fun _ => .inr (.inl (hw rfl))
          | true =>
            simp only [↓reduceIte]
            refine (ih _ (by omega) htot₁ hO₁ (done + chunk) (by omega) rfl).mono ?_
            rintro done' d₃ m₃ W
            have hkeep : ∀ k, (m₁.inode i).direct k ≠ 0 → (m₃.inode i).direct k = (m₁.inode i).direct k :=
              fun k hk => W.grows.direct hk
            have hge := W.ge
            refine ⟨hg₁.trans W.grows, fun l hl hnl => ?_, by omega, W.le, fun p => ?_, fun p h1 h2 => ?_,
              fun h1 h2 k hk => ?_, W.stuck⟩
            · have h1 : l = 0 ∨ ∀ k, (m₁.inode i).direct k ≠ l := by
                rcases hnl with h0 | hnl
                · exact .inl h0
                · by_cases h0 : l = 0
                  · exact .inl h0
                  · refine .inr fun k e => hnl k ?_
                    rw [hkeep k (by rw [e]; exact h0), e]
              have h2 : l ≠ (m₁.inode i).direct ⟨(position + done) / 512, hb⟩ := by
                rcases h1 with h0 | h1
                · rw [h0]; exact hne.symm
                · exact (h1 _).symm
              rw [W.frame l hl hnl, Function.update_of_ne h2, hf₁ l hl h1]
            · rw [W.bytes p, byteAt_patch hO₁ hne, hb₁ p]
              by_cases h1 : position + (done + chunk) ≤ p ∧ p < position + done'
              · rw [if_pos h1, if_pos (by omega)]
              · rw [if_neg h1]
                by_cases h2 : position + done ≤ p ∧ p < position + done'
                · -- the chunk just written
                  rw [if_pos h2, if_pos (by simp only; omega)]
                  congr 1
                  omega
                · rw [if_neg h2, if_neg (by simp only; omega)]
            · by_cases h3 : position + (done + chunk) ≤ p
              · exact W.filled p h3 h2
              · have he : p / 512 = (position + done) / 512 := by omega
                have hbp : (m₃.inode i).blockOf p = (m₃.inode i).direct ⟨(position + done) / 512, hb⟩ := by
                  unfold Inode.blockOf
                  simp only [he, hb, ↓reduceDIte]
                rw [hbp, hkeep _ hne]
                exact hne
            · rcases W.added h1 h2 k hk with h3 | h3
              · rcases hadd k h3 with h4 | rfl
                · exact .inl h4
                · refine .inr ⟨le_rfl, ?_⟩
                  simp only
                  omega
              · refine .inr ⟨?_, h3.2⟩
                omega
        · exact .nothing hd hg₁ hf₁ hb₁ (fun h => by rw [hr] at h; cases h) fun _ => .inl hr
    · exact .nothing hd .refl (fun _ _ _ => rfl) (fun _ => rfl) (fun _ _ _ h => h) fun h => absurd h (by omega)

end

end SpectreOS
