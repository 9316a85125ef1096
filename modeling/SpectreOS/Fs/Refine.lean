/-
The filesystem refines its model. `Refines` relates disk and memory to `Files`: the directory names
the model's files, each file's inode holds its bytes in a dense run of sectors, each handle stands
where the model's does, and as many sectors are free. Every call the model permits returns what the
model returns and keeps the relation; so does every run, and every mount of the disk.
-/
import SpectreOS.Fs.Model
import SpectreOS.Fs.Leak
import SpectreOS.Fs.Linked
import SpectreOS.Fs.Persist
import Mathlib.Data.Fintype.Fin

namespace SpectreOS

open BlockIO Prog

/-! ## Inodes and strings -/

/-- The inode holds the string, in sectors for exactly the blocks it reaches. -/
structure Holds (d : Nat → Sector) (n : Inode) (data : List Byte) : Prop where
  size : n.size = data.length
  bytes : ∀ p (h : p < data.length), byteAt d n p = data[p]
  dense : ∀ k : Fin 32, n.direct k ≠ 0 ↔ k * 512 < data.length

section

variable {N : Nat} {d d' : Nat → Sector} {m m' : FsMem} {n : Inode} {data : List Byte}

theorem Holds.held (h : Holds d n data) (hlen : data.length ≤ 16384) : n.held = sectorsOf data := by
  have hset : (Finset.univ.filter fun k => n.direct k ≠ 0) =
      Finset.univ.filter fun k : Fin 32 => k.val < sectorsOf data := by
    refine Finset.filter_congr fun k _ => ?_
    rw [h.dense k]
    simp only [sectorsOf]
    omega
  unfold Inode.held
  rw [hset, Fin.card_filter_val_lt]
  simp only [sectorsOf]
  omega

theorem Holds.bytesFrom (h : Holds d n data) (p size : Nat) :
    bytesFrom d n p (min size (data.length - p)) = (data.drop p).take size := by
  refine List.ext_getElem ?_ fun k hk hk' => ?_
  · simp [SpectreOS.bytesFrom]
  · simp only [SpectreOS.bytesFrom, List.length_map, List.length_range] at hk
    simp only [SpectreOS.bytesFrom, List.getElem_map, List.getElem_range, List.getElem_take, List.getElem_drop]
    exact h.bytes (p + k) (by omega)

theorem Holds.fileBytes (h : Holds d n data) : SpectreOS.bytesFrom d n 0 n.size = data := by
  have := h.bytesFrom 0 data.length
  rw [h.size]
  simpa using this

theorem Holds.same {j : Nat} (h : Holds d (m.inode j) data) (hs : SameFile d m d' m' j) :
    Holds d' (m'.inode j) data := by
  refine ⟨by rw [hs.1]; exact h.size, fun p hp => ?_, fun k => by rw [hs.1]; exact h.dense k⟩
  rw [hs.2 p]; exact h.bytes p hp

/-- The file has no holes, so a read goes as far as it can. -/
theorem Holds.read_count (h : Holds d n data) (hlen : data.length ≤ 16384) {p size k : Nat}
    (hle : k ≤ min size (data.length - p)) (hstop : k < min size (data.length - p) → n.blockOf (p + k) = 0) :
    k = min size (data.length - p) := by
  by_contra hne
  have hzero := hstop (by omega)
  rw [Inode.blockOf_eq (by omega)] at hzero
  exact (h.dense ⟨(p + k) / 512, by omega⟩).2 (by simp only; omega) hzero

theorem holds_fresh (d : Nat → Sector) : Holds d .fresh [] :=
  ⟨rfl, fun p hp => by simp at hp, fun k => by simp [Inode.fresh, Inode.zero]⟩

/-- The sectors of a file are behind the directory's. -/
theorem Sound.direct_ge (h : Sound N d m) {j : Nat} (hj : 1 ≤ j) {k : Fin 32} (hk : (m.inode j).direct k ≠ 0) :
    129 ≤ (m.inode j).direct k := by
  by_contra hlt
  have hlo := (h.owned.range j k hk).1
  have hroot : (m.inode 0).direct ⟨(m.inode j).direct k - 97, by omega⟩ = (m.inode j).direct k := by
    rw [h.root]
    simp only [rootInode]
    rw [if_pos (by omega)]
    omega
  have := (h.owned.once j k 0 _ hk hroot.symm).1
  omega

/-- A file is not touched when its inode and the sectors behind the directory stay. -/
theorem Sound.sameFile (h : Sound N d m) {j : Nat} (hj : 1 ≤ j) (hm : m'.inode j = m.inode j)
    (hd : ∀ l, 129 ≤ l → d' l = d l) : SameFile d m d' m' j :=
  SameFile.of_sectors (fun _ hk => hd _ (h.direct_ge hj hk)) hm

/-! ## Writing -/

/-- A write to a file that holds a string: the string it holds then, and how far the write got. -/
theorem Wrote.holds {i p size k : Nat} {input : Nat → Byte} {d₁ : Nat → Sector} {m₁ : FsMem}
    (W : Wrote false false i p size input d m 0 k d₁ m₁) (h : Holds d (m.inode i) data) (hp : p ≤ data.length)
    {bytes : List Byte} (hb : bytes.length = k) (hin : ∀ j < k, bytes.getD j 0 = input j) :
    Holds d₁ { m₁.inode i with size := max (m₁.inode i).size (p + k) } (overwrite data p bytes) := by
  have hlen := length_overwrite hp bytes
  refine ⟨?_, fun q hq => ?_, fun b => ?_⟩
  · simp only
    rw [(W.grows.fields i).2.1, h.size, hlen, hb]
  · rw [getElem_overwrite hp]
    have hbyte := W.bytes q
    rw [Nat.add_zero] at hbyte
    refine Eq.trans ?_ (hbyte.trans ?_)
    · rfl
    · rw [hb]
      split
      · exact (hin _ (by omega)).symm
      · rw [List.getD_eq_getElem _ _ (by omega)]
        exact h.bytes q (by omega)
  · rw [hlen, hb]
    constructor
    · intro hne
      rcases W.added rfl rfl b hne with hold | ⟨-, hnew⟩
      · have := (h.dense b).1 hold; omega
      · omega
    · intro hlt
      by_cases hold : (b : Nat) * 512 < data.length
      · have hne := (h.dense b).2 hold
        show (m₁.inode i).direct b ≠ 0
        rw [W.grows.direct hne]; exact hne
      · -- the block was filled by this write
        have hfill := W.filled (b * 512) (by omega) (by omega)
        rwa [Inode.blockOf_eq (by omega), show (⟨b * 512 / 512, by omega⟩ : Fin 32) = b from
          Fin.ext (Nat.mul_div_cancel _ (by omega))] at hfill

/-- The string is in the file when the write has updated the inode and saved the tables. -/
theorem Wrote.finish {i p size k fd : Nat} {input : Nat → Byte} {d₁ : Nat → Sector} {m₁ : FsMem} (hi : i < 128)
    (hO : Owned m) (W : Wrote false false i p size input d m 0 k d₁ m₁) (h : Holds d (m.inode i) data)
    (hp : p ≤ data.length) {bytes : List Byte} (hb : bytes.length = k) (hin : ∀ j < k, bytes.getD j 0 = input j)
    (hd : ∀ l, ¬ (1 ≤ l ∧ l < 97) → d' l = d₁ l) :
    Holds d' ((finishWrite m₁ fd i (p + k)).inode i) (overwrite data p bytes) := by
  have hnew := W.holds h hp hb hin
  rw [inode_finishWrite m₁ fd i (p + k) i hi, if_pos rfl]
  refine ⟨hnew.size, fun q hq => ?_, hnew.dense⟩
  rw [← hnew.bytes q hq]
  refine byteAt_congr rfl fun hne => hd _ ?_
  by_cases hq' : q / 512 < 32
  · rw [Inode.blockOf_eq hq'] at hne ⊢
    have := ((W.grows.owned hO).range i ⟨q / 512, hq'⟩ hne).1
    show ¬ (1 ≤ (m₁.inode i).direct _ ∧ (m₁.inode i).direct _ < 97)
    omega
  · exact absurd (dif_neg hq') hne

/-- How far the write got. -/
theorem Wrote.count {i p size k : Nat} {input : Nat → Byte} {d₁ : Nat → Sector} {m₁ : FsMem} (hi : i < 128)
    (hO : Owned m) (W : Wrote false false i p size input d m 0 k d₁ m₁) (h : Holds d (m.inode i) data)
    (hp : p ≤ data.length) (hlen : data.length ≤ 16384) (hmax : p + size ≤ 16384) :
    k = min size ((sectorsOf data + (freeSectors m).card) * 512 - p) := by
  have hlist : ((List.range k).map input).length = k := by simp
  have hnew := W.holds h hp hlist (fun j hj => by simp [hj])
  have hover := length_overwrite hp ((List.range k).map input)
  simp only [List.length_map, List.length_range] at hover
  have hle := W.le
  have hheld := hnew.held (by omega)
  have hold := h.held hlen
  have hcard := W.grows.free_card hi hO
  have hsame : ({ m₁.inode i with size := max (m₁.inode i).size (p + k) } : Inode).held = (m₁.inode i).held := rfl
  rw [hsame] at hheld
  simp only [sectorsOf, hover] at hheld hold ⊢
  by_cases hlt : k < size
  · rcases W.stuck hlt with h1 | h1 | ⟨h1, h2⟩
    · cases h1
    · cases h1
    · -- no sector is free and the file ends at a sector boundary
      rw [freeSectors_of_none h1, Finset.card_empty] at hcard
      rw [Inode.blockOf_eq (by omega)] at h2
      have hend := (hnew.dense ⟨(p + k) / 512, by omega⟩).not.1 (fun hne => hne h2)
      rw [hover] at hend
      simp only at hend
      omega
  · omega

end

/-! ## The relation -/

/-- The model's handle and the code's. -/
def HandleOf (d : Nat → Sector) : Option (CStr × Nat) → Handle → Prop
  | none, h => h.inode = -1
  | some (n, p), h => ∃ i, lookup d n = some i ∧ h = ⟨(i : Nat), p⟩

/-- Disk and memory show the model's files and handles. -/
structure Agrees (d : Nat → Sector) (m : FsMem) (a : Files) : Prop where
  ready : m.filesystemReady = true
  names : ∀ n, n ∈ a.names ↔ lookup d n ≠ none
  files : ∀ n i, lookup d n = some i → Holds d (m.inode i) (a.data n)
  free : (freeSectors m).card = a.free
  handles : ∀ fd < 16, HandleOf d (a.handles fd) (m.handles fd)

section

variable {N : Nat} {d d' : Nat → Sector} {m m' : FsMem} {a : Files} {n : CStr}

theorem HandleOf.neg_iff {o : Option (CStr × Nat)} {h : Handle} (ho : HandleOf d o h) : h.inode < 0 ↔ o = none := by
  cases o with
  | none =>
    have : h.inode = -1 := ho
    simp [this]
  | some x =>
    obtain ⟨i, -, rfl⟩ := ho
    simp

theorem Agrees.mem_iff (h : Agrees d m a) : n ∈ a.names ↔ ∃ i, lookup d n = some i := by
  rw [h.names n]
  exact Option.ne_none_iff_exists'

/-- The model has room for a file exactly when an inode is free. -/
theorem Agrees.few_iff (h : Agrees d m a) (hS : Sound N d m) (hl : Linked d m) :
    a.names.card < 127 ↔ firstFreeInode m ≠ none := by
  constructor
  · intro hlt hnone
    -- otherwise every inode is some file's
    have hsurj : Set.SurjOn (fun n => (lookup d n).getD 0) a.names (Finset.Ico 1 128) := by
      intro i hi
      simp only [Finset.coe_Ico, Set.mem_Ico] at hi
      unfold firstFreeInode at hnone
      rw [List.find?_eq_none] at hnone
      have hmode : (m.inode i).mode = fsModeFile := by
        have h1 := hnone i (by rw [List.mem_range'_1]; simp only [fsMaxFiles]; omega)
        have h2 := hS.modes i
        simp only [fsModeFree, beq_iff_eq] at h1
        simp only [fsModeFile]
        omega
      obtain ⟨n, hn⟩ := hl.lookup_listed (by omega) hmode
      exact ⟨n, h.mem_iff.2 ⟨i, hn⟩, by simp [hn]⟩
    have hcard := Finset.card_le_card_of_surjOn _ hsurj
    rw [Nat.card_Ico] at hcard
    omega
  · intro hne
    obtain ⟨i, hi⟩ := Option.ne_none_iff_exists'.1 hne
    obtain ⟨i1, i2, i3⟩ := firstFreeInode_some hi
    have hcard := Finset.card_le_card_of_injOn (fun n => (lookup d n).getD 0) (s := a.names)
      (t := (Finset.Ico 1 128).erase i) (fun n hn => ?_) fun n hn n' hn' e => ?_
    · rw [Finset.card_erase_of_mem (Finset.mem_Ico.2 ⟨i1, i3⟩), Nat.card_Ico] at hcard
      omega
    · obtain ⟨j, hj⟩ := h.mem_iff.1 hn
      simp only [hj, Option.getD_some, Finset.coe_erase, Finset.coe_Ico, Set.mem_sdiff, Set.mem_Ico,
        Set.mem_singleton_iff]
      refine ⟨hS.lookup_lt hj, ?_⟩
      rintro rfl
      have := hl.lookup_file hj
      rw [i2] at this
      cases this
    · obtain ⟨j, hj⟩ := h.mem_iff.1 hn
      obtain ⟨j', hj'⟩ := h.mem_iff.1 hn'
      simp only [hj, hj', Option.getD_some] at e
      subst e
      exact hl.lookup_inj hj hj'

/-! ## Create and delete -/

theorem Agrees.create {res : Int} (h : Agrees d m a) (hS : Sound N d m) (hl : Linked d m)
    (hc : Created false false d m n res d' m') : (⟨res, []⟩ : Ret) = (a.create n).1 ∧ Agrees d' m' (a.create n).2 := by
  rcases hl.create_cases hS h.ready hc with ⟨rfl, rfl, rfl, hwhy⟩ | ⟨i, rfl, hv, hnone, hi, rfl, hlook, hd⟩
  · have hno : ¬ (validName n = true ∧ n ∉ a.names ∧ a.names.card < 127) := by
      rintro ⟨h1, h2, h3⟩
      rcases hwhy with h4 | h4 | h4
      · rw [h1] at h4; cases h4
      · exact h2 ((h.names n).2 h4)
      · exact (h.few_iff hS hl).1 h3 h4
    unfold Files.create
    rw [dif_neg hno]
    exact ⟨rfl, h⟩
  · have hnot : n ∉ a.names := fun hn => (h.names n).1 hn hnone
    have hyes : validName n = true ∧ n ∉ a.names ∧ a.names.card < 127 :=
      ⟨hv, hnot, (h.few_iff hS hl).2 (by rw [hi]; simp)⟩
    obtain ⟨i1, i2, i3⟩ := firstFreeInode_some hi
    -- the files that were there keep their inodes
    have hold : ∀ k j, lookup d k = some j → k ≠ n ∧ SameFile d m d' (setInode m i .fresh) j := by
      intro k j hk
      refine ⟨?_, hS.sameFile (hS.lookup_lt hk).1 ?_ hd⟩
      · rintro rfl
        rw [hnone] at hk
        cases hk
      rw [inode_setInode, if_neg]
      rintro ⟨rfl, -⟩
      have := hl.lookup_file hk
      rw [i2] at this
      cases this
    unfold Files.create
    rw [dif_pos hyes]
    refine ⟨rfl, h.ready, fun k => ?_, fun k j hk => ?_, ?_, fun fd hfd => ?_⟩
    · simp only [Finset.mem_insert, hlook]
      by_cases e : k = n
      · simp [e]
      · simp [e, h.names k]
    · simp only
      rw [hlook] at hk
      by_cases e : k = n
      · rw [if_pos e] at hk
        obtain rfl := Option.some.inj hk
        rw [e, Function.update_self, inode_setInode, if_pos ⟨rfl, i3⟩]
        exact holds_fresh _
      · rw [if_neg e] at hk
        rw [Function.update_of_ne e]
        exact (h.files k j hk).same (hold k j hk).2
    · refine Eq.trans h.free ?_
      unfold Files.free
      simp only
      rw [Files.sum_insert_empty hnot]
    · have hh := h.handles fd hfd
      show HandleOf d' (a.handles fd) (m.handles fd)
      cases ho : a.handles fd with
      | none => rw [ho] at hh; exact hh
      | some x =>
        rw [ho] at hh
        obtain ⟨j, hj, e⟩ := hh
        exact ⟨j, by rw [hlook, if_neg (hold _ j hj).1]; exact hj, e⟩

/-- Releasing an inode frees the sectors it held. -/
theorem free_card_release (hS : Sound N d m) (i : Nat) :
    (freeSectors (releaseInode m i)).card = (freeSectors m).card + (m.inode i).held := by
  obtain ⟨-, q2, -, -, q5⟩ := releaseInode_spec m i hS.owned.totalHi
  have hset : freeSectors (releaseInode m i) =
      freeSectors m ∪ (Finset.univ.filter fun k => (m.inode i).direct k ≠ 0).image (m.inode i).direct := by
    ext t
    simp only [freeSectors, Finset.mem_union, Finset.mem_filter, Finset.mem_range, q2, Finset.mem_image,
      Finset.mem_univ, true_and]
    have hbit : bitSet (releaseInode m i) t = false ↔ ¬ bitSet (releaseInode m i) t = true := by simp
    rw [hbit, q5]
    constructor
    · rintro ⟨h1, h2, h3⟩
      by_cases hb : bitSet m t = true
      · right
        by_contra hno
        refine h3 ⟨hb, ?_⟩
        rintro ⟨-, -, k, hk⟩
        exact hno ⟨k, by omega, hk⟩
      · exact .inl ⟨h1, h2, by simpa using hb⟩
    · rintro (⟨h1, h2, h3⟩ | ⟨k, hk, rfl⟩)
      · exact ⟨h1, h2, fun hb => by rw [h3] at hb; cases hb.1⟩
      · obtain ⟨r1, r2, -⟩ := hS.owned.range i k hk
        exact ⟨r2, r1, fun hb => hb.2 ⟨r1, r2, k, rfl⟩⟩
  rw [hset, Finset.card_union_of_disjoint, Finset.card_image_of_injOn]
  · rfl
  · intro k hk k' _ e
    simp only [Finset.coe_filter, Finset.mem_univ, true_and, Set.mem_ofPred_eq] at hk
    exact (hS.owned.once i k i k' hk e).2
  · rw [Finset.disjoint_left]
    intro t ht hmem
    simp only [Finset.mem_image, Finset.mem_filter, Finset.mem_univ, true_and] at hmem
    obtain ⟨k, hk, rfl⟩ := hmem
    simp only [freeSectors, Finset.mem_filter] at ht
    rw [(hS.owned.range i k hk).2.2] at ht
    simp at ht

theorem Agrees.delete {res : Int} (h : Agrees d m a) (hS : Sound N d m) (hl : Linked d m) (hok : a.closed n)
    (hc : Deleted false false d m n res d' m') : (⟨res, []⟩ : Ret) = (a.delete n).1 ∧ Agrees d' m' (a.delete n).2 := by
  rcases hl.delete_cases hS h.ready hc with ⟨rfl, rfl, rfl, hnone⟩ | ⟨i, rfl, hi, rfl, hlook, hd⟩
  · have hno : ¬ (n ∈ a.names ∧ a.closed n) := fun hn => (h.names n).1 hn.1 hnone
    unfold Files.delete
    rw [dif_neg hno]
    exact ⟨rfl, h⟩
  · have hmem : n ∈ a.names := h.mem_iff.2 ⟨i, hi⟩
    obtain ⟨q1, -, q3, q4, -⟩ := releaseInode_spec m i hS.owned.totalHi
    have hold : ∀ k j, k ≠ n → lookup d k = some j → SameFile d m d' (releaseInode m i) j := by
      intro k j hk hj
      refine hS.sameFile (hS.lookup_lt hj).1 ?_ hd
      rw [q1, if_neg]
      rintro ⟨rfl, -⟩
      exact hk (hl.lookup_inj hj hi)
    unfold Files.delete
    rw [dif_pos ⟨hmem, hok⟩]
    refine ⟨rfl, q4.trans h.ready, fun k => ?_, fun k j hk => ?_, ?_, fun fd hfd => ?_⟩
    · simp only [Finset.mem_erase, hlook]
      by_cases e : k = n
      · simp [e]
      · simp [e, h.names k]
    · rw [hlook] at hk
      by_cases e : k = n
      · rw [if_pos e] at hk; cases hk
      · rw [if_neg e] at hk
        exact (h.files k j hk).same (hold k j e hk)
    · have hheld := (h.files n i hi).held (a.short n hmem)
      have hsum := Finset.add_sum_erase a.names (fun k => sectorsOf (a.data k)) hmem
      have hfits := a.fits
      have hfree := h.free
      rw [free_card_release hS, hheld]
      unfold Files.free at hfree ⊢
      simp only at hsum ⊢
      omega
    · have hh := h.handles fd hfd
      show HandleOf d' (a.handles fd) _
      rw [q3]
      cases ho : a.handles fd with
      | none => rw [ho] at hh; exact hh
      | some x =>
        rw [ho] at hh
        obtain ⟨j, hj, e⟩ := hh
        refine ⟨j, ?_, e⟩
        rw [hlook, if_neg, hj]
        intro e'
        exact hok fd hfd (by rw [ho]; exact congrArg some e')

end

section

variable {N : Nat} {d d' : Nat → Sector} {m m' : FsMem} {a : Files} {n : CStr}

/-! ## Handles -/

/-- Only the handles change. -/
theorem Agrees.setHandles (h : Agrees d m a) {a' : Files} (hm : ∀ j, m'.inode j = m.inode j)
    (hb : freeSectors m' = freeSectors m) (hr : m'.filesystemReady = m.filesystemReady) (hn : a'.names = a.names)
    (hd : a'.data = a.data) (hc : a'.capacity = a.capacity)
    (hh : ∀ fd < 16, HandleOf d (a'.handles fd) (m'.handles fd)) : Agrees d m' a' := by
  refine ⟨hr.trans h.ready, fun k => by rw [hn]; exact h.names k, fun k i hk => ?_, ?_, hh⟩
  · rw [hd, hm]; exact h.files k i hk
  · rw [hb, h.free]
    unfold Files.free
    rw [hn, hd, hc]

theorem Agrees.exist (h : Agrees d m a) (hl : Linked d m) :
    (if m.filesystemReady = true ∧ validName n = true ∧ ∃ slot < slotCount, (entryAt d slot).hasName n then (1 : Int)
      else 0) = (a.exist n).1.val := by
  unfold Files.exist
  by_cases hn : n ∈ a.names
  · obtain ⟨i, hi⟩ := h.mem_iff.1 hn
    obtain ⟨slot, hs, hname, -⟩ := hl.lookup_iff.1 hi
    simp only [if_pos hn]
    exact if_pos ⟨h.ready, hl.lookup_valid hi, slot, hs, hname⟩
  · simp only [if_neg hn]
    refine if_neg ?_
    rintro ⟨-, -, slot, hs, hname⟩
    exact hn ((h.names n).2 fun e => lookup_eq_none.1 e slot hs hname)

/-- The first closed handle is the same. -/
theorem Agrees.find_handle (h : Agrees d m a) :
    ((∀ fd < 16, 0 ≤ (m.handles fd).inode) → (List.range 16).find? (fun fd => (a.handles fd).isNone) = none) ∧
      ∀ fd < 16, (m.handles fd).inode < 0 → (∀ j < fd, 0 ≤ (m.handles j).inode) →
        (List.range 16).find? (fun fd => (a.handles fd).isNone) = some fd := by
  have hiff : ∀ fd < 16, (a.handles fd).isNone = true ↔ (m.handles fd).inode < 0 := by
    intro fd hfd
    rw [Option.isNone_iff_eq_none, ← (h.handles fd hfd).neg_iff]
  constructor
  · intro hall
    rw [List.find?_eq_none]
    intro fd hfd
    rw [hiff fd (List.mem_range.1 hfd)]
    have := hall fd (List.mem_range.1 hfd)
    omega
  · intro fd hfd hneg hfirst
    rw [List.find?_range_eq_some]
    refine ⟨(hiff fd hfd).2 hneg, by simpa using hfd, fun j hj => ?_⟩
    have hj' := hfirst j hj
    have hno : ¬ (a.handles j).isNone = true := by
      rw [hiff j (by omega)]; omega
    simpa [Option.isSome_iff_ne_none] using hno

theorem Agrees.open {res : Int} (h : Agrees d m a) (hl : Linked d m) (hc : Opened false d m n res m') :
    (⟨res, []⟩ : Ret) = (a.open n).1 ∧ Agrees d m' (a.open n).2 := by
  obtain ⟨hfull, hfree⟩ := h.find_handle
  unfold Files.open
  rcases hl.open_cases h.ready hc with ⟨rfl, rfl, hwhy⟩ | ⟨i, fd, rfl, hi, hfd, hneg, hfirst, rfl⟩
  · split
    · rename_i hn
      have hall := hwhy.resolve_left ((h.names n).1 hn)
      split
      · exact ⟨rfl, h⟩
      · rename_i fd hf
        rw [hfull hall] at hf
        cases hf
    · exact ⟨rfl, h⟩
  · have hn : n ∈ a.names := h.mem_iff.2 ⟨i, hi⟩
    rw [dif_pos hn]
    split
    · rename_i hf
      rw [hfree fd hfd hneg hfirst] at hf
      cases hf
    · rename_i fd' hf
      obtain rfl : fd' = fd := Option.some.inj (hf.symm.trans (hfree fd hfd hneg hfirst))
      refine ⟨rfl, h.setHandles (fun _ => rfl) rfl rfl rfl rfl rfl fun fd hlt => ?_⟩
      simp only [Files.setHandle, setHandle]
      by_cases e : fd = fd'
      · rw [e, Function.update_self, Function.update_self]
        exact ⟨i, hi, rfl⟩
      · rw [Function.update_of_ne e, Function.update_of_ne e]
        exact h.handles fd hlt

theorem Agrees.close {fd : Int} {v : Int} (h : Agrees d m a)
    (hc : if 0 ≤ fd ∧ fd < 16 then v = 1 ∧ m' = setHandle m fd.toNat .closed else v = 0 ∧ m' = m) :
    (⟨v, []⟩ : Ret) = (a.close fd).1 ∧ Agrees d m' (a.close fd).2 := by
  unfold Files.close
  split at hc
  · rename_i hfd
    obtain ⟨rfl, rfl⟩ := hc
    rw [if_pos hfd]
    refine ⟨rfl, h.setHandles (fun _ => rfl) rfl rfl rfl rfl rfl fun fd' hlt => ?_⟩
    simp only [setHandle]
    by_cases e : fd' = fd.toNat
    · rw [e, Function.update_self, Function.update_self]
      rfl
    · rw [Function.update_of_ne e, Function.update_of_ne e]
      exact h.handles fd' hlt
  · rename_i hfd
    obtain ⟨rfl, rfl⟩ := hc
    rw [if_neg hfd]
    exact ⟨rfl, h⟩

/-- A handle is usable in the code when it is in the model, on the same file and position. -/
theorem Agrees.usable (h : Agrees d m a) (fd : Int) (buffer : Bool) :
    (handleUsable m fd buffer = false → a.usable fd buffer = none) ∧
      (handleUsable m fd buffer = true → ∃ n p i, a.usable fd buffer = some (n, p) ∧ lookup d n = some i ∧
        m.handles fd.toNat = ⟨(i : Nat), p⟩) := by
  constructor
  · intro hno
    unfold Files.usable
    split
    · rename_i hok
      obtain ⟨hb, h1, h2⟩ := hok
      have hneg : (m.handles fd.toNat).inode < 0 := by
        by_contra hge
        have := handleUsable_iff.2 ⟨h.ready, hb, h1, h2, not_lt.1 hge⟩
        rw [hno] at this
        cases this
      exact (h.handles fd.toNat (by omega)).neg_iff.1 hneg
    · rfl
  · intro hyes
    obtain ⟨-, hb, h1, h2, h3⟩ := handleUsable_iff.1 hyes
    have hh := h.handles fd.toNat (by omega)
    unfold Files.usable
    rw [if_pos ⟨hb, h1, h2⟩]
    cases ho : a.handles fd.toNat with
    | none =>
      rw [← hh.neg_iff] at ho
      omega
    | some x =>
      rw [ho] at hh
      obtain ⟨i, hi, e⟩ := hh
      exact ⟨x.1, x.2, i, rfl, hi, e⟩

/-! ## Read -/

theorem Agrees.read {fd : Int} {buffer : Bool} {size : Nat} {res : Int × List Byte} (h : Agrees d m a)
    (hc : ReadFrom false d m fd buffer size res m') :
    (⟨res.1, res.2⟩ : Ret) = (a.read fd buffer size).1 ∧ Agrees d m' (a.read fd buffer size).2 := by
  obtain ⟨hno, hyes⟩ := h.usable fd buffer
  cases hc with
  | refused hu =>
    have hu := hno hu
    unfold Files.read
    split
    · exact ⟨rfl, h⟩
    · rename_i n p hs
      rw [hu] at hs
      cases hs
  | done k hu hle hstop =>
    obtain ⟨n, p, i, ha, hi, hh⟩ := hyes hu
    obtain ⟨hfd, hn, hp⟩ := Files.opened_usable ha
    have H := h.files n i hi
    rw [hh] at hle hstop ⊢
    simp only [Int.toNat_natCast] at hle hstop ⊢
    rw [H.size] at hle hstop
    have hlen := a.short n hn
    obtain rfl := H.read_count hlen hle fun hlt => (hstop hlt).resolve_left Bool.false_ne_true
    have hbytes := H.bytesFrom p size
    have hcount : (a.bytesAt n p size).length = min size ((a.data n).length - p) := by
      simp [Files.bytesAt]
    unfold Files.read
    split
    · rename_i hs
      rw [ha] at hs
      cases hs
    · rename_i n' p' hs
      obtain ⟨rfl, rfl⟩ := Prod.mk.inj (Option.some.inj (ha.symm.trans hs))
      refine ⟨?_, h.setHandles (fun _ => rfl) rfl rfl rfl rfl rfl fun fd' hlt => ?_⟩
      · show (⟨_, _⟩ : Ret) = ⟨(a.bytesAt n p size).length, a.bytesAt n p size⟩
        rw [hcount, hbytes]
        rfl
      · simp only [Files.setHandle, setHandle, hcount]
        by_cases e : fd' = fd.toNat
        · rw [e, Function.update_self, Function.update_self]
          exact ⟨i, hi, rfl⟩
        · rw [Function.update_of_ne e, Function.update_of_ne e]
          exact h.handles fd' hlt

end

section

variable {N : Nat} {d d' : Nat → Sector} {m m' : FsMem} {a : Files} {n : CStr}

/-! ## Write -/

/-- The file that is written holds the model's new string, the others are as before, and the sectors
it gained are no longer free. -/
theorem Agrees.wrote (h : Agrees d m a) (hS : Sound N d m) (hl : Linked d m) {i p k fd : Nat} (hi : lookup d n = some i)
    (hp : p ≤ (a.data n).length) {input : List Byte} {d₁ : Nat → Sector} {m₁ : FsMem}
    (W : Wrote false false i p (min input.length (16384 - p)) (input.getD · 0) d m 0 k d₁ m₁)
    (hd : ∀ l, ¬ (1 ≤ l ∧ l < 97) → d' l = d₁ l) (hh : m.handles fd = ⟨(i : Nat), p⟩) {a' : Files}
    (hroom : k = a.room n p input.length) (hn : a'.names = a.names) (hc : a'.capacity = a.capacity)
    (hdata : a'.data = Function.update a.data n (overwrite (a.data n) p (input.take k)))
    (hhand : a'.handles = Function.update a.handles fd (some (n, p + k))) :
    Agrees d' (finishWrite m₁ fd i (p + k)) a' := by
  obtain ⟨hi1, hi2⟩ := hS.lookup_lt hi
  have hmem : n ∈ a.names := h.mem_iff.2 ⟨i, hi⟩
  have hle := W.le
  have hin := fun j => inode_finishWrite m₁ fd i (p + k) j hi2
  obtain ⟨f1, f2⟩ := finishWrite_bits m₁ fd i (p + k)
  have hbytes : (input.take k).length = k := by rw [List.length_take]; omega
  have hget : ∀ j < k, (input.take k).getD j 0 = input.getD j 0 := fun j hj => by
    simp only [List.getD_eq_getElem?_getD, List.getElem?_take, hj, ↓reduceIte]
  have hnew := W.holds (h.files n i hi) hp hbytes hget
  -- the directory is as before
  have hentry : ∀ slot < slotCount, entryAt d' slot = entryAt d slot := fun slot hs => by
    have hlt : 97 + slot / 9 < 129 := by simp only [slotCount] at hs; omega
    exact entryAt_congr ((hd _ (by omega)).trans (W.dir_frame hS hi1 (by omega) hlt))
  have hlook : ∀ k, lookup d' k = lookup d k := fun k => lookup_congr hentry
  have hother : ∀ j, j ≠ i → SameFile d m d' (finishWrite m₁ fd i (p + k)) j := by
    intro j hj
    refine SameFile.of_sectors (fun b hb => ?_) (by rw [hin, if_neg hj, W.grows.inode_of_ne hj])
    have hrange := hS.owned.range j b hb
    rw [hd _ (by omega)]
    refine W.frame _ (by omega) (.inr fun l hl' => ?_)
    have := ((W.grows.owned hS.owned).once i l j b (by rw [hl']; exact hb) (by rw [hl', W.grows.inode_of_ne hj])).1
    exact hj this.symm
  have hsum := Files.sum_update hmem a.data (overwrite (a.data n) p (input.take k))
  refine ⟨?_, fun k' => by rw [hn, hlook]; exact h.names k', fun k' j hk' => ?_, ?_, fun fd' hfd' => ?_⟩
  · unfold finishWrite
    simp only
    split <;> exact W.grows.frame.2.2.trans h.ready
  · rw [hlook] at hk'
    rw [hdata]
    by_cases e : k' = n
    · subst e
      obtain rfl : i = j := Option.some.inj (hi.symm.trans hk')
      rw [Function.update_self]
      exact W.finish hi2 hS.owned (h.files k' i hi) hp hbytes hget hd
    · rw [Function.update_of_ne e]
      refine (h.files k' j hk').same (hother j ?_)
      rintro rfl
      exact e (hl.lookup_inj hk' hi)
  · have hcard := W.grows.free_card hi2 hS.owned
    have hheld := hnew.held (by
      have := a.short n hmem
      rw [length_overwrite hp, hbytes]
      omega)
    have hold := (h.files n i hi).held (a.short n hmem)
    have hsame : ({ m₁.inode i with size := max (m₁.inode i).size (p + k) } : Inode).held = (m₁.inode i).held := rfl
    have hbits : freeSectors (finishWrite m₁ fd i (p + k)) = freeSectors m₁ := by
      unfold freeSectors
      rw [f1]
      refine Finset.filter_congr fun t _ => ?_
      rw [bitSet_congr f2]
    have hfree := h.free
    have hfits := a.fits
    have hfits' := a'.fits
    rw [hsame] at hheld
    rw [hbits]
    unfold Files.free at hfree ⊢
    rw [hn, hdata] at hfits'
    rw [hn, hc, hdata]
    rw [hc] at hfits'
    omega
  · rw [handles_finishWrite, W.grows.frame.2.1, hhand]
    by_cases e : fd' = fd
    · rw [e, Function.update_self, Function.update_self, hh]
      exact ⟨i, by rw [hlook]; exact hi, rfl⟩
    · rw [Function.update_of_ne e, Function.update_of_ne e]
      have hold := h.handles fd' hfd'
      cases ho : a.handles fd' with
      | none => rw [ho] at hold; exact hold
      | some x =>
        rw [ho] at hold
        obtain ⟨j, hj, e'⟩ := hold
        exact ⟨j, by rw [hlook]; exact hj, e'⟩

theorem Agrees.write {fd : Int} {buffer : Option (List Byte)} {res : Int} (h : Agrees d m a) (hS : Sound N d m)
    (hl : Linked d m) (hc : WroteTo false false d m fd buffer res d' m') :
    (⟨res, []⟩ : Ret) = (a.write fd buffer).1 ∧ Agrees d' m' (a.write fd buffer).2 := by
  obtain ⟨hno, hyes⟩ := h.usable fd buffer.isSome
  cases hu : handleUsable m fd buffer.isSome with
  | false =>
    have ha := hno hu
    have hsame : res = -1 ∧ d' = d ∧ m' = m := by
      cases hc with
      | refused => exact ⟨rfl, rfl, rfl⟩
      | full hu' => rw [hu] at hu'; cases hu'
      | done _ _ _ _ hu' => rw [hu] at hu'; cases hu'
    obtain ⟨rfl, rfl, rfl⟩ := hsame
    unfold Files.write
    split
    · exact ⟨rfl, h⟩
    · rename_i n p hs
      rw [ha] at hs
      cases hs
  | true =>
    obtain ⟨n, p, i, ha, hi, hh⟩ := hyes hu
    obtain ⟨hfd, hn, hp⟩ := Files.opened_usable ha
    have hlen := a.short n hn
    have hi2 := (hS.lookup_lt hi).2
    obtain ⟨input, hinput⟩ : ∃ input, buffer.getD [] = input := ⟨_, rfl⟩
    have hroom : (input.take (a.room n p input.length)).length = a.room n p input.length := by
      rw [List.length_take]
      unfold Files.room
      omega
    unfold Files.write
    split
    · rename_i hs
      rw [ha] at hs
      cases hs
    rename_i n' p' hs
    obtain ⟨rfl, rfl⟩ := Prod.mk.inj (Option.some.inj (ha.symm.trans hs))
    cases hc with
    | refused hu' => rw [hu] at hu'; cases hu'
    | full _ hpos =>
      -- the position is at the maximal size
      rw [hh] at hpos
      simp only at hpos
      have hzero : a.room n p input.length = 0 := by unfold Files.room; omega
      simp only [hinput, hzero, List.take_zero, List.length_nil, Nat.add_zero]
      refine ⟨rfl, h.setHandles (fun _ => rfl) rfl rfl rfl ?_ rfl fun fd' hlt => ?_⟩
      · simp only [Files.setHandle, Files.put]
        have hsame : overwrite (a.data n) p [] = a.data n := by simp [overwrite]
        rw [hsame, Function.update_eq_self]
      · simp only [Files.setHandle, Files.put]
        by_cases e : fd' = fd.toNat
        · rw [e, Function.update_self]
          exact ⟨i, hi, hh⟩
        · rw [Function.update_of_ne e]
          exact h.handles fd' hlt
    | done k d₁ m₁ d' _ hpos W hd _ =>
      rw [hh] at W hpos ⊢
      simp only [Int.toNat_natCast] at W hpos ⊢
      rw [hinput] at W
      have hk : k = a.room n p input.length := by
        rw [W.count hi2 hS.owned (h.files n i hi) hp hlen (by omega), h.free]
        rfl
      simp only [hinput]
      rw [← hk] at hroom
      refine ⟨?_, h.wrote hS hl hi hp W hd hh hk rfl rfl ?_ ?_⟩
      · show (⟨_, _⟩ : Ret) = ⟨((input.take (a.room n p input.length)).length : Nat), []⟩
        rw [← hk, hroom]
      · simp only [Files.setHandle, Files.put, ← hk]
      · simp only [Files.setHandle, Files.put, ← hk, hroom]

end

end SpectreOS
