/-
Files as the directory names them: what a search of the directory finds, what reading and writing
leave of the files they are not about, and the first files of an empty filesystem.
-/
import SpectreOS.Fs.Live

namespace SpectreOS

open BlockIO Prog

section

variable {N : Nat} {r w : Bool} {d d' : Nat → Sector} {m m' : FsMem} {name : CStr}

/-! ## Lookup -/

theorem lookup_eq_none : lookup d name = none ↔ ∀ slot < slotCount, ¬ (entryAt d slot).hasName name := by
  simp [lookup, List.find?_eq_none]

theorem lookup_eq_some {i : Nat} : lookup d name = some i ↔
    ∃ slot < slotCount, (entryAt d slot).hasName name ∧ (∀ j < slot, ¬ (entryAt d j).hasName name) ∧
      (entryAt d slot).inode = i := by
  unfold lookup
  rw [Option.map_eq_some_iff]
  constructor
  · rintro ⟨slot, hf, rfl⟩
    rw [List.find?_range_eq_some] at hf
    obtain ⟨h1, h2, h3⟩ := hf
    exact ⟨slot, by simpa using h2, by simpa using h1, fun j hj => by simpa using h3 j hj, rfl⟩
  · rintro ⟨slot, hs, hn, hfirst, rfl⟩
    refine ⟨slot, ?_, rfl⟩
    rw [List.find?_range_eq_some]
    exact ⟨by simpa using hn, by simpa using hs, fun j hj => by simpa using hfirst j hj⟩

/-- Only the entries matter. -/
theorem lookup_congr (h : ∀ slot < slotCount, entryAt d' slot = entryAt d slot) : lookup d' name = lookup d name := by
  cases hl : lookup d name with
  | none =>
    rw [lookup_eq_none] at hl ⊢
    intro slot hs
    rw [h slot hs]; exact hl slot hs
  | some i =>
    obtain ⟨slot, hs, h1, h2, h3⟩ := lookup_eq_some.1 hl
    refine lookup_eq_some.2 ⟨slot, hs, by rw [h slot hs]; exact h1, fun j hj => ?_, by rw [h slot hs]; exact h3⟩
    rw [h j (by omega)]; exact h2 j hj

/-- The file of a name is an inode of the table. -/
theorem Sound.lookup_lt (h : Sound N d m) {i : Nat} (hl : lookup d name = some i) : 1 ≤ i ∧ i < 128 := by
  obtain ⟨slot, hs, h1, -, rfl⟩ := lookup_eq_some.1 hl
  exact h.entries slot hs h1.1

/-! ## The other files -/

/-- The inode `j` and its bytes are as before. -/
def SameFile (d : Nat → Sector) (m : FsMem) (d' : Nat → Sector) (m' : FsMem) (j : Nat) : Prop :=
  m'.inode j = m.inode j ∧ ∀ p, byteAt d' (m'.inode j) p = byteAt d (m.inode j) p

theorem SameFile.bytesFrom {j : Nat} (h : SameFile d m d' m' j) (position count : Nat) :
    bytesFrom d' (m'.inode j) position count = bytesFrom d (m.inode j) position count := by
  unfold SpectreOS.bytesFrom
  exact List.map_congr_left fun k _ => h.2 _

/-- A file keeps its bytes when its sectors are kept. -/
theorem SameFile.of_sectors (hi : ∀ k, (m.inode j).direct k ≠ 0 → d' ((m.inode j).direct k) = d ((m.inode j).direct k))
    (hm : m'.inode j = m.inode j) : SameFile d m d' m' j := by
  refine ⟨hm, fun p => ?_⟩
  rw [hm]
  refine byteAt_congr rfl fun hne => ?_
  by_cases hp : p / 512 < 32
  · rw [Inode.blockOf_eq hp] at hne ⊢; exact hi _ hne
  · exact absurd (dif_neg hp) hne

/-- A write changes the file of its handle only, and no entry, mode or handle's inode. -/
theorem WroteTo.frame {fd : Int} {buffer : Option (List Byte)} {res : Int} (h : Sound N d m)
    (hw : WroteTo r w d m fd buffer res d' m') :
    (∀ slot < slotCount, entryAt d' slot = entryAt d slot) ∧ (∀ j, (m'.inode j).mode = (m.inode j).mode) ∧
      (∀ fd', (m'.handles fd').inode = (m.handles fd').inode) ∧ m'.filesystemReady = m.filesystemReady ∧
      ∀ j : Nat, (j : Int) ≠ (m.handles fd.toNat).inode → SameFile d m d' m' j := by
  have hskip : ∀ j, SameFile d m d m j := fun j => ⟨rfl, fun _ => rfl⟩
  cases hw with
  | refused => exact ⟨fun _ _ => rfl, fun _ => rfl, fun _ => rfl, rfl, fun j _ => hskip j⟩
  | full => exact ⟨fun _ _ => rfl, fun _ => rfl, fun _ => rfl, rfl, fun j _ => hskip j⟩
  | done n d₁ m₁ d' hu hpos W hd _ =>
    obtain ⟨h1, h2, h3, h4⟩ := h.usable hu
    generalize hi : (m.handles fd.toNat).inode.toNat = i at *
    have hin := fun j => inode_finishWrite m₁ fd.toNat i ((m.handles fd.toNat).position + n) j h3
    refine ⟨fun slot hs => ?_, fun j => ?_, fun fd' => ?_, ?_, fun j hj => ?_⟩
    · have hl : 97 + slot / 9 < 129 := by simp only [slotCount] at hs; omega
      exact entryAt_congr ((hd _ (by omega)).trans (W.dir_frame h h2 (by omega) hl))
    · rw [hin]
      split
      · rename_i e; rw [e]; exact (W.grows.fields i).1
      · exact (W.grows.fields j).1
    · rw [handles_finishWrite, W.grows.frame.2.1]
      by_cases e : fd' = fd.toNat
      · rw [e, Function.update_self]
      · rw [Function.update_of_ne e]
    · unfold finishWrite
      simp only
      split <;> exact W.grows.frame.2.2
    · have hne : j ≠ i := by
        rintro rfl; exact hj h4
      refine SameFile.of_sectors (fun k hk => ?_) (by rw [hin, if_neg hne, W.grows.inode_of_ne hne])
      have hrange := h.owned.range j k hk
      rw [hd _ (by omega)]
      refine W.frame _ (by omega) (.inr fun l hl => ?_)
      -- the sector of another file is not the written file's
      have := ((W.grows.owned h.owned).once i l j k (by rw [hl]; exact hk) (by rw [hl, W.grows.inode_of_ne hne])).1
      exact hne this.symm

/-- A read moves one position and changes nothing else. -/
theorem ReadFrom.frame {fd : Int} {buffer : Bool} {size : Nat} {res : Int × List Byte}
    (hr : ReadFrom r d m fd buffer size res m') : (∀ j, m'.inode j = m.inode j) ∧
      (∀ fd', (m'.handles fd').inode = (m.handles fd').inode) ∧ m'.filesystemReady = m.filesystemReady := by
  cases hr with
  | refused => exact ⟨fun _ => rfl, fun _ => rfl, rfl⟩
  | done n =>
    refine ⟨fun _ => rfl, fun fd' => ?_, rfl⟩
    unfold setHandle
    by_cases e : fd' = fd.toNat
    · simp [e]
    · simp [e]

end

/-! ## A filesystem without files -/

/-- A mounted filesystem without files. -/
structure Vacant (d : Nat → Sector) (m : FsMem) : Prop where
  ready : m.filesystemReady = true
  entries : ∀ slot < slotCount, (entryAt d slot).used = 0
  inodes : ∀ i, 0 < i → m.inode i = .zero
  bits : ∀ t < 131072, (bitSet m t = true ↔ t < 129)

theorem Fresh.vacant {N : Nat} {d : Nat → Sector} {m : FsMem} (h : Fresh N d m) : Vacant d m := by
  refine ⟨h.ready, fun slot hs => ?_, h.empty, h.bits⟩
  unfold entryAt
  rw [h.zeroed _ (by simp only [slotCount] at hs; omega)]
  simp [Dirent.ofImage, wordAt, Block.slice]

section

variable {N : Nat} {d : Nat → Sector} {m : FsMem} {name : CStr}

theorem Vacant.firstFreeInode (h : Vacant d m) : firstFreeInode m = some 1 := by
  unfold SpectreOS.firstFreeInode
  rw [show fsMaxFiles - 1 = 126 + 1 from rfl, List.range'_succ, List.find?_cons_of_pos]
  rw [h.inodes 1 (by omega)]; rfl

/-- The first file of a filesystem gets inode 1. -/
theorem Vacant.create (h : Vacant d m) (hn : validName name = true) {res : Int} {d' : Nat → Sector} {m' : FsMem}
    (hc : Created false false d m name res d' m') :
    m' = setInode m 1 .fresh ∧ ∃ slot < slotCount, entryAt d' slot = newEntry name 1 ∧
      ∀ j < slotCount, j ≠ slot → (entryAt d' j).used = 0 := by
  cases hc with
  | refused hwhy =>
    rcases hwhy rfl h.ready hn with ⟨slot, hs, hu, -⟩ | hall | hnone
    · exact absurd (h.entries slot hs) hu
    · exact absurd (h.entries 0 (by simp)) (hall 0 (by simp))
    · rw [h.firstFreeInode] at hnone; cases hnone
  | unsaved i _ hrw => simp at hrw
  | undone i d' _ hrw _ => simp at hrw
  | done i slot _ _ _ hs _ hi =>
    obtain rfl : 1 = i := Option.some.inj (h.firstFreeInode.symm.trans hi)
    refine ⟨rfl, slot, hs, entryAt_withEntry _ slot (by simp [newEntry]) (by simp [newEntry]), fun j hj hne => ?_⟩
    have hd : withInode d 1 .fresh (97 + j / 9) = d (97 + j / 9) := Function.update_of_ne (by omega) _ _
    rw [entryAt_withEntry_of_ne _ hne, entryAt_congr hd]
    exact h.entries j hj

/-- It is opened on the first handle. -/
theorem open_only {slot : Nat} (hs : slot < slotCount) (he : entryAt d slot = newEntry name 1)
    (ho : ∀ j < slotCount, j ≠ slot → (entryAt d j).used = 0) (hr : m.filesystemReady = true)
    (hn : validName name = true) (hc : (m.handles 0).inode < 0) {res : Int} {m' : FsMem}
    (hopen : Opened false d m name res m') : m' = setHandle m 0 ⟨1, 0⟩ ∧ res = 0 := by
  have hname : (entryAt d slot).hasName name := by
    rw [he]; exact ⟨by simp [newEntry], (strEqual_newEntry hn 1 name).2 rfl⟩
  cases hopen with
  | refused hwhy =>
    rcases hwhy rfl hr hn with hno | hfull
    · exact absurd hname (hno slot hs)
    · have := hfull 0 (by omega); omega
  | done slot' fd _ _ hs' hname' _ _ _ hfirst =>
    obtain rfl : slot' = slot := by
      by_contra hne
      exact hname'.1 (ho slot' hs' hne)
    have hfd : fd = 0 := by
      by_contra hne
      have := hfirst 0 (by omega); omega
    subst hfd
    rw [he]
    exact ⟨rfl, rfl⟩

/-- Deleting the only file. -/
theorem delete_only {slot : Nat} (hs : slot < slotCount) (he : entryAt d slot = newEntry name 1)
    (ho : ∀ j < slotCount, j ≠ slot → (entryAt d j).used = 0) (hr : m.filesystemReady = true)
    (hn : validName name = true) {res : Int} {d' : Nat → Sector} {m' : FsMem}
    (hdel : Deleted false false d m name res d' m') :
    m' = releaseInode m 1 ∧ res = 1 ∧ ∀ j < slotCount, (entryAt d' j).used = 0 := by
  have hname : (entryAt d slot).hasName name := by
    rw [he]; exact ⟨by simp [newEntry], (strEqual_newEntry hn 1 name).2 rfl⟩
  cases hdel with
  | refused hwhy => exact absurd hname (hwhy rfl hr hn slot hs)
  | unsaved slot d' _ _ hrw _ => simp at hrw
  | kept slot d' _ _ hrw _ => simp at hrw
  | done slot₁ slot₂ _ _ hs₁ hname₁ _ hs₂ hu₂ _ _ =>
    obtain rfl : slot₁ = slot := by
      by_contra hne
      exact hname₁.1 (ho slot₁ hs₁ hne)
    obtain rfl : slot₂ = slot₁ := by
      by_contra hne
      exact hu₂ (ho slot₂ hs₂ hne)
    have hi : (entryAt d slot₂).inode = 1 := by rw [he]; rfl
    refine ⟨by rw [hi], rfl, fun j hj => ?_⟩
    by_cases hne : j = slot₂
    · rw [hne, entryAt_withEntry _ slot₂ (by simp [Dirent.zero]) (by simp [Dirent.zero])]; rfl
    · rw [entryAt_withEntry_of_ne _ hne, entryAt_congr, ho j hj hne]
      rw [hi, withInode, Function.update_of_ne (by omega), withBitmap_agree _ _ _ (by omega)]

/-- A file created and opened on an empty filesystem. -/
theorem create_open {cp : Primitives} {s : Conf FsMem Machine} (name : CStr) (h : Live cp N false false s)
    (hv : Vacant (logicalDisk cp s.dev) s.mem) (hc : (s.mem.handles 0).inode < 0) (hn : validName name = true) :
    let s' := (runCalls (fsDisk cp) [.create name, .open name] s).2
    Live cp N false false s' ∧ s'.mem = setHandle (setInode s.mem 1 .fresh) 0 ⟨1, 0⟩ ∧
      ∃ slot < slotCount, entryAt (logicalDisk cp s'.dev) slot = newEntry name 1 ∧
        ∀ j < slotCount, j ≠ slot → (entryAt (logicalDisk cp s'.dev) j).used = 0 := by
  intro s'
  obtain ⟨⟨-, heff₁⟩, hlive₁⟩ := h.call (.create name)
  obtain ⟨hm₁, slot, hs, he, ho⟩ := hv.create hn heff₁
  obtain ⟨⟨hd₂, -, heff₂⟩, hlive₂⟩ := hlive₁.call (.open name)
  obtain ⟨hm₂, -⟩ := open_only hs he ho (by rw [hm₁]; exact hv.ready) hn (by rw [hm₁]; exact hc) heff₂
  have hd : logicalDisk cp s'.dev = _ := hd₂
  rw [hd]
  exact ⟨hlive₂, by rw [← hm₁]; exact hm₂, slot, hs, he, ho⟩

/-- After creating, opening and deleting a file on an empty filesystem, the handle is left on an
inode that is free. -/
theorem create_open_delete {cp : Primitives} {s : Conf FsMem Machine} (name : CStr) (h : Live cp N false false s)
    (hv : Vacant (logicalDisk cp s.dev) s.mem) (hc : (s.mem.handles 0).inode < 0) (hn : validName name = true) :
    let s' := (runCalls (fsDisk cp) [.create name, .open name, .delete name] s).2
    Live cp N false false s' ∧ Vacant (logicalDisk cp s'.dev) s'.mem ∧ s'.mem.handles 0 = ⟨1, 0⟩ := by
  intro s'
  obtain ⟨hlive₂, hm₂, slot, hs, he, ho⟩ := create_open name h hv hc hn
  obtain ⟨⟨-, heff₃⟩, hlive₃⟩ := hlive₂.call (.delete name)
  obtain ⟨hm₃, -, hu⟩ := delete_only hs he ho (by rw [hm₂]; exact hv.ready) hn heff₃
  have hS := hlive₂.sound.owned.totalHi
  obtain ⟨q1, -, q3, q4, q5⟩ := releaseInode_spec _ 1 hS
  have hin : ∀ j, (setHandle (setInode s.mem 1 .fresh) 0 ⟨1, 0⟩).inode j = if j = 1 then .fresh else s.mem.inode j := by
    intro j
    rw [inode_setHandle, inode_setInode]
    simp
  rw [hm₂] at q1 q3 q4 q5 hm₃
  refine ⟨hlive₃, ⟨?_, hu, fun i hi => ?_, fun t ht => ?_⟩, ?_⟩
  · show FsMem.filesystemReady _ = true
    rw [show s'.mem = _ from hm₃, q4]; exact hv.ready
  · rw [show s'.mem = _ from hm₃, q1]
    split
    · rw [hin 1, if_pos rfl]; rfl
    · rename_i hne
      rw [hin i, if_neg (by omega)]; exact hv.inodes i hi
  · rw [show s'.mem = _ from hm₃, q5, hin 1, if_pos rfl]
    refine Iff.trans ⟨fun h => h.1, fun h => ⟨h, ?_⟩⟩ (hv.bits t ht)
    rintro ⟨h1, -, k, hk⟩
    have : (0 : Nat) = t := hk
    omega
  · rw [show s'.mem = _ from hm₃, q3]
    exact Function.update_self 0 _ s.mem.handles

end

end SpectreOS
