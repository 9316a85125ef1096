/-
One named file on a filesystem at work, with any other files and open handles beside it, when no
request fails: what opening, reading, deleting, creating and writing do to it. A file that is
open elsewhere may be deleted as well, and may have holes.
-/
import SpectreOS.Fs.Refine

namespace SpectreOS

open BlockIO Prog

/-- A mounted filesystem on which nothing has failed. -/
structure Working (N : Nat) (d : Nat → Sector) (m : FsMem) : Prop where
  sound : Sound N d m
  linked : Linked d m
  ready : m.filesystemReady = true

/-- The file of the name is inode `i` and holds the string. -/
structure Stores (d : Nat → Sector) (m : FsMem) (name : CStr) (i : Nat) (data : List Byte) : Prop where
  lookup : lookup d name = some i
  holds : Holds d (m.inode i) data

/-- Some handle is closed. -/
def HandleFree (m : FsMem) : Prop := ∃ fd < 16, (m.handles fd).inode < 0

section

variable {N : Nat} {d d' : Nat → Sector} {m m' : FsMem} {name : CStr} {i : Nat} {data : List Byte}

theorem Working.step {call : Call} {ret : Ret} (h : Working N d m) (hc : CallEffect false false d m call ret d' m')
    (hr : m'.filesystemReady = m.filesystemReady) : Working N d' m' :=
  ⟨hc.sound h.sound, hc.linked h.sound h.linked, hr.trans h.ready⟩

theorem Stores.length_le (h : Sound N d m) (hs : Stores d m name i data) : data.length ≤ 16384 := by
  rw [← hs.holds.size]
  exact h.sizes i

theorem Stores.fileBytes (hs : Stores d m name i data) : SpectreOS.fileBytes d m name = some data := by
  rw [SpectreOS.fileBytes, hs.lookup, Option.map_some, hs.holds.fileBytes]

theorem Stores.setHandle (hs : Stores d m name i data) (fd : Nat) (h : Handle) :
    Stores d (setHandle m fd h) name i data := ⟨hs.lookup, hs.holds⟩

theorem Working.setHandle (h : Working N d m) {fd : Nat} {hd : Handle}
    (hi : hd.inode = -1 ∨ 1 ≤ hd.inode ∧ hd.inode < 128) (hp : hd.position ≤ 16384) : Working N d (setHandle m fd hd) :=
  ⟨h.sound.setHandle fd hi hp, h.linked.congr (fun _ _ => rfl) fun _ => rfl, h.ready⟩

/-! ## Any file -/

/-- The contents of a name that still has its inode. -/
theorem fileBytes_same (hl : lookup d' name = lookup d name) (hs : ∀ i, lookup d name = some i → SameFile d m d' m' i) :
    fileBytes d' m' name = fileBytes d m name := by
  unfold SpectreOS.fileBytes
  rw [hl]
  cases h : lookup d name with
  | none => rfl
  | some i =>
    obtain ⟨hi, -⟩ := hs i h
    have hbytes := (hs i h).bytesFrom 0 (m.inode i).size
    rw [Option.map_some, Option.map_some, hi]
    rw [hi] at hbytes
    rw [hbytes]

theorem fsExists_working (h : Working N d m) (name : CStr) :
    (fsExists name).wp (exact N false false)
      (fun res d' m' => d' = d ∧ m' = m ∧ (res = 0 ↔ lookup d name = none)) d m := by
  refine (fsExists_exact h.sound name).mono ?_
  rintro res d' m' ⟨rfl, rfl, hres⟩
  refine ⟨rfl, rfl, ?_⟩
  rw [hres rfl]
  by_cases hl : lookup d' name = none
  · rw [if_neg fun hc => ?_]
    · exact iff_of_true rfl hl
    · obtain ⟨slot, hslot, hn⟩ := hc.2.2
      exact lookup_eq_none.1 hl slot hslot hn
  · obtain ⟨i, hi⟩ := Option.ne_none_iff_exists'.1 hl
    obtain ⟨slot, hslot, hn, -⟩ := h.linked.lookup_iff.1 hi
    rw [if_pos ⟨h.ready, h.linked.lookup_valid hi, slot, hslot, hn⟩]
    exact iff_of_false Int.one_ne_zero hl

theorem fsCreate_working (h : Working N d m) (name : CStr) :
    (fsCreate name).wp (exact N false false) (fun res d' m' =>
      (res = 0 ∧ d' = d ∧ m' = m ∧ ¬ (validName name = true ∧ lookup d name = none ∧ firstFreeInode m ≠ none)) ∨
        ∃ i, res = 1 ∧ validName name = true ∧ lookup d name = none ∧ firstFreeInode m = some i ∧
          m' = setInode m i .fresh ∧ Working N d' m' ∧ (∀ n, lookup d' n = if n = name then some i else lookup d n) ∧
          ∀ l, 129 ≤ l → d' l = d l) d m := by
  refine (fsCreate_exact h.sound name).mono ?_
  intro res d' m' hc
  have hwork : m'.filesystemReady = m.filesystemReady → Working N d' m' :=
    @Working.step N d d' m m' (.create name) ⟨res, []⟩ h ⟨rfl, hc⟩
  rcases h.linked.create_cases h.sound h.ready hc with ⟨h1, h2, h3, hwhy⟩ | ⟨i, h1, h2, h3, h4, rfl, h5, h6⟩
  · refine .inl ⟨h1, h2, h3, ?_⟩
    rintro ⟨hv, hnone, hfree⟩
    rcases hwhy with hno | hno | hno
    · rw [hv] at hno
      cases hno
    · exact hno hnone
    · exact hfree hno
  · exact .inr ⟨i, h1, h2, h3, h4, rfl, hwork rfl, h5, h6⟩

theorem fsDelete_working (h : Working N d m) (name : CStr) :
    (fsDelete name).wp (exact N false false) (fun res d' m' => (res = 0 ∧ d' = d ∧ m' = m ∧ lookup d name = none) ∨
      ∃ i, res = 1 ∧ lookup d name = some i ∧ m' = releaseInode m i ∧ Working N d' m' ∧
        (∀ n, lookup d' n = if n = name then none else lookup d n) ∧ ∀ l, 129 ≤ l → d' l = d l) d m := by
  refine (fsDelete_exact h.sound name).mono ?_
  intro res d' m' hc
  have hwork : m'.filesystemReady = m.filesystemReady → Working N d' m' :=
    @Working.step N d d' m m' (.delete name) ⟨res, []⟩ h ⟨rfl, hc⟩
  rcases h.linked.delete_cases h.sound h.ready hc with hnone | ⟨i, h1, h2, rfl, h3, h4⟩
  · exact .inl hnone
  · exact .inr ⟨i, h1, h2, rfl, hwork (releaseInode_spec m i h.sound.owned.totalHi).2.2.2.1, h3, h4⟩

theorem fsOpen_working (h : Working N d m) (name : CStr) :
    (fsOpen name).wp (exact N false false) (fun fd d' m' => d' = d ∧
      ((fd = -1 ∧ m' = m ∧ (lookup d name = none ∨ ¬ HandleFree m)) ∨
        ∃ i k : Nat, fd = k ∧ lookup d name = some i ∧ k < 16 ∧ (m.handles k).inode < 0 ∧ m' = setHandle m k ⟨i, 0⟩ ∧
          Working N d m')) d m := by
  refine (fsOpen_exact h.sound name).mono ?_
  rintro fd d' m' ⟨rfl, ho⟩
  refine ⟨rfl, ?_⟩
  rcases h.linked.open_cases h.ready ho with ⟨h1, h2, hwhy⟩ | ⟨i, k, h1, h2, h3, h4, -, rfl⟩
  · refine .inl ⟨h1, h2, hwhy.imp_right ?_⟩
    rintro hall ⟨k, hk, hneg⟩
    exact absurd (hall k hk) (by omega)
  · obtain ⟨hlo, hhi⟩ := h.sound.lookup_lt h2
    exact .inr ⟨i, k, h1, h2, h3, h4, rfl,
      h.setHandle (.inr ⟨by simp only; omega, by simp only; omega⟩) (Nat.zero_le _)⟩

/-! ## Handles -/

theorem fsClose_working {k : Nat} (hk : k < 16) :
    (fsClose k).wp (exact N false false) (fun _ d' m' => d' = d ∧ m' = SpectreOS.setHandle m k .closed) d m := by
  refine (fsClose_exact (k : Int)).mono ?_
  rintro res d' m' ⟨rfl, hclosed⟩
  rw [if_pos (by omega), Int.toNat_natCast] at hclosed
  exact ⟨rfl, hclosed.2⟩

/-- A file is opened unless every handle is in use. -/
theorem fsOpen_stored (h : Sound N d m) (hready : m.filesystemReady = true) (hv : validName name = true)
    (hs : Stores d m name i data) :
    (fsOpen name).wp (exact N false false) (fun fd d' m' => d' = d ∧
      ((¬ HandleFree m ∧ fd = -1 ∧ m' = m) ∨
        ∃ k : Nat, fd = k ∧ k < 16 ∧ (m.handles k).inode < 0 ∧ m' = SpectreOS.setHandle m k ⟨i, 0⟩)) d m := by
  refine (fsOpen_exact h name).mono ?_
  rintro fd d' m' ⟨rfl, ho⟩
  refine ⟨rfl, ?_⟩
  obtain ⟨slot, hslot, hname, hfirst, hi⟩ := lookup_eq_some.1 hs.lookup
  cases ho with
  | refused hwhy =>
    refine .inl ⟨?_, rfl, rfl⟩
    rintro ⟨k, hk, hneg⟩
    rcases hwhy rfl hready hv with hno | hall
    · exact hno slot hslot hname
    · exact absurd (hall k hk) (by omega)
  | done slot' fd _ _ hs' hname' hfirst' hfd hneg _ =>
    obtain rfl : slot' = slot := by
      rcases Nat.lt_trichotomy slot' slot with hlt | heq | hgt
      · exact absurd hname' (hfirst slot' hlt)
      · exact heq
      · exact absurd hname (hfirst' rfl slot hgt)
    rw [hi]
    exact .inr ⟨fd, rfl, hfd, hneg, rfl⟩

theorem fsRead_stored (h : Sound N d m) (hready : m.filesystemReady = true) (hs : Stores d m name i data)
    {k p : Nat} (hk : k < 16) (hh : m.handles k = ⟨(i : Nat), p⟩) (size : Nat) :
    (fsRead k true size).wp (exact N false false) (fun res d' m' => d' = d ∧
      res = (((min size (data.length - p) : Nat) : Int), (data.drop p).take size) ∧
      m' = setHandle m k ⟨i, p + min size (data.length - p)⟩) d m := by
  refine (fsRead_exact h k true size).mono ?_
  rintro res d' m' ⟨rfl, hr⟩
  refine ⟨rfl, ?_⟩
  have husable : handleUsable m k true = true := by
    rw [handleUsable_iff]
    refine ⟨hready, rfl, by omega, by omega, ?_⟩
    rw [Int.toNat_natCast, hh]
    exact Int.natCast_nonneg i
  cases hr with
  | refused hno => rw [husable] at hno; cases hno
  | done n _ hle hstop =>
    rw [Int.toNat_natCast, hh] at hle hstop ⊢
    simp only [Int.toNat_natCast] at hle hstop ⊢
    rw [hs.holds.size] at hle hstop
    obtain rfl := hs.holds.read_count (hs.length_le h) hle fun hlt => (hstop hlt).resolve_left Bool.false_ne_true
    exact ⟨congrArg (Prod.mk _) (hs.holds.bytesFrom p size), rfl⟩

/-! ## Replacing a file -/

/-- A name that has a file is free afterwards, as are the file's sectors and its inode. -/
theorem fsDelete_found (h : Working N d m) (hl : lookup d name = some i) :
    (fsDelete name).wp (exact N false false) (fun res d' m' => res = 1 ∧ Working N d' m' ∧ lookup d' name = none ∧
      m'.handles = m.handles ∧ (freeSectors m').card = (freeSectors m).card + (m.inode i).held ∧
      firstFreeInode m' ≠ none) d m := by
  refine (fsDelete_working h name).mono ?_
  intro res d' m' hc
  obtain ⟨q1, -, q3, -, -⟩ := releaseInode_spec m i h.sound.owned.totalHi
  rcases hc with ⟨-, -, -, hnone⟩ | ⟨j, rfl, hj, rfl, hwork, hlook, -⟩
  · rw [hl] at hnone
    cases hnone
  · obtain rfl := Option.some.inj (hj.symm.trans hl)
    obtain ⟨hlo, hhi⟩ := h.sound.lookup_lt hj
    refine ⟨rfl, hwork, by rw [hlook, if_pos rfl], q3, free_card_release h.sound j, ?_⟩
    -- the inode of the deleted file is free at the latest
    intro hnone
    have := List.find?_eq_none.1 hnone j (List.mem_range'_1.2 ⟨hlo, by simp only [fsMaxFiles]; omega⟩)
    rw [q1, if_pos ⟨rfl, hhi⟩] at this
    exact this rfl

/-- A new file is empty. -/
theorem Created.stores {res : Int} (hc : Created false false d m name res d' m') : res = 0 ∨
    res = 1 ∧ m.filesystemReady = true ∧ validName name = true ∧ (∃ i, Stores d' m' name i []) ∧
      m'.filesystemReady = true ∧ m'.handles = m.handles ∧ freeSectors m' = freeSectors m := by
  cases hc with
  | refused | unsaved | undone => exact .inl rfl
  | done i slot hready hv hno hslot _ hi =>
    obtain ⟨hnew, hold⟩ := @entryAt_created d name i slot (firstFreeInode_some hi).2.2
    refine .inr ⟨rfl, hready, hv, ⟨i, lookup_eq_some.2 ⟨slot, hslot, ?_, fun j hj => ?_, ?_⟩, ?_⟩, hready, rfl, rfl⟩
    · rw [hnew]
      exact (hasName_newEntry hv i).2 rfl
    · rw [hold j (by omega)]
      exact hno rfl j (by omega)
    · rw [hnew]
      rfl
    · rw [inode_setInode, if_pos ⟨rfl, (firstFreeInode_some hi).2.2⟩]
      exact holds_fresh _

/-- How many bytes of `size` a write at `p` takes. -/
def roomAt (m : FsMem) (data : List Byte) (p size : Nat) : Nat :=
  min (min size (16384 - p)) ((sectorsOf data + (freeSectors m).card) * 512 - p)

theorem fsWrite_stored (h : Sound N d m) (hready : m.filesystemReady = true) (hs : Stores d m name i data)
    {k p : Nat} (hk : k < 16) (hh : m.handles k = ⟨(i : Nat), p⟩) (hp : p ≤ data.length) (input : List Byte) :
    (fsWrite k (some input)).wp (exact N false false) (fun res d' m' => res = roomAt m data p input.length ∧
      Sound N d' m' ∧ m'.filesystemReady = true ∧
        Stores d' m' name i (overwrite data p (input.take (roomAt m data p input.length)))) d m := by
  refine (fsWrite_exact h k (some input)).mono ?_
  intro res d' m' hc
  obtain ⟨hlo, hhi⟩ := h.lookup_lt hs.lookup
  have hlen := hs.length_le h
  have hframe := hc.frame h
  have hwork : Sound N d' m' := hc.sound h
  have hready' : m'.filesystemReady = true := hframe.2.2.2.1.trans hready
  have hlook : lookup d' name = some i := (lookup_congr hframe.1).trans hs.lookup
  have husable : handleUsable m k (some input).isSome = true := by
    rw [handleUsable_iff]
    refine ⟨hready, rfl, by omega, by omega, ?_⟩
    rw [Int.toNat_natCast, hh]
    exact Int.natCast_nonneg i
  cases hc with
  | refused hno => rw [husable] at hno; cases hno
  | full _ hpos =>
    rw [Int.toNat_natCast, hh] at hpos
    have hzero : roomAt m data p input.length = 0 := by
      simp only at hpos
      unfold roomAt
      omega
    rw [hzero, List.take_zero]
    refine ⟨rfl, hwork, hready', hlook, ?_⟩
    have hsame : overwrite data p [] = data := by simp [overwrite]
    rw [hsame]
    exact hs.holds
  | done n d₁ m₁ d' _ hpos W hd _ =>
    rw [Int.toNat_natCast, hh] at W hpos hwork hready' ⊢
    simp only [Int.toNat_natCast, Option.getD_some] at W hpos hwork hready' ⊢
    have hn : n = roomAt m data p input.length :=
      W.count hhi h.owned hs.holds hp hlen (by omega)
    rw [← hn]
    have hle := W.le
    have hbytes : (input.take n).length = n := by rw [List.length_take]; omega
    have hget : ∀ j < n, (input.take n).getD j 0 = input.getD j 0 := fun j hj => by
      simp only [List.getD_eq_getElem?_getD, List.getElem?_take, hj, ↓reduceIte]
    exact ⟨rfl, hwork, hready', hlook, W.finish hhi h.owned hs.holds hp hbytes hget hd⟩

end

end SpectreOS
