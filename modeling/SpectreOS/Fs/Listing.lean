/-
`fs_list` and `ls`: the buffer gets the names of the used directory entries in slot order, one a line,
up to the first that does not fit. In the states that no failure led to these are the names of the
files, so a buffer shows every file just when all lines and the terminator fit it; the buffer of `ls`
has 4096 bytes, and 127 names of 47 characters take more.
-/
import SpectreOS.Fs.Visited
import SpectreOS.Lib.LineEditor

namespace SpectreOS

open BlockIO Prog LineEditor

/-! ## Lines that fit -/

/-- The names that fit a buffer after `written` bytes, one a line and with room for the terminator, up
to the first that does not. -/
def fitting (size : Nat) : Nat → List (List Byte) → List (List Byte)
  | _, [] => []
  | written, name :: names =>
    if size ≤ written + name.length + 1 then [] else name :: fitting size (written + name.length + 1) names

/-- What some names take, one a line. -/
def linesLength (names : List (List Byte)) : Nat := (names.map fun name => name.length + 1).sum

theorem linesLength_cons (name : List Byte) (names : List (List Byte)) :
    linesLength (name :: names) = name.length + 1 + linesLength names := by
  rw [linesLength, List.map_cons, List.sum_cons]
  rfl

theorem linesLength_append (names names' : List (List Byte)) :
    linesLength (names ++ names') = linesLength names + linesLength names' := by
  simp only [linesLength, List.map_append, List.sum_append]

theorem length_unlines (names : List (List Byte)) : (unlines (10 : Byte) names).length = linesLength names := by
  induction names with
  | nil => rfl
  | cons name names ih =>
    rw [unlines_cons, List.length_append, List.length_cons, ih, linesLength_cons]
    omega

section Fitting

variable {size written : Nat} {names : List (List Byte)}

theorem fitting_lt (h : written < size) : written + linesLength (fitting size written names) < size := by
  induction names generalizing written with
  | nil => exact h
  | cons name names ih =>
    rw [fitting]
    split
    · exact h
    · rename_i hfits
      have := @ih (written + name.length + 1) (by omega)
      rw [linesLength_cons]
      omega

/-- What fits is a first part, and the next name does not. -/
theorem fitting_split : ∃ rest, names = fitting size written names ++ rest ∧
    ∀ name ∈ rest.head?, size ≤ written + linesLength (fitting size written names) + name.length + 1 := by
  induction names generalizing written with
  | nil => exact ⟨[], rfl, by simp⟩
  | cons name names ih =>
    rw [fitting]
    split
    · rename_i hcut
      refine ⟨name :: names, rfl, fun x hx => ?_⟩
      obtain rfl : name = x := by simpa using hx
      exact hcut
    · obtain ⟨rest, hrest, hnext⟩ := @ih (written + name.length + 1)
      refine ⟨rest, by rw [List.cons_append, ← hrest], fun x hx => ?_⟩
      have := hnext x hx
      rw [linesLength_cons]
      omega

/-- All names fit just when all their lines do. -/
theorem fitting_eq_iff (h : written < size) : fitting size written names = names ↔
    written + linesLength names < size := by
  constructor
  · intro heq
    have := @fitting_lt size written names h
    rwa [heq] at this
  · intro hlt
    obtain ⟨rest, hrest, hnext⟩ := @fitting_split size written names
    cases rest with
    | nil =>
      rw [List.append_nil] at hrest
      exact hrest.symm
    | cons name rest =>
      have := hnext name rfl
      rw [hrest, linesLength_append, linesLength_cons] at hlt
      omega

end Fitting

/-! ## The directory -/

/-- The bytes of an entry's name before its NUL. -/
def Dirent.nameText (e : Dirent) : List Byte := (List.range e.nameLength).map e.chars

/-- The names of the used entries among some slots, in their order. -/
def slotNames (d : Nat → Sector) (slots : List Nat) : List (List Byte) :=
  (slots.filter fun slot => decide (slot < slotCount ∧ (entryAt d slot).used ≠ 0)).map
    fun slot => (entryAt d slot).nameText

/-- The names of the used entries of the directory. -/
def usedNames (d : Nat → Sector) : List (List Byte) := slotNames d (List.range slotCount)

/-- The last slots that `fs_list` asks for are not in the directory. -/
theorem slotNames_dirSlots (d : Nat → Sector) : slotNames d (List.range dirSlots) = usedNames d := by
  have hsplit : List.range dirSlots = List.range slotCount ++ (List.range 4).map (slotCount + ·) :=
    @List.range_add 288 4
  have hnone : ((List.range 4).map (slotCount + ·)).filter
      (fun slot => decide (slot < slotCount ∧ (entryAt d slot).used ≠ 0)) = [] := by
    rw [List.filter_eq_nil_iff]
    intro slot hslot
    obtain ⟨k, -, rfl⟩ := List.mem_map.mp hslot
    simp
  rw [slotNames, hsplit, List.filter_append, hnone, List.append_nil]
  rfl

section

variable {N : Nat} {w : Bool} {d : Nat → Sector} {m : FsMem}

theorem fsListLoop_served (h : Sound N d m) (size : Nat) (slots : List Nat) (written : List Byte) :
    (fsListLoop size slots written).wp (exact N false w) (fun out d' m' => m' = m ∧ d' = d ∧
      out = written ++ unlines 10 (fitting size written.length (slotNames d slots))) d m := by
  induction slots generalizing written with
  | nil => exact ⟨rfl, rfl, (List.append_nil written).symm⟩
  | cons slot slots ih =>
    rw [fsListLoop]
    refine (dirReadEntry_exact h.lo h.root slot).seq ?_
    rintro res d' m' ⟨rfl, rfl, hin, hout⟩
    have hskip : ¬ (slot < slotCount ∧ (entryAt d' slot).used ≠ 0) →
        slotNames d' (slot :: slots) = slotNames d' slots := by
      intro hno
      rw [slotNames, List.filter_cons_of_neg (by simpa using hno)]
      rfl
    by_cases hs : slot < slotCount
    · obtain rfl : res = some (entryAt d' slot) := (hin hs).resolve_right fun hfail => by cases hfail.2
      simp only
      by_cases hu : (entryAt d' slot).used = 0
      · rw [if_pos hu, hskip fun hyes => hyes.2 hu]
        exact ih _
      · have hnames : slotNames d' (slot :: slots) = (entryAt d' slot).nameText :: slotNames d' slots := by
          rw [slotNames, List.filter_cons_of_pos (by simpa using ⟨hs, hu⟩)]
          rfl
        have hlen : (entryAt d' slot).nameText.length = (entryAt d' slot).nameLength := by
          rw [Dirent.nameText, List.length_map, List.length_range]
        rw [if_neg hu, hnames, fitting, hlen]
        by_cases hcut : written.length + (entryAt d' slot).nameLength + 1 ≥ size
        · rw [if_pos hcut, if_pos hcut]
          exact ⟨rfl, rfl, (List.append_nil written).symm⟩
        · rw [if_neg hcut, if_neg hcut]
          refine (ih _).mono ?_
          rintro out d'' m'' ⟨rfl, rfl, rfl⟩
          refine ⟨rfl, rfl, ?_⟩
          rw [unlines_cons, ← Dirent.nameText, List.length_append, List.length_append, List.length_singleton, hlen,
            List.append_assoc, List.append_assoc, List.singleton_append]
          rfl
    · rw [hout (by omega), hskip fun hyes => hs hyes.1]
      exact ih _

/-- The listing of a mounted filesystem when nothing fails. -/
theorem fsList_served (h : Sound N d m) (hready : m.filesystemReady = true) {size : Nat} (hsize : 1 ≤ size) :
    (fsList true size).wp (exact N false w) (fun out d' m' => m' = m ∧ d' = d ∧
      out = (((linesLength (fitting size 0 (usedNames d)) : Nat) : Int),
        unlines 10 (fitting size 0 (usedNames d)) ++ [0])) d m := by
  unfold fsList
  rw [wp_bind, wp_load]
  have hzero : (size == 0) = false := by simpa using (by omega : size ≠ 0)
  rw [hready, hzero, if_neg (by decide)]
  refine (fsListLoop_served h size (List.range dirSlots) []).seq ?_
  rintro out d' m' ⟨rfl, rfl, rfl⟩
  have hlt := @fitting_lt size 0 (usedNames d') hsize
  rw [Nat.zero_add] at hlt
  refine ⟨rfl, rfl, ?_⟩
  rw [slotNames_dirSlots, List.nil_append, List.length_nil, length_unlines, if_pos hlt]

end

/-! ## Files -/

section

variable {d : Nat → Sector} {m : FsMem} {name : CStr}

theorem nameText_newEntry (h : validName name = true) (i : Nat) : (newEntry name i).nameText = name.val := by
  obtain ⟨-, hlen⟩ := validName_length h
  have hchars : ∀ k < 48, (newEntry name i).chars k = name.val.getD k 0 := by
    intro k hk
    rw [Dirent.chars, dif_pos hk]
    rfl
  have hlength : (newEntry name i).nameLength = name.val.length := by
    have hfind : ((List.range 48).find? fun k => (newEntry name i).chars k == 0) = some name.val.length := by
      rw [List.find?_range_eq_some]
      refine ⟨?_, List.mem_range.mpr hlen, fun k hk => ?_⟩
      · rw [hchars _ hlen, List.getD_eq_default _ _ (le_refl _)]
        rfl
      · rw [hchars k (by omega), List.getD_eq_getElem _ _ hk]
        have hne : name.val[k] ≠ 0#8 := by
          intro h0
          have hmem := List.getElem_mem hk
          rw [h0] at hmem
          exact name.2 hmem
        simpa using hne
    rw [Dirent.nameLength, hfind, Option.getD_some]
  rw [Dirent.nameText, hlength]
  apply List.ext_getElem
  · rw [List.length_map, List.length_range]
  · intro k hk hk'
    rw [List.getElem_map, List.getElem_range, hchars k (by omega), List.getD_eq_getElem _ _ hk']

theorem newline_notMem_of_valid (h : validName name = true) : (10 : Byte) ∉ name.val := by
  intro hmem
  unfold validName at h
  split at h
  · cases h
  · have := List.all_eq_true.mp h 10 hmem
    revert this
    decide

theorem mem_usedNames (h : Paired d m) {text : List Byte} : text ∈ usedNames d ↔
    ∃ name : CStr, text = name.val ∧ validName name = true ∧ ∃ slot < slotCount, (entryAt d slot).hasName name := by
  unfold usedNames slotNames
  rw [List.mem_map]
  constructor
  · rintro ⟨slot, hmem, rfl⟩
    rw [List.mem_filter, decide_eq_true_eq] at hmem
    obtain ⟨-, hslot, hused⟩ := hmem
    obtain ⟨name, hvalid, hentry⟩ := h.named slot hslot hused
    refine ⟨name, ?_, hvalid, slot, hslot, ?_⟩
    · rw [hentry, nameText_newEntry hvalid]
    · rw [hentry, hasName_newEntry hvalid]
  · rintro ⟨name, rfl, -, slot, hslot, hname⟩
    obtain ⟨other, hvalid, hentry⟩ := h.named slot hslot hname.1
    refine ⟨slot, ?_, ?_⟩
    · rw [List.mem_filter, decide_eq_true_eq]
      exact ⟨List.mem_range.mpr hslot, hslot, hname.1⟩
    · rw [hentry, hasName_newEntry hvalid] at hname
      rw [hentry, nameText_newEntry hvalid, hname]

/-- No two files have one name. -/
theorem nodup_usedNames (h : Paired d m) : (usedNames d).Nodup := by
  refine List.Nodup.map_on ?_ (List.nodup_range.filter _)
  intro slot hmem slot' hmem' heq
  rw [List.mem_filter, decide_eq_true_eq] at hmem hmem'
  obtain ⟨-, hslot, hused⟩ := hmem
  obtain ⟨-, hslot', hused'⟩ := hmem'
  obtain ⟨name, hvalid, hentry⟩ := h.named slot hslot hused
  obtain ⟨name', hvalid', hentry'⟩ := h.named slot' hslot' hused'
  rw [hentry, hentry', nameText_newEntry hvalid, nameText_newEntry hvalid'] at heq
  obtain rfl := Subtype.ext heq
  refine h.unique slot hslot slot' hslot' name ?_ ?_
  · rw [hentry, hasName_newEntry hvalid]
  · rw [hentry', hasName_newEntry hvalid]

end

/-! ## `ls` -/

/-- The file exists. -/
def fileExists (cp : Primitives) (s : Conf FsMem Machine) (name : CStr) : Prop :=
  ((Call.exist name).prog.run (fsDisk cp) s).1.val = 1

section

variable {cp : Primitives} {N : Nat} {s : Conf FsMem Machine}

theorem Visited.exists_iff (h : Visited cp N s) (name : CStr) :
    fileExists cp s name ↔ name.val ∈ usedNames (logicalDisk cp s.dev) := by
  have hh := h.healthy
  obtain ⟨⟨-, -, hret⟩, -⟩ := hh.live.call (.exist name)
  rw [fileExists, hret rfl, mem_usedNames hh.working.linked.toPaired]
  simp only [hh.working.ready, true_and]
  constructor
  · intro hone
    split at hone
    · rename_i hyes
      exact ⟨name, rfl, hyes.1, hyes.2⟩
    · cases hone
  · rintro ⟨other, heq, hvalid, hslot⟩
    obtain rfl := Subtype.ext heq
    rw [if_pos ⟨hvalid, hslot⟩]

/-- The lines of a listing are the names that fit. -/
theorem Visited.list_run (h : Visited cp N s) {size : Nat} (hsize : 1 ≤ size) :
    let shown := fitting size 0 (usedNames (logicalDisk cp s.dev))
    ((Call.list true size).prog.run (fsDisk cp) s).1 = ⟨((linesLength shown : Nat) : Int), unlines 10 shown ++ [0]⟩ ∧
      linesOf 10 ((Call.list true size).prog.run (fsDisk cp) s).1.bytes.dropLast = shown := by
  have hh := h.healthy
  have hprog : (Call.list true size).prog.wp (exact N false false) (fun ret d' m' =>
      (m' = s.mem ∧ d' = logicalDisk cp s.dev) ∧ ret =
        ⟨((linesLength (fitting size 0 (usedNames (logicalDisk cp s.dev))) : Nat) : Int),
          unlines 10 (fitting size 0 (usedNames (logicalDisk cp s.dev))) ++ [0]⟩) (logicalDisk cp s.dev) s.mem :=
    (fsList_served hh.live.sound hh.working.ready hsize).seq fun _ _ _ ho => ⟨⟨ho.1, ho.2.1⟩, by rw [ho.2.2]⟩
  obtain ⟨⟨-, hret⟩, -⟩ := hh.live.exec hprog fun _ _ _ ho => by rw [ho.1.1, ho.1.2]; exact hh.live.sound
  intro shown
  refine ⟨hret, ?_⟩
  rw [hret]
  simp only [List.dropLast_concat]
  apply linesOf_unlines
  intro text htext
  obtain ⟨rest, hsplit, -⟩ := @fitting_split size 0 (usedNames (logicalDisk cp s.dev))
  have hmem : text ∈ usedNames (logicalDisk cp s.dev) := by
    rw [hsplit]
    exact List.mem_append_left _ htext
  obtain ⟨name, rfl, hvalid, -⟩ := (mem_usedNames hh.working.linked.toPaired).mp hmem
  exact newline_notMem_of_valid hvalid

/-- A listing shows every file just when all the lines fit. -/
theorem Visited.shows_all_iff (h : Visited cp N s) {size : Nat} (hsize : 1 ≤ size) :
    (∀ name, fileExists cp s name → (fitting size 0 (usedNames (logicalDisk cp s.dev))).count name.val = 1) ↔
      linesLength (usedNames (logicalDisk cp s.dev)) < size := by
  have hpaired := h.healthy.working.linked.toPaired
  have hnodup := nodup_usedNames hpaired
  have hfits := @fitting_eq_iff size 0 (usedNames (logicalDisk cp s.dev)) hsize
  rw [Nat.zero_add] at hfits
  rw [← hfits]
  constructor
  · intro hall
    obtain ⟨rest, hsplit, -⟩ := @fitting_split size 0 (usedNames (logicalDisk cp s.dev))
    cases rest with
    | nil =>
      rw [List.append_nil] at hsplit
      exact hsplit.symm
    | cons text rest =>
      -- the first name that is cut is that of a file
      have hmem : text ∈ usedNames (logicalDisk cp s.dev) := by
        rw [hsplit]
        exact List.mem_append_right _ List.mem_cons_self
      obtain ⟨name, rfl, -⟩ := (mem_usedNames hpaired).mp hmem
      have hone := hall name ((h.exists_iff name).mpr hmem)
      rw [hsplit] at hnodup
      have hcut := List.disjoint_of_nodup_append hnodup
      have hin : name.val ∈ fitting size 0 (usedNames (logicalDisk cp s.dev)) :=
        List.count_pos_iff.mp (by omega)
      exact absurd List.mem_cons_self (hcut hin)
  · intro heq name hname
    rw [heq]
    exact List.count_eq_one_of_mem hnodup ((h.exists_iff name).mp hname)

/-- In every state that calls, formats and mounts without a failed request lead to, a listing into a
buffer of at least one byte writes no more than the buffer, ends in a NUL and returns the length of
the lines before it. They are the names of the used directory entries in slot order, up to the first
that does not fit; and they show every file, once, exactly if all the names with their newlines are
shorter than the buffer. -/
theorem list_shows (h : Visited cp N s) {size : Nat} (hsize : 1 ≤ size) :
    let r := ((Call.list true size).prog.run (fsDisk cp) s).1
    (∃ shown rest, usedNames (logicalDisk cp s.dev) = shown ++ rest ∧ r.bytes = unlines 10 shown ++ [0] ∧
      r.val = (unlines 10 shown).length ∧ r.bytes.length ≤ size ∧
      ∀ name ∈ rest.head?, size ≤ (unlines 10 shown).length + name.length + 1) ∧
    ((∀ name, fileExists cp s name → (linesOf 10 r.bytes.dropLast).count name.val = 1) ↔
      linesLength (usedNames (logicalDisk cp s.dev)) < size) := by
  intro r
  obtain ⟨hret, hlines⟩ := h.list_run hsize
  obtain ⟨rest, hsplit, hnext⟩ := @fitting_split size 0 (usedNames (logicalDisk cp s.dev))
  have hlt := @fitting_lt size 0 (usedNames (logicalDisk cp s.dev)) hsize
  rw [Nat.zero_add] at hlt hnext
  constructor
  · refine ⟨_, rest, hsplit, congrArg Ret.bytes hret, ?_, ?_, ?_⟩
    · rw [length_unlines]
      exact congrArg Ret.val hret
    · rw [show r.bytes = _ from congrArg Ret.bytes hret, List.length_append, length_unlines, List.length_singleton]
      exact hlt
    · rw [length_unlines]
      exact hnext
  · rw [hlines]
    exact h.shows_all_iff hsize

end

/-! ## The files of the model -/

section

variable {cp : Primitives} {N : Nat} {s : Conf FsMem Machine} {a : Files}

/-- The names in the directory are those of the files. -/
theorem Reached.mem_usedNames (h : Reached cp N s a) (name : CStr) :
    name.val ∈ usedNames (logicalDisk cp s.dev) ↔ name ∈ a.names := by
  have hpaired := h.visited.healthy.working.linked.toPaired
  rw [h.running.refines.agrees.mem_iff, SpectreOS.mem_usedNames hpaired]
  constructor
  · rintro ⟨other, heq, -, slot, hslot, hname⟩
    obtain rfl := Subtype.ext heq
    refine Option.ne_none_iff_exists'.mp fun hnone => ?_
    exact lookup_eq_none.mp hnone slot hslot hname
  · rintro ⟨i, hi⟩
    obtain ⟨slot, hslot, hname, -⟩ := lookup_eq_some.mp hi
    obtain ⟨other, hvalid, hentry⟩ := hpaired.named slot hslot hname.1
    obtain rfl : name = other := by
      rw [hentry] at hname
      exact (hasName_newEntry hvalid _).mp hname
    exact ⟨name, rfl, hvalid, slot, hslot, hname⟩

/-- A listing of all files has a line for each. -/
theorem Reached.linesLength_usedNames (h : Reached cp N s a) :
    linesLength (usedNames (logicalDisk cp s.dev)) = ∑ name ∈ a.names, (name.val.length + 1) := by
  have hpaired := h.visited.healthy.working.linked.toPaired
  have hperm : (usedNames (logicalDisk cp s.dev)).Perm (a.names.toList.map Subtype.val) := by
    rw [List.perm_ext_iff_of_nodup (nodup_usedNames hpaired) (a.names.nodup_toList.map Subtype.val_injective)]
    intro text
    rw [List.mem_map]
    constructor
    · intro htext
      obtain ⟨name, rfl, -⟩ := (SpectreOS.mem_usedNames hpaired).mp htext
      exact ⟨name, Finset.mem_toList.mpr ((h.mem_usedNames name).mp htext), rfl⟩
    · rintro ⟨name, hname, rfl⟩
      exact (h.mem_usedNames name).mpr (Finset.mem_toList.mp hname)
  rw [linesLength, (hperm.map _).sum_eq, List.map_map, Finset.sum_map_toList]
  rfl

end

/-- Two files of one letter each. -/
def twoFiles : List Call := [.create nameA, .create nameB]

/-- Five bytes hold both lines and the NUL; in four there is one line only. -/
theorem list_shows_two :
    ∃ s, Visited nullPrimitives 200 s ∧
      (∀ name ∈ [nameA, nameB],
        (linesOf 10 ((Call.list true 5).prog.run (fsDisk nullPrimitives) s).1.bytes.dropLast).count
        name.val = 1) ∧
      ∃ name ∈ [nameA, nameB],
        (linesOf 10 ((Call.list true 4).prog.run (fsDisk nullPrimitives) s).1.bytes.dropLast).count
        name.val ≠ 1 := by
  obtain ⟨s₀, -, hreached⟩ := reached_boot nullPrimitives
  have htwo : (Files.run twoFiles (Files.empty 71)).2.names = {nameA, nameB} := by decide
  have h := Reached.calls twoFiles hreached ⟨trivial, trivial, trivial⟩
  have hlines := h.linesLength_usedNames
  rw [htwo, Finset.sum_pair (by decide)] at hlines
  have hexists : ∀ name, fileExists nullPrimitives (runCalls (fsDisk nullPrimitives) twoFiles s₀).2 name ↔
      name ∈ [nameA, nameB] := by
    intro name
    rw [h.visited.exists_iff, h.mem_usedNames, htwo]
    simp
  obtain ⟨-, hfive⟩ := list_shows h.visited (show 1 ≤ 5 by omega)
  obtain ⟨-, hfour⟩ := list_shows h.visited (show 1 ≤ 4 by omega)
  rw [hlines] at hfive hfour
  refine ⟨_, h.visited, fun name hname => hfive.mpr (by decide) name ((hexists name).mpr hname), ?_⟩
  obtain ⟨name, hname⟩ := not_forall.mp (mt hfour.mp (by decide))
  obtain ⟨hyes, hcount⟩ := Classical.not_imp.mp hname
  exact ⟨name, (hexists name).mp hyes, hcount⟩

/-! ## A full listing -/

/-- Names of 47 characters that differ in the first two. -/
def longName (i : Nat) : CStr :=
  ⟨BitVec.ofNat 8 (0x61 + i / 16 % 16) :: BitVec.ofNat 8 (0x61 + i % 16) :: List.replicate 45 0x61, by
    intro hmem
    rcases List.mem_cons.mp hmem with h | hmem
    · have := congrArg BitVec.toNat h
      simp only [BitVec.toNat_ofNat] at this
      omega
    · rcases List.mem_cons.mp hmem with h | hmem
      · have := congrArg BitVec.toNat h
        simp only [BitVec.toNat_ofNat] at this
        omega
      · cases List.eq_of_mem_replicate hmem⟩

theorem length_longName (i : Nat) : (longName i).val.length = 47 := rfl

theorem longName_inj {i j : Nat} (hi : i < 256) (hj : j < 256) (h : longName i = longName j) : i = j := by
  have hval := congrArg Subtype.val h
  obtain ⟨h0, hrest⟩ := List.cons.inj hval
  obtain ⟨h1, -⟩ := List.cons.inj hrest
  have e0 := congrArg BitVec.toNat h0
  have e1 := congrArg BitVec.toNat h1
  simp only [BitVec.toNat_ofNat] at e0 e1
  omega

theorem longName_valid (i : Nat) : validName (longName i) = true := by
  have hletter : ∀ k < 16, (!(BitVec.ofNat 8 (0x61 + k) == 0x2F#8 || BitVec.ofNat 8 (0x61 + k) == 0x5C#8 ||
      BitVec.ofNat 8 (0x61 + k) == 0x0A#8 || BitVec.ofNat 8 (0x61 + k) == 0x0D#8)) = true := by decide
  unfold validName
  rw [if_neg (by rw [strLen, length_longName]; decide), longName, List.all_cons, List.all_cons,
    hletter _ (Nat.mod_lt _ (by omega)), hletter _ (Nat.mod_lt _ (by omega)), Bool.true_and, Bool.true_and]
  decide

theorem nodup_longNames : ((List.range 86).map longName).Nodup :=
  List.Nodup.map_on (fun i hi j hj h => longName_inj (by have := List.mem_range.mp hi; omega)
    (by have := List.mem_range.mp hj; omega) h) List.nodup_range

/-- Creating files of new names, as long as there are inodes. -/
theorem Files.run_creates {names : List CStr} {a : Files} (hnodup : names.Nodup)
    (hvalid : ∀ n ∈ names, validName n = true) (hnew : ∀ n ∈ names, n ∉ a.names)
    (hroom : a.names.card + names.length ≤ 127) :
    PermitsAll (names.map .create) a ∧ ∀ n, n ∈ names ∨ n ∈ a.names → n ∈ (run (names.map .create) a).2.names := by
  induction names generalizing a with
  | nil => exact ⟨trivial, fun n hn => hn.resolve_left List.not_mem_nil⟩
  | cons name names ih =>
    rw [List.length_cons] at hroom
    have hname := hnew name List.mem_cons_self
    have hcreate : (a.create name).2.names = insert name a.names := by
      unfold create
      rw [dif_pos ⟨hvalid name List.mem_cons_self, hname, by omega⟩]
    obtain ⟨hperm, hall⟩ := @ih (a.create name).2 (List.nodup_cons.mp hnodup).2
      (fun n hn => hvalid n (List.mem_cons_of_mem _ hn))
      (fun n hn => by
        rw [hcreate, Finset.mem_insert, not_or]
        refine ⟨?_, hnew n (List.mem_cons_of_mem _ hn)⟩
        rintro rfl
        exact (List.nodup_cons.mp hnodup).1 hn)
      (by rw [hcreate, Finset.card_insert_of_notMem hname]; omega)
    refine ⟨⟨trivial, hperm⟩, fun n hn => hall n ?_⟩
    rw [hcreate, Finset.mem_insert]
    rcases hn with hn | hn
    · rcases List.mem_cons.mp hn with rfl | hn
      · exact .inr (.inl rfl)
      · exact .inl hn
    · exact .inr (.inr hn)

/-- The lines of 86 such files. -/
theorem sum_longNames {names : Finset CStr} (h : ∀ i < 86, longName i ∈ names) :
    86 * 48 ≤ ∑ name ∈ names, (name.val.length + 1) := by
  have hinj : Set.InjOn longName (Finset.range 86) := fun i hi j hj heq =>
    longName_inj (by have := Finset.mem_range.mp hi; omega) (by have := Finset.mem_range.mp hj; omega) heq
  calc 86 * 48 = ∑ name ∈ (Finset.range 86).image longName, (name.val.length + 1) := by
        rw [Finset.sum_image hinj, Finset.sum_congr rfl fun i _ => by rw [length_longName i], Finset.sum_const,
          Finset.card_range, smul_eq_mul]
    _ ≤ _ := Finset.sum_le_sum_of_subset fun name hname => by
        obtain ⟨i, hi, rfl⟩ := Finset.mem_image.mp hname
        exact h i (Finset.mem_range.mp hi)

/-- 86 files with names of 47 characters: `ls` leaves one out. -/
theorem ls_cut : ∃ s name, Visited nullPrimitives 200 s ∧ fileExists nullPrimitives s name ∧
    name.val ∉ linesOf 10 ((Call.list true 4096).prog.run (fsDisk nullPrimitives) s).1.bytes.dropLast := by
  obtain ⟨s₀, -, hreached⟩ := reached_boot nullPrimitives
  have hempty : (Files.empty 71).names = ∅ := rfl
  obtain ⟨hperm, hnames⟩ := @Files.run_creates ((List.range 86).map longName) (Files.empty 71) nodup_longNames
    (fun n hn => by obtain ⟨i, -, rfl⟩ := List.mem_map.mp hn; exact longName_valid i)
    (fun n _ => by rw [hempty]; exact Finset.notMem_empty n)
    (by rw [hempty, Finset.card_empty, List.length_map, List.length_range]; omega)
  have hmore := Reached.calls _ hreached hperm
  generalize (Files.run (((List.range 86).map longName).map .create) (Files.empty 71)).2 = a at hmore hnames
  generalize (runCalls (fsDisk nullPrimitives) (((List.range 86).map longName).map .create) s₀).2 = s at hmore
  have hvisited := hmore.visited
  have hlong := sum_longNames fun i hi => hnames (longName i) (.inl (List.mem_map_of_mem (List.mem_range.mpr hi)))
  rw [← hmore.linesLength_usedNames] at hlong
  have hnot := mt (hvisited.shows_all_iff (show 1 ≤ 4096 by omega)).mp
    (Nat.not_lt.mpr (le_trans (show 4096 ≤ 86 * 48 by omega) hlong))
  obtain ⟨name, hname⟩ := not_forall.mp hnot
  obtain ⟨hexists, hcount⟩ := Classical.not_imp.mp hname
  refine ⟨s, name, hvisited, hexists, fun hin => hcount ?_⟩
  rw [(hvisited.list_run (show 1 ≤ 4096 by omega)).2] at hin
  obtain ⟨rest, hsplit, -⟩ := @fitting_split 4096 0 (usedNames (logicalDisk nullPrimitives s.dev))
  have hnodup := nodup_usedNames hvisited.healthy.working.linked.toPaired
  rw [hsplit] at hnodup
  exact List.count_eq_one_of_mem (List.Nodup.of_append_left hnodup) hin

end SpectreOS
