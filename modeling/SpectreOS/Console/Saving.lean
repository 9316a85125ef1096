/-
A file that is opened in the editor and saved without an edit (nano.c): what `buffer_load` reads
of it, what `buffer_save` makes of the lines, the filesystem calls of both, and when the file is
the same afterwards. `buffer_load` cuts long lines and drops those that do not fit, and takes a
file that it cannot open for an empty one.
-/
import SpectreOS.Console.Editor
import SpectreOS.Fs.Contract
import SpectreOS.Fs.Stored
import Mathlib.Data.List.TakeWhile

namespace SpectreOS

open BlockIO Prog LineEditor

/-! ## The file calls -/

/-- The bytes before the first NUL. -/
def cStr (t : List Byte) : CStr :=
  ⟨t.takeWhile (· != 0), fun h => by simpa using List.all_eq_true.1 (List.all_takeWhile (p := (· != 0)) (l := t)) 0 h⟩

/-- The file calls of `buffer_load`: the bytes of the file, none if it cannot be read. -/
def bufferRead (filename : CStr) : FsM (List Byte) := do
  let fd ← fsOpen filename
  if fd < 0 then pure []
  else
    let (n, raw) ← fsRead fd true fsMaxFileSize
    let _ ← fsClose fd
    pure (if n ≤ 0 then [] else raw)

/-- The file calls of `buffer_save`. -/
def bufferReplace (filename : CStr) (raw : List Byte) : FsM Bool := do
  let existing ← fsExists filename
  let cleared ← if existing = 0 then pure 1 else fsDelete filename
  if cleared = 0 then pure false
  else
    let created ← fsCreate filename
    if created = 0 then pure false
    else
      let fd ← fsOpen filename
      if fd < 0 then pure false
      else
        let result ← fsWrite fd (some raw)
        let _ ← fsClose fd
        pure (decide (result = raw.length))

/-- The editor's files are those of the filesystem. -/
def nanoServices {δ : Type} (D : Device δ Sector) (S : Services (Conf FsMem δ)) : Services (Conf FsMem δ) :=
  { S with
    readFile := fun name w => (bufferRead (cStr name)).run D w
    replaceFile := fun name raw w => (bufferReplace (cStr name) raw).run D w }

/-- `nano_open`. -/
def Console.nanoOpen {ω : Type} (S : Services ω) (c : Console ω) (filename : List Byte) : Console ω :=
  let nano := c.nano.openName filename
  let (raw, world) := S.readFile nano.currentFilename.text c.world
  { c with nano := nano.nanoOpen raw, world }

theorem cStr_val (name : CStr) : cStr name.val = name := by
  apply Subtype.ext
  refine List.takeWhile_eq_self_iff.2 fun c hc => ?_
  have : c ≠ 0 := by
    rintro rfl
    exact name.2 hc
  simpa using this

/-! ## The text -/

/-- A file ends in a newline after it is saved. -/
def ended (raw : List Byte) : List Byte := if raw.getLast? = some 10 then raw else raw ++ [10]

/-- What is saved of a file. -/
def cut (raw : List Byte) : List Byte := unlines 10 (Editor.load raw).buffer.lines

theorem newline_notMem_textLines {raw l : List Byte} (h : l ∈ textLines raw) : (10 : Byte) ∉ l := by
  rw [textLines] at h
  split at h
  · rw [List.mem_singleton.1 h]
    exact List.not_mem_nil
  · exact newline_notMem_linesOf h

theorem unlines_textLines (raw : List Byte) : unlines 10 (textLines raw) = ended raw := by
  rw [textLines, ended]
  by_cases h : raw = []
  · subst h
    rfl
  · rw [if_neg fun hl => h (linesOf_eq_nil.1 hl), unlines_linesOf h]

theorem newline_notMem_loaded {raw l : List Byte} (h : l ∈ (Editor.load raw).buffer.lines) : (10 : Byte) ∉ l := by
  obtain ⟨l', hl', rfl⟩ := List.mem_map.1 (List.mem_of_mem_take h)
  exact fun hmem => newline_notMem_textLines hl' (List.mem_of_mem_take hmem)

/-- All of a file is saved exactly if its lines fit into the grid. -/
theorem cut_eq_iff (raw : List Byte) :
    cut raw = ended raw ↔ (textLines raw).length ≤ nanoMaxLines ∧ ∀ l ∈ textLines raw, l.length ≤ nanoMaxLineLen := by
  constructor
  · intro h
    -- texts without newlines in their lines have these lines only
    have hlines := congrArg (linesOf 10) (h.trans (unlines_textLines raw).symm)
    rw [cut, linesOf_unlines fun _ => newline_notMem_loaded,
      linesOf_unlines fun _ => newline_notMem_textLines] at hlines
    constructor
    · rw [← hlines]
      exact (Grid.load_valid raw).count
    · intro l hl
      rw [← hlines] at hl
      exact (Grid.load_valid raw).width l hl
  · rintro ⟨hcount, hwidth⟩
    have hmap : (textLines raw).map (List.take nanoMaxLineLen) = textLines raw := by
      refine (List.map_congr_left fun l hl => ?_).trans (List.map_id _)
      exact List.take_of_length_le (hwidth l hl)
    rw [cut, Editor.load, hmap, List.take_of_length_le hcount, unlines_textLines]

theorem length_unlines_le {ls ls' : List (List Byte)} (h : List.Forall₂ (fun l l' => l.length ≤ l'.length) ls ls') :
    (unlines (10 : Byte) ls).length ≤ (unlines (10 : Byte) ls').length := by
  induction h with
  | nil => exact le_refl _
  | cons hl _ ih =>
    rw [unlines_cons, unlines_cons, List.length_append, List.length_append, List.length_cons, List.length_cons]
    omega

theorem length_unlines_take (n : Nat) (ls : List (List Byte)) :
    (unlines (10 : Byte) (ls.take n)).length ≤ (unlines (10 : Byte) ls).length := by
  have h : unlines (10 : Byte) ls = unlines 10 (ls.take n) ++ unlines 10 (ls.drop n) := by
    rw [unlines, unlines, unlines, ← List.flatMap_append, List.take_append_drop]
  rw [h, List.length_append]
  exact Nat.le_add_right _ _

/-- Saving makes no file longer, but for the newline. -/
theorem length_cut_le (raw : List Byte) : (cut raw).length ≤ (ended raw).length := by
  rw [cut, ← unlines_textLines]
  refine le_trans (length_unlines_take _ _) (length_unlines_le ?_)
  rw [List.forall₂_map_left_iff, List.forall₂_same]
  intro l _
  rw [List.length_take]
  exact Nat.min_le_right _ _

/-- The grid is small enough for every file. -/
theorem length_unlines_grid {ls : List (List Byte)} {n : Nat} (hcount : ls.length ≤ n)
    (hwidth : ∀ l ∈ ls, l.length ≤ nanoMaxLineLen) : (unlines (10 : Byte) ls).length ≤ n * (nanoMaxLineLen + 1) := by
  induction ls generalizing n with
  | nil => exact Nat.zero_le _
  | cons l ls ih =>
    rw [List.length_cons] at hcount
    obtain ⟨n, rfl⟩ : ∃ k, n = k + 1 := ⟨n - 1, by omega⟩
    have hl := hwidth l List.mem_cons_self
    have hls := ih (Nat.le_of_succ_le_succ hcount) fun l' hl' => hwidth l' (List.mem_cons_of_mem _ hl')
    rw [unlines_cons, List.length_append, List.length_cons]
    simp only [nanoMaxLineLen] at *
    omega

theorem length_cut_max (raw : List Byte) : (cut raw).length ≤ 16000 :=
  length_unlines_grid (Grid.load_valid raw).count (Grid.load_valid raw).width

namespace Grid

variable {g : Grid}

/-- No line is left out for the size of the file. -/
theorem saveLines_eq (hlen : ∀ i < g.lineCount, g.lineLength i ≤ nanoMaxLineLen) (hcount : g.lineCount ≤ nanoMaxLines)
    {fuel i written : Nat} (hi : i + fuel = g.lineCount) (hw : written ≤ i * (nanoMaxLineLen + 1)) :
    g.saveLines fuel i written = unlines 10 ((List.range' i fuel).map g.line) := by
  induction fuel generalizing i written with
  | zero => rfl
  | succ fuel ih =>
    have hline := hlen i (by omega)
    have hroom : ¬ fsMaxFileSize < written + g.lineLength i + 1 := by
      simp only [fsMaxFileSize, nanoMaxLines, nanoMaxLineLen] at *
      omega
    rw [saveLines, if_neg hroom, List.range'_succ, List.map_cons, unlines_cons, ih (by omega)]
    · rfl
    · simp only [nanoMaxLineLen] at *
      omega

theorem bufferSave_eq (h : g.Valid) : g.bufferSave = unlines 10 g.buffer.lines := by
  have hcount := h.count
  rw [buffer_length] at hcount
  rw [bufferSave, saveLines_eq (fun i hi => h.lineLength_le hi) hcount (Nat.zero_add _) (Nat.zero_le _)]
  rw [buffer, firsts, List.range_eq_range']

end Grid

end SpectreOS
