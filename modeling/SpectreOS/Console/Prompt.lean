/-
The save prompt of the editor (nano.c) against a line editor of 47 characters that starts with the
file name. Backspace and the cursor keys work as they should, but `nano_keyboard_character` returns
while the prompt is open, so a character that fits is lost.
-/
import SpectreOS.Console.Editor
import SpectreOS.Lib.Line

namespace SpectreOS

open BlockIO LineEditor

/-! ## Keys -/

/-- The keys that edit the name. -/
inductive PromptKey where
  | character (c : Byte) (printable : 0x20 ≤ c.toNat ∧ c.toNat ≤ 0x7E)
  | backspace
  | left
  | right
  | home
  | end

/-- The handler of a key. -/
def Nano.promptKey (n : Nano) : PromptKey → Nano
  | .character c _ => n.nanoKeyboardCharacter c
  | .backspace => n.nanoKeyboardBackspace
  | .left => n.nanoKeyboardLeft
  | .right => n.nanoKeyboardRight
  | .home => n.nanoKeyboardHome
  | .end => n.nanoKeyboardEnd

def Nano.promptKeys (n : Nano) (keys : List PromptKey) : Nano := keys.foldl Nano.promptKey n

/-- The name as it is edited. -/
abbrev NameLine : Type := Line Byte (nanoFilenameLen - 1)

/-- What a key does to the name. -/
def pressName (l : NameLine) : PromptKey → NameLine
  | .character c _ => l.insert c
  | .backspace => l.backspace
  | .left => l.left
  | .right => l.right
  | .home => l.home
  | .end => l.toEnd

/-- The name edited from the current file name on, with the cursor at its end. -/
def editedName (n : Nano) (keys : List PromptKey) : NameLine :=
  keys.foldl pressName (Line.ofText n.currentFilename.text)

/-- Two grids with the same text and cursor. -/
def Grid.SameText (g g' : Grid) : Prop :=
  g'.lines = g.lines ∧ g'.lineLength = g.lineLength ∧ g'.lineCount = g.lineCount ∧ g'.cursorLine = g.cursorLine ∧
    g'.cursorCol = g.cursorCol ∧ g'.dirty = g.dirty

/-- After some keys in the prompt the name, its cursor and their bounds are those of the line editor,
the text is as it was, and Enter saves it under the name. An empty prompt stands for the current
name. -/
def PromptEdits {ω : Type} (S : Services ω) (c : Console ω) (keys : List PromptKey) : Prop :=
  let n := (c.nano.nanoKeyboardCtrl 0x6f).promptKeys keys
  let name := editedName c.nano keys
  firsts (n.promptBuffer.slice 0) n.promptLength = name.text ∧ n.promptCursor = name.cursor ∧
    n.promptCursor ≤ n.promptLength ∧ n.promptLength ≤ 47 ∧ c.nano.grid.SameText n.grid ∧
    (Console.nanoKeyboardEnter S { c with nano := n }).world =
      (S.replaceFile (if name.text = [] then c.nano.currentFilename.text else name.text) c.nano.grid.bufferSave
        c.world).2

/-! ## The prompt -/

/-- The open prompt shows a name, over the text and the file name of before. -/
structure Prompting (before n : Nano) (l : NameLine) : Prop where
  active : n.active = true
  prompting : n.promptActive = true
  name : n.currentFilename = before.currentFilename
  shown : l.ShownBy (n.promptBuffer.slice 0) n.promptLength n.promptCursor
  nonzero : (0 : Byte) ∉ l.text
  sameText : before.grid.SameText n.grid

theorem Grid.SameText.refl (g : Grid) : g.SameText g := ⟨rfl, rfl, rfl, rfl, rfl, rfl⟩

theorem Grid.SameText.visible {g g' : Grid} (h : g.SameText g') : g.SameText g'.ensureCursorVisible := by
  unfold Grid.ensureCursorVisible
  split
  · exact h
  · split
    · exact h
    · exact h

theorem Grid.SameText.bufferSave {g g' : Grid} (h : g.SameText g') : g'.bufferSave = g.bufferSave := by
  obtain ⟨hlines, hlength, hcount, -⟩ := h
  have hfrom : ∀ fuel i written, g'.saveLines fuel i written = g.saveLines fuel i written := by
    intro fuel
    induction fuel with
    | zero => intro i written; rfl
    | succ fuel ih =>
      intro i written
      rw [saveLines, saveLines, hlines, hlength, ih]
  unfold Grid.bufferSave
  rw [hcount, hfrom]

section

variable {before n : Nano} {l : NameLine}

/-- Ctrl+O opens the prompt on the current file name. -/
theorem prompting_open (hactive : n.active = true) (hclosed : n.promptActive = false) :
    Prompting n (n.nanoKeyboardCtrl 0x6f) (Line.ofText n.currentFilename.text) := by
  obtain ⟨t, ht⟩ : ∃ t, t = n.currentFilename.text.take (nanoFilenameLen - 1) := ⟨_, rfl⟩
  have hlen : t.length ≤ 47 := by
    rw [ht]
    exact List.length_take_le ..
  have h0 : (0 : Byte) ∉ t := by
    rw [ht]
    exact fun h => n.currentFilename.zero_notMem_text (List.mem_of_mem_take h)
  have htext : (n.promptBuffer.store t).text = t := Block.text_store _ h0 (Nat.lt_succ_of_le hlen)
  have hline : (Line.ofText n.currentFilename.text : NameLine) = Line.ofText t := by
    unfold Line.ofText
    simp only [ht, List.take_take, Nat.min_self]
  have hopen : n.nanoKeyboardCtrl 0x6f =
      { n with
        promptActive := true, promptBuffer := n.promptBuffer.store t, promptLength := t.length
        promptCursor := t.length, grid := n.grid.ensureCursorVisible } := by
    unfold Nano.nanoKeyboardCtrl
    rw [if_neg (by rw [hactive]; decide), if_pos rfl, if_neg (by rw [hclosed]; decide), ← ht]
    simp only [htext]
  rw [hopen, hline]
  constructor
  · exact hactive
  · rfl
  · rfl
  · exact Line.shownBy_ofText hlen (row_store _ (Nat.le_succ_of_le hlen))
  · exact fun h => h0 (List.mem_of_mem_take h)
  · exact (Grid.SameText.refl n.grid).visible

/-- A key of the prompt that is handled there. -/
theorem Prompting.promptOr (h : Prompting before n l) (prompt : Nano → Nano) (f : Grid → Grid) :
    n.promptOr prompt f = prompt n := by
  unfold Nano.promptOr
  rw [h.active, h.prompting]
  rfl

theorem Prompting.to (h : Prompting before n l) {i : Nat} {l' : NameLine} (htext : l'.text = l.text)
    (hi : l'.ShownBy (n.promptBuffer.slice 0) n.promptLength i) : Prompting before (n.promptTo i) l' :=
  ⟨h.active, h.prompting, h.name, hi, by rw [htext]; exact h.nonzero, h.sameText.visible⟩

/-- While it is open the prompt takes no character. -/
theorem character_lost (h : n.promptActive = true) (c : Byte) : n.nanoKeyboardCharacter c = n := by
  unfold Nano.nanoKeyboardCharacter Nano.edit
  rw [if_pos (.inr h)]

theorem promptOr_prompting (h : n.promptActive = true) {prompt : Nano → Nano}
    (hp : KeepsText prompt) (f : Grid → Grid) :
    (n.promptOr prompt f).promptActive = true := by
  obtain ⟨-, -, hkeep, -⟩ := hp n
  unfold Nano.promptOr
  rw [if_pos h]
  split
  · exact h
  · exact hkeep.trans h

/-- None of the keys closes the prompt. -/
theorem promptKey_prompting (h : n.promptActive = true) (key : PromptKey) : (n.promptKey key).promptActive = true := by
  cases key with
  | character c printable =>
    rw [Nano.promptKey, character_lost h]
    exact h
  | backspace => exact promptOr_prompting h keepsText_backspace _
  | left => exact promptOr_prompting h (keepsText_promptTo (fun n => 0 < n.promptCursor) _) _
  | right => exact promptOr_prompting h (keepsText_promptTo (fun n => n.promptCursor < n.promptLength) _) _
  | home => exact promptOr_prompting h (keepsText_move fun _ => 0) _
  | «end» => exact promptOr_prompting h (keepsText_move fun n => n.promptLength) _

theorem promptKeys_prompting (h : n.promptActive = true) (keys : List PromptKey) :
    (n.promptKeys keys).promptActive = true := by
  induction keys generalizing n with
  | nil => exact h
  | cons key keys ih => exact ih (promptKey_prompting h key)

theorem Prompting.backspace (h : Prompting before n l) : Prompting before n.nanoKeyboardBackspace l.backspace := by
  unfold Nano.nanoKeyboardBackspace
  rw [h.promptOr, Nano.promptBackspace]
  have hcap : n.promptLength ≤ 47 := h.shown.le_cap
  have hle := h.shown.le
  have hnonzero : (0 : Byte) ∉ l.backspace.text := fun h0 => h.nonzero (Line.mem_backspace h0)
  split
  · rename_i hpos
    have hrow := @row_erase _ n.promptBuffer n.promptLength (n.promptCursor - 1) (by omega) (Nat.lt_succ_of_le hcap)
    rw [show n.promptLength - 1 - (n.promptCursor - 1) = n.promptLength - n.promptCursor by omega,
      Nat.sub_add_cancel hpos] at hrow
    exact ⟨h.active, h.prompting, h.name, h.shown.backspace hpos hrow, hnonzero, h.sameText.visible⟩
  · rename_i hzero
    have hcur : n.promptCursor = 0 := by omega
    have hshown := h.shown
    rw [hcur] at hshown
    exact ⟨h.active, h.prompting, h.name, hcur ▸ hshown.backspace_start, hnonzero, h.sameText⟩

/-- Every key but a character that fits does its work. -/
theorem Prompting.step (h : Prompting before n l) (key : PromptKey)
    (hkey : ∀ c printable, key = .character c printable → l.text.length = nanoFilenameLen - 1) :
    Prompting before (n.promptKey key) (pressName l key) := by
  cases key with
  | character c printable =>
    have hfull := hkey c printable rfl
    rw [Nano.promptKey, pressName, character_lost h.prompting, Line.insert_full (by omega)]
    exact h
  | backspace => exact h.backspace
  | left =>
    rw [Nano.promptKey, pressName, Nano.nanoKeyboardLeft, h.promptOr]
    split
    · exact h.to rfl h.shown.left
    · rename_i hzero
      have hleft := h.shown.left
      rw [show n.promptCursor - 1 = n.promptCursor by omega] at hleft
      exact ⟨h.active, h.prompting, h.name, hleft, h.nonzero, h.sameText⟩
  | right =>
    have hle := h.shown.le
    have hright := h.shown.right
    rw [Nano.promptKey, pressName, Nano.nanoKeyboardRight, h.promptOr]
    split
    · rename_i hlt
      rw [Nat.min_eq_left hlt] at hright
      exact h.to rfl hright
    · rename_i hend
      rw [show min (n.promptCursor + 1) n.promptLength = n.promptCursor by omega] at hright
      exact ⟨h.active, h.prompting, h.name, hright, h.nonzero, h.sameText⟩
  | home =>
    rw [Nano.promptKey, pressName, Nano.nanoKeyboardHome, h.promptOr]
    exact h.to rfl h.shown.home
  | «end» =>
    rw [Nano.promptKey, pressName, Nano.nanoKeyboardEnd, h.promptOr]
    exact h.to rfl h.shown.toEnd

/-- Enter saves the text under the name that is shown. -/
theorem Prompting.enter {ω : Type} (S : Services ω) {c : Console ω} (h : Prompting before c.nano l) :
    (c.nanoKeyboardEnter S).world =
      (S.replaceFile (if l.text = [] then before.currentFilename.text
        else l.text) before.grid.bufferSave c.world).2 := by
  have hcap : c.nano.promptLength ≤ 47 := h.shown.le_cap
  have hlen := h.shown.length
  have hrow : (c.nano.promptBuffer.setByte c.nano.promptLength 0).text = l.text := by
    rw [text_row _ (Nat.lt_succ_of_le hcap) (by rw [h.shown.text]; exact h.nonzero), h.shown.text]
  have hname : c.nano.promptEnter.currentFilename.text =
      if l.text = [] then before.currentFilename.text else l.text := by
    rw [Nano.promptEnter]
    simp only [hrow, List.take_of_length_le l.fits]
    by_cases hnil : l.text = []
    · rw [if_pos hnil, if_neg (by rw [← hlen, hnil]; simp), h.name]
    · rw [if_neg hnil, if_pos (by rw [← hlen]; exact List.length_pos_iff.mpr hnil)]
      exact Block.text_store _ h.nonzero (Nat.lt_succ_of_le l.fits)
  unfold Console.nanoKeyboardEnter
  rw [if_neg (by rw [h.active]; decide), if_pos h.prompting]
  simp only [hname]
  rw [show c.nano.promptEnter.grid.bufferSave = before.grid.bufferSave from h.sameText.bufferSave]

end

/-! ## Runs -/

/-- The characters of a sequence of keys all come while the name is full. -/
def NoRoom (n : Nano) (keys : List PromptKey) : Prop :=
  ∀ before c printable after, keys = before ++ .character c printable :: after → (editedName n before).text.length = 47

theorem editedName_append (n : Nano) (keys : List PromptKey) (key : PromptKey) :
    editedName n (keys ++ [key]) = pressName (editedName n keys) key := by
  rw [editedName, List.foldl_append]
  rfl

theorem promptKeys_append (n : Nano) (keys : List PromptKey) (key : PromptKey) :
    n.promptKeys (keys ++ [key]) = (n.promptKeys keys).promptKey key := by
  rw [Nano.promptKeys, List.foldl_append]
  rfl

theorem prompting_run {n : Nano} (hactive : n.active = true) (hclosed : n.promptActive = false) {keys : List PromptKey}
    (hkeys : NoRoom n keys) : Prompting n ((n.nanoKeyboardCtrl 0x6f).promptKeys keys) (editedName n keys) := by
  induction keys using List.reverseRecOn with
  | nil => exact prompting_open hactive hclosed
  | append_singleton keys key ih =>
    rw [promptKeys_append, editedName_append]
    have hbefore : NoRoom n keys := by
      intro before c printable after heq
      exact hkeys before c printable (after ++ [key]) (by rw [heq, List.append_assoc]; rfl)
    refine (ih hbefore).step key fun c printable hchar => ?_
    exact hkeys keys c printable [] (by rw [hchar])

/-- Once Ctrl+O has opened the save prompt it is a line editor of 47 characters after every key of a
sequence, and Enter saves under the edited name, exactly if every character of the sequence is typed
while the name is full. -/
theorem prompt_edits {ω : Type} (S : Services ω) (c : Console ω) (hactive : c.nano.active = true)
    (hclosed : c.nano.promptActive = false) (keys : List PromptKey) :
    (∀ typed, typed <+: keys → PromptEdits S c typed) ↔ NoRoom c.nano keys := by
  constructor
  · intro hall before ch printable after heq
    have hfits := (editedName c.nano before).fits
    by_contra hroom
    obtain ⟨hshown, hcursor, hle, hcap, -⟩ := hall before ⟨_, heq.symm⟩
    obtain ⟨hshown', -⟩ := hall (before ++ [.character ch printable]) ⟨after, by rw [heq, List.append_assoc]; rfl⟩
    -- the prompt still shows the name from before the character
    have hlost : ((c.nano.nanoKeyboardCtrl 0x6f).promptKeys before).nanoKeyboardCharacter ch =
        (c.nano.nanoKeyboardCtrl 0x6f).promptKeys before :=
      character_lost (promptKeys_prompting (prompting_open hactive hclosed).prompting before) ch
    rw [promptKeys_append, editedName_append, Nano.promptKey, hlost, hshown] at hshown'
    have hlt : (editedName c.nano before).text.length < nanoFilenameLen - 1 :=
      lt_of_le_of_ne hfits hroom
    have hlen := congrArg List.length hshown'
    rw [pressName, Line.insert, dif_pos hlt] at hlen
    simp only [List.length_insertIdx_of_le_length (editedName c.nano before).inside] at hlen
    omega
  · intro hkeys typed htyped
    obtain ⟨rest, rfl⟩ := htyped
    have htyped : NoRoom c.nano typed := by
      intro before ch printable after heq
      exact hkeys before ch printable (after ++ rest) (by rw [heq, List.append_assoc]; rfl)
    have h := prompting_run hactive hclosed htyped
    exact ⟨h.shown.text, h.shown.cursor, h.shown.le, h.shown.le_cap, h.sameText,
      @Prompting.enter c.nano _ ω S { c with nano := (c.nano.nanoKeyboardCtrl 0x6f).promptKeys typed } h⟩

/-- Services under which a save leaves the name it was made under. -/
def nameRecorder : Services (List Byte) where
  pbkdf2HmacSha256 _ _ := fun _ => 0
  rngGetBytes w := (fun _ => 0, w)
  readDatabase w := (none, w)
  authDbSave _ w := w
  identityGenerate _ w := w
  readFile _ w := ([], w)
  replaceFile name _ _ := (true, name)
  command _ w := w

/-- The editor on the file "ab". -/
def consoleOnAb : Console (List Byte) :=
  let c := consoleBoot ⟨0, 0, fun _ => ⟨fun _ => 0, fun _ => 0, fun _ => 0, 0⟩⟩ []
  { c with nano := { blankNano with active := true, currentFilename := Block.store (fun _ => 0) [0x61, 0x62] } }

/-- In the prompt for "ab", left and backspace leave "b" to save under. -/
theorem prompt_edits_ab : PromptEdits nameRecorder consoleOnAb [.left, .backspace] := by
  refine (prompt_edits nameRecorder consoleOnAb rfl rfl [.left, .backspace]).mpr ?_ _ (List.prefix_refl _)
  intro before c printable after heq
  rcases before with - | ⟨a, - | ⟨b, rest⟩⟩ <;> simp at heq

/-- A "c" typed in the prompt for "ab" is lost: the file is saved under "ab" and not under "abc". -/
theorem prompt_drops_character :
    (Console.nanoKeyboardEnter nameRecorder { consoleOnAb with
      nano := (consoleOnAb.nano.nanoKeyboardCtrl 0x6f).promptKeys [.character 0x63 (by decide)] }).world =
      [0x61, 0x62] ∧
      (editedName consoleOnAb.nano [.character 0x63 (by decide)]).text = [0x61, 0x62, 0x63] ∧
      ¬ PromptEdits nameRecorder consoleOnAb [.character 0x63 (by decide)] := by
  refine ⟨by decide, by decide, ?_⟩
  rintro ⟨hshown, -⟩
  revert hshown
  decide

end SpectreOS
