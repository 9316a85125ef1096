/-
Saving in the editor (nano.c): `buffer_save` deletes the file of the name and writes a new one. What
is saved is loaded again line by line, as long as no request fails; and when the save fails, the old
contents are lost unless the part of the new ones that was written happens to be the same.
-/
import SpectreOS.Console.Accounts
import SpectreOS.Console.Saving
import SpectreOS.Fs.Bijection
import SpectreOS.Fs.Visited

namespace SpectreOS

open BlockIO Prog LineEditor

/-! ## The text -/

namespace Editor

/-- No line of the text has a newline in it. -/
theorem press_all {e : Editor} (h : e.buffer.All (· ≠ 10)) (key : Key) : (e.press key).buffer.All (· ≠ 10) := by
  have hedit : ∀ f : Buffer Byte → Buffer Byte, (f e.buffer).All (· ≠ 10) → (e.edit f).buffer.All (· ≠ 10) := by
    intro f hf
    rw [edit]
    split
    · exact h
    · exact hf
  cases key with
  | character c =>
    refine hedit _ ?_
    by_cases ht : typed c = true
    · rw [if_pos ht]
      refine h.insert ?_
      rintro rfl
      exact absurd ht (by decide)
    · rw [if_neg ht]
      exact h
  | enter =>
    rw [press]
    split
    · exact h
    · exact hedit _ h.split
  | backspace => exact hedit _ h.backspace
  | delete => exact hedit _ h.delete
  | left => exact hedit _ h.left
  | right => exact hedit _ h.right
  | up => exact hedit _ h.up
  | down => exact hedit _ h.down
  | home => exact hedit _ h
  | «end» => exact hedit _ h
  | ctrl letter =>
    rw [press]
    split_ifs <;> exact h

theorem edited_all (raw : List Byte) (keys : List Key) :
    (keys.foldl press (load raw)).buffer.All (· ≠ 10) := by
  have hload : (load raw).buffer.All (· ≠ 10) := by
    rintro l hl c hc rfl
    exact newline_notMem_loaded hl hc
  generalize load raw = e at hload
  induction keys generalizing e with
  | nil => exact hload
  | cons key keys ih => exact ih _ (press_all hload key)

/-- A text within the limits is loaded as it was saved. -/
theorem load_unlines {b : Buffer Byte} (h : b.Valid nanoMaxLines nanoMaxLineLen) (hall : b.All (· ≠ 10)) :
    (load (unlines 10 b.lines)).buffer.lines = b.lines := by
  have hlines : linesOf 10 (unlines 10 b.lines) = b.lines := linesOf_unlines fun l hl hmem => hall l hl 10 hmem rfl
  have hne : b.lines ≠ [] := List.length_pos_iff.1 (Nat.zero_lt_of_lt h.row)
  have hmap : b.lines.map (List.take nanoMaxLineLen) = b.lines :=
    (List.map_congr_left fun l hl => List.take_of_length_le (h.width l hl)).trans (List.map_id _)
  rw [load, textLines, hlines, if_neg hne, hmap, List.take_of_length_le h.count]

end Editor

/-- The bytes saved fit into the buffer for the file. -/
theorem Grid.length_saveLines (g : Grid) (fuel i written : Nat) :
    (g.saveLines fuel i written).length ≤ fsMaxFileSize - written := by
  induction fuel generalizing i written with
  | zero => exact Nat.zero_le _
  | succ fuel ih =>
    rw [saveLines]
    split
    · exact Nat.zero_le _
    · have hrest := ih (i + 1) (written + g.lineLength i + 1)
      rw [List.length_append, List.length_cons, List.length_map, List.length_range]
      omega

theorem Grid.length_bufferSave (g : Grid) : g.bufferSave.length ≤ fsMaxFileSize := g.length_saveLines _ _ _

/-- Two grids have the same lines. -/
structure SameText (g g' : Grid) : Prop where
  count : g'.lineCount = g.lineCount
  length : ∀ i < g.lineCount, g'.lineLength i = g.lineLength i
  line : ∀ i < g.lineCount, g'.line i = g.line i

theorem sameText_of_lines {g g' : Grid} (h : g'.buffer.lines = g.buffer.lines) : SameText g g' := by
  have hcount : g'.lineCount = g.lineCount := by rw [← Grid.buffer_length, h, Grid.buffer_length]
  have hline : ∀ i < g.lineCount, g'.line i = g.line i := by
    intro i hi
    rw [← Grid.buffer_line (g := g) hi, ← Grid.buffer_line (g := g') (hcount ▸ hi), Buffer.line, Buffer.line, h]
  refine ⟨hcount, fun i hi => ?_, hline⟩
  rw [← Grid.length_line, hline i hi, Grid.length_line]

/-! ## The calls -/

/-- The last part of `buffer_save`: the text is written to the new file. -/
def writeOpened (fd : Int) (raw : List Byte) : FsM Bool := do
  let result ← fsWrite fd (some raw)
  let _ ← fsClose fd
  pure (decide (result = raw.length))

/-- `buffer_save`, once there is no file of the name. -/
def recreate (filename : CStr) (raw : List Byte) : FsM Bool := do
  let created ← fsCreate filename
  if created = 0 then pure false
  else
    let fd ← fsOpen filename
    if fd < 0 then pure false else writeOpened fd raw

theorem bufferReplace_eq (filename : CStr) (raw : List Byte) :
    bufferReplace filename raw = (do
      let existing ← fsExists filename
      if existing = 0 then recreate filename raw
      else
        let cleared ← fsDelete filename
        if cleared = 0 then pure false else recreate filename raw) := by
  unfold bufferReplace
  refine congrArg _ (funext fun existing => ?_)
  split
  · rfl
  · rfl

section Calls

variable {N i : Nat} {d : Nat → Sector} {m : FsMem} {name : CStr} {raw data : List Byte}

/-- What is saved, from the open file on. -/
theorem writeOpened_stored (h : Sound N d m) (hready : m.filesystemReady = true) (hs : Stores d m name i [])
    {k : Nat} (hk : k < 16) (hh : m.handles k = ⟨i, 0⟩) (raw : List Byte) :
    (writeOpened k raw).wp (exact N false false) (fun ok d' m' => Sound N d' m' ∧
      m'.filesystemReady = true ∧ HandleFree m' ∧
      ok = decide (roomAt m [] 0 raw.length = raw.length) ∧
      Stores d' m' name i (raw.take (roomAt m [] 0 raw.length))) d m := by
  unfold writeOpened
  refine (fsWrite_stored h hready hs hk hh (Nat.zero_le _) raw).seq ?_
  rintro result d₁ m₁ ⟨rfl, hsound, hready₁, hstores⟩
  refine (fsClose_working hk).seq ?_
  rintro - d₂ m₂ ⟨rfl, rfl⟩
  refine ⟨hsound.setHandle k (.inl rfl) (Nat.zero_le _), hready₁, ⟨k, hk, ?_⟩, decide_eq_decide.2 Int.natCast_inj, ?_⟩
  · simp [SpectreOS.setHandle, Handle.closed]
  · have hover : overwrite [] 0 (raw.take (roomAt m [] 0 raw.length)) = raw.take (roomAt m [] 0 raw.length) := by
      simp [overwrite]
    rw [hover] at hstores
    exact hstores.setHandle k .closed

theorem recreate_saved (h : Sound N d m) (name : CStr) (raw : List Byte) :
    (recreate name raw).wp (exact N false false) (fun ok d' m' => Sound N d' m' ∧ (ok = true →
      m'.filesystemReady = true ∧ validName name = true ∧ HandleFree m' ∧ ∃ i, Stores d' m' name i raw)) d m := by
  unfold recreate
  refine (fsCreate_exact h name).seq ?_
  intro created d₁ m₁ hc
  have h₁ := hc.sound h
  split
  · exact ⟨h₁, nofun⟩
  rename_i hcreated
  obtain ⟨-, -, hv, ⟨i, hs⟩, hready, -, -⟩ := hc.stores.resolve_left hcreated
  refine (fsOpen_stored h₁ hready hv hs).seq ?_
  rintro fd d₂ m₂ ⟨rfl, ⟨-, rfl, rfl⟩ | ⟨k, rfl, hk, -, rfl⟩⟩
  · rw [if_pos (by decide)]
    exact ⟨h₁, nofun⟩
  · rw [if_neg (by omega)]
    obtain ⟨hlo, hhi⟩ := h₁.lookup_lt hs.lookup
    have h₂ : Sound N d₂ (SpectreOS.setHandle m₁ k ⟨i, 0⟩) :=
      h₁.setHandle k (.inr ⟨by simp only; omega, by simp only; omega⟩) (Nat.zero_le _)
    refine (writeOpened_stored h₂ hready (hs.setHandle k _) hk (by simp [SpectreOS.setHandle]) raw).mono ?_
    rintro ok d₃ m₃ ⟨h₃, hready₃, hfree, rfl, hstores⟩
    refine ⟨h₃, fun hok => ⟨hready₃, hv, hfree, i, ?_⟩⟩
    rwa [of_decide_eq_true hok, List.take_length] at hstores

/-- A save that succeeds leaves a file of the name that holds what was saved, on every well-formed
filesystem, whatever has failed before. -/
theorem bufferReplace_saved (h : Sound N d m) (name : CStr) (raw : List Byte) :
    (bufferReplace name raw).wp (exact N false false) (fun ok d' m' => Sound N d' m' ∧ (ok = true →
      m'.filesystemReady = true ∧ validName name = true ∧ HandleFree m' ∧ ∃ i, Stores d' m' name i raw)) d m := by
  rw [bufferReplace_eq]
  refine (fsExists_exact h name).seq ?_
  rintro existing d₁ m₁ ⟨rfl, rfl, -⟩
  split
  · exact recreate_saved h name raw
  refine (fsDelete_exact h name).seq ?_
  intro cleared d₂ m₂ hc
  split
  · exact ⟨hc.sound h, nofun⟩
  · exact recreate_saved (hc.sound h) name raw

/-- A file is loaded as it is. -/
theorem bufferRead_stored (h : Sound N d m) (hready : m.filesystemReady = true) (hv : validName name = true)
    (hfree : HandleFree m) (hs : Stores d m name i data) :
    (bufferRead name).wp (exact N false false) (fun out d' m' => Sound N d' m' ∧ out = data) d m := by
  unfold bufferRead
  refine (fsOpen_stored h hready hv hs).seq ?_
  rintro fd d₁ m₁ ⟨rfl, ⟨hno, -, -⟩ | ⟨k, rfl, hk, -, rfl⟩⟩
  · exact absurd hfree hno
  rw [if_neg (by omega)]
  obtain ⟨hlo, hhi⟩ := h.lookup_lt hs.lookup
  have h₁ : Sound N d₁ (SpectreOS.setHandle m k ⟨i, 0⟩) :=
    h.setHandle k (.inr ⟨by simp only; omega, by simp only; omega⟩) (Nat.zero_le _)
  refine (fsRead_stored h₁ hready (hs.setHandle k _) hk (by simp [SpectreOS.setHandle]; rfl) fsMaxFileSize).seq ?_
  rintro _ d₂ m₂ ⟨rfl, rfl, rfl⟩
  refine (fsClose_working hk).seq ?_
  rintro - d₃ m₃ ⟨rfl, rfl⟩
  have hlen : data.length ≤ fsMaxFileSize := hs.length_le h
  refine ⟨(h₁.setHandle k ?_ ?_).setHandle k (.inl rfl) (Nat.zero_le _), ?_⟩
  · exact .inr ⟨by simp only; omega, by simp only; omega⟩
  · simp only [fsMaxFileSize] at hlen ⊢
    omega
  · rw [List.drop_zero, List.take_of_length_le hlen]
    split
    · rename_i h0
      have : data.length = 0 := by omega
      exact (List.length_eq_zero_iff.1 this).symm
    · rfl

/-- The text is loaded as it was saved. -/
theorem saveLoad_same (h : Sound N d m) (name : CStr) (raw : List Byte) :
    (do
      let ok ← bufferReplace name raw
      let out ← bufferRead name
      pure (ok, out) : FsM (Bool × List Byte)).wp (exact N false false)
        (fun res d' m' => Sound N d' m' ∧ (res.1 = true → res.2 = raw)) d m := by
  refine (bufferReplace_saved h name raw).seq ?_
  rintro ok d₁ m₁ ⟨h₁, hsaved⟩
  cases ok with
  | false =>
    refine wp.seq (Q := fun _ d' m' => Sound N d' m') ?_ fun _ _ _ h₂ => ⟨h₂, nofun⟩
    unfold bufferRead
    refine (fsOpen_exact h₁ name).seq ?_
    rintro fd d₂ m₂ ⟨rfl, hopen⟩
    have h₂ := hopen.sound h₁
    split
    · exact h₂
    refine (fsRead_exact h₂ fd true fsMaxFileSize).seq ?_
    rintro ⟨n, out⟩ d₃ m₃ ⟨rfl, hread⟩
    have h₃ := hread.sound h₂
    refine (fsClose_exact fd).seq ?_
    rintro closed d₄ m₄ ⟨rfl, hclose⟩
    show Sound N d₄ m₄
    split at hclose
    · rw [hclose.2]
      exact h₃.setHandle _ (.inl rfl) (Nat.zero_le _)
    · rw [hclose.2]
      exact h₃
  | true =>
    obtain ⟨hready, hv, hfree, i, hs⟩ := hsaved rfl
    refine (bufferRead_stored h₁ hready hv hfree hs).seq ?_
    rintro out d₂ m₂ ⟨h₂, rfl⟩
    exact ⟨h₂, fun _ => rfl⟩

/-- What is left of a file by a save that fails, or by one that succeeds: as much of the new text as
there is room for, or nothing if the new file cannot be opened. -/
theorem recreate_outcome (h : Working N d m) (hv : validName name = true) (hnone : lookup d name = none)
    (hinode : firstFreeInode m ≠ none) (raw : List Byte) :
    (recreate name raw).wp (exact N false false) (fun ok d' m' => Sound N d' m' ∧
      (HandleFree m → ok = decide (roomAt m [] 0 raw.length = raw.length) ∧
        fileBytes d' m' name = some (raw.take (roomAt m [] 0 raw.length))) ∧
      (¬ HandleFree m → ok = false ∧ fileBytes d' m' name = some [])) d m := by
  unfold recreate
  refine (fsCreate_working h name).seq ?_
  rintro created d₁ m₁ (⟨-, -, -, hwhy⟩ | ⟨i, rfl, -, -, hi, rfl, h₁, hnames, -⟩)
  · exact absurd ⟨hv, hnone, hinode⟩ hwhy
  rw [if_neg (by decide)]
  have hs : Stores d₁ (setInode m i .fresh) name i [] := by
    refine ⟨(hnames name).trans (if_pos rfl), ?_⟩
    rw [inode_setInode, if_pos ⟨rfl, (firstFreeInode_some hi).2.2⟩]
    exact holds_fresh _
  refine (fsOpen_stored h₁.sound h₁.ready hv hs).seq ?_
  rintro fd d₂ m₂ ⟨rfl, ⟨hno, rfl, rfl⟩ | ⟨k, rfl, hk, hneg, rfl⟩⟩
  · rw [if_pos (by decide)]
    exact ⟨h₁.sound, fun hfree => absurd hfree hno, fun _ => ⟨rfl, hs.fileBytes⟩⟩
  · rw [if_neg (by omega)]
    obtain ⟨hlo, hhi⟩ := h₁.sound.lookup_lt hs.lookup
    have h₂ : Working N d₂ (SpectreOS.setHandle (setInode m i .fresh) k ⟨i, 0⟩) :=
      h₁.setHandle (.inr ⟨by simp only; omega, by simp only; omega⟩) (Nat.zero_le _)
    refine (writeOpened_stored h₂.sound h₂.ready (hs.setHandle k _) hk (by simp [SpectreOS.setHandle]) raw).mono ?_
    rintro ok d₃ m₃ ⟨h₃, -, -, rfl, hstores⟩
    exact ⟨h₃, fun _ => ⟨rfl, hstores.fileBytes⟩, fun hno => absurd ⟨k, hk, hneg⟩ hno⟩

theorem bufferReplace_absent (h : Working N d m) (hv : validName name = true) (hnone : lookup d name = none)
    (hinode : firstFreeInode m ≠ none) (raw : List Byte) :
    (bufferReplace name raw).wp (exact N false false) (fun ok d' m' => Sound N d' m' ∧
      (HandleFree m → ok = decide (roomAt m [] 0 raw.length = raw.length) ∧
        fileBytes d' m' name = some (raw.take (roomAt m [] 0 raw.length))) ∧
      (¬ HandleFree m → ok = false ∧ fileBytes d' m' name = some [])) d m := by
  rw [bufferReplace_eq]
  refine (fsExists_working h name).seq ?_
  rintro existing d₁ m₁ ⟨rfl, rfl, hexists⟩
  rw [if_pos (hexists.2 hnone)]
  exact recreate_outcome h hv hnone hinode raw

/-- How many bytes a new file may have after file `i` is deleted. -/
def roomFor (m : FsMem) (i : Nat) : Nat := ((m.inode i).held + (freeSectors m).card) * 512

theorem bufferReplace_found (h : Working N d m) (hl : lookup d name = some i) (hlen : raw.length ≤ 16384) :
    (bufferReplace name raw).wp (exact N false false) (fun ok d' m' => Sound N d' m' ∧
      (HandleFree m → ok = decide (raw.length ≤ roomFor m i) ∧ fileBytes d' m' name = some (raw.take (roomFor m i))) ∧
      (¬ HandleFree m → ok = false ∧ fileBytes d' m' name = some [])) d m := by
  rw [bufferReplace_eq]
  refine (fsExists_working h name).seq ?_
  rintro existing d₁ m₁ ⟨rfl, rfl, hexists⟩
  rw [if_neg fun h0 => by rw [hexists.1 h0] at hl; cases hl]
  refine (fsDelete_found h hl).seq ?_
  rintro cleared d₂ m₂ ⟨rfl, h₂, hnone, hhandles, hcard, hinode⟩
  rw [if_neg (by decide)]
  have hfree : HandleFree m₂ ↔ HandleFree m₁ := by rw [HandleFree, HandleFree, hhandles]
  have hroom : roomAt m₂ [] 0 raw.length = min raw.length (roomFor m₁ i) := by
    have hzero : sectorsOf [] = 0 := rfl
    rw [roomAt, roomFor, hcard, hzero]
    omega
  have htake : raw.take (min raw.length (roomFor m₁ i)) = raw.take (roomFor m₁ i) := by
    rw [← List.take_take, List.take_of_length_le]
    exact List.length_take_le' _ _
  refine (recreate_outcome h₂ (h.linked.lookup_valid hl) hnone hinode raw).mono ?_
  rintro ok d₃ m₃ ⟨h₃, hopened, hfull⟩
  rw [hfree, hroom] at hopened
  rw [hfree] at hfull
  refine ⟨h₃, fun hh => ?_, hfull⟩
  obtain ⟨rfl, hbytes⟩ := hopened hh
  refine ⟨decide_eq_decide.2 (by omega), ?_⟩
  rw [hbytes, htake]

end Calls

theorem bufferReplace_unready {δ : Type} (D : Device δ Sector) {s : Conf FsMem δ} (h : s.mem.filesystemReady = false)
    (name : CStr) (raw : List Byte) : (bufferReplace name raw).run D s = (false, s) := by
  simp [bufferReplace, fsExists, fsCreate, h]

/-! ## Loading what was saved -/

section Restore

variable {ω : Type} (S : Services ω) (c : Console ω) (raw : List Byte) (keys : List Key)

/-- The grid after a file with these contents is opened and the keys are pressed. -/
def editedGrid : Grid := (Console.nanoKeys S { c with nano := c.nano.nanoOpen raw } keys).nano.grid

theorem editedGrid_simulates : (editedGrid S c raw keys).buffer = (keys.foldl Editor.press (Editor.load raw)).buffer ∧
    (editedGrid S c raw keys).Valid := by
  have h := Simulates.run S (c := { c with nano := c.nano.nanoOpen raw }) (simulates_open c.nano raw) keys
  exact ⟨h.buffer, h.valid⟩

/-- What is saved of it: all lines, which fit into the buffer for the file. -/
theorem editedGrid_saved : (editedGrid S c raw keys).bufferSave = unlines 10 (editedGrid S c raw keys).buffer.lines ∧
    (editedGrid S c raw keys).bufferSave.length ≤ 16000 := by
  obtain ⟨-, hvalid⟩ := editedGrid_simulates S c raw keys
  have hsave := Grid.bufferSave_eq hvalid
  refine ⟨hsave, ?_⟩
  rw [hsave]
  exact length_unlines_grid hvalid.count hvalid.width

theorem editedGrid_restored (g : Grid) :
    SameText (editedGrid S c raw keys) (g.bufferLoad (editedGrid S c raw keys).bufferSave) := by
  obtain ⟨hbuffer, hvalid⟩ := editedGrid_simulates S c raw keys
  refine sameText_of_lines ?_
  rw [Grid.bufferLoad_buffer, Grid.bufferSave_eq hvalid]
  exact Editor.load_unlines hvalid (hbuffer ▸ Editor.edited_all raw keys)

end Restore

/-- A filesystem on which nothing had failed, after any calls of which any requests may have failed. -/
def Disturbed (cp : Primitives) (N : Nat) (s : Conf FsMem Machine) : Prop :=
  ∃ s₀ f calls, Visited cp N s₀ ∧ s = (runCalls (fsDisk cp) calls (withFaults s₀ f)).2

section

variable {ω : Type} {cp : Primitives} {N : Nat} {s : Conf FsMem Machine}

theorem Disturbed.live (h : Disturbed cp N s) : Live cp N true true s := by
  obtain ⟨s₀, f, calls, hs₀, rfl⟩ := h
  exact ((hs₀.healthy.live.withFaults f).runCalls_all (J := fun _ _ => True)
    (fun _ _ _ _ _ _ _ _ _ => trivial) calls trivial).1

theorem Visited.disturbed (h : Visited cp N s) : Disturbed cp N s := ⟨s, s.dev.ata.faults, [], h, rfl⟩

/-- After any keys, all lines are saved, in at most 16384 bytes; and after a successful save the lines
are loaded again as they were if no request of the save and of the load fails, whatever has failed
before. -/
theorem save_load_restores (S : Services ω) (c : Console ω) (raw : List Byte) (keys : List Key) (name : CStr) (g : Grid)
    (h : Disturbed cp N s ∨ s.mem.filesystemReady = false) :
    let saved := (editedGrid S c raw keys).bufferSave
    let r := (bufferReplace name saved).run (fsDisk cp) s
    let l := (bufferRead name).run (fsDisk cp) r.2
    saved = unlines 10 (editedGrid S c raw keys).buffer.lines ∧ saved.length ≤ 16384 ∧
      (r.1 = true → (∀ n, requests s ≤ n → n < requests l.2 → s.dev.ata.faults n = false) →
        SameText (editedGrid S c raw keys) (g.bufferLoad l.1)) := by
  intro saved r l
  obtain ⟨hsave, hlen⟩ := editedGrid_saved S c raw keys
  refine ⟨hsave, hlen.trans (by decide), fun hok hserved => ?_⟩
  rcases h with h | h
  · have hrun := h.live.exec_served (saveLoad_same h.live.sound name saved) (fun _ _ _ hq => hq.1) (by
      simpa only [run_bind, run_pure] using hserved)
    simp only [run_bind, run_pure] at hrun
    have hl : l.1 = saved := hrun.2 hok
    rw [hl]
    exact editedGrid_restored S c raw keys g
  · have hr : r = (false, s) := bufferReplace_unready _ h name saved
    rw [hr] at hok
    cases hok

/-- A new file with room for the text is saved. -/
theorem Reached.saves_first (h : Reached cp 200 s (Files.empty 71)) {name : CStr}
    (hv : validName name = true) (g : Grid) :
    ((bufferReplace name g.bufferSave).run (fsDisk cp) s).1 = true := by
  have hh := h.visited.healthy
  have hag := h.running.refines.agrees
  have hnone : lookup (logicalDisk cp s.dev) name = none := by
    by_contra hne
    exact Finset.notMem_empty name ((hag.names name).2 hne)
  have hinode := (hag.few_iff h.running.refines.sound h.running.refines.linked).1 (by decide)
  have hhandle : HandleFree s.mem := ⟨0, by decide, ((hag.handles 0 (by decide)).neg_iff).2 rfl⟩
  have hroom : roomAt s.mem [] 0 g.bufferSave.length = g.bufferSave.length := by
    have hlen := g.length_bufferSave
    have hfree : (freeSectors s.mem).card = 71 := hag.free
    rw [roomAt, hfree]
    simp only [fsMaxFileSize] at hlen
    omega
  obtain ⟨⟨-, hsaved, -⟩, -⟩ := hh.live.exec (bufferReplace_absent hh.working hv hnone hinode g.bufferSave)
    fun _ _ _ hq => hq.1
  exact (hsaved hhandle).1.trans (decide_eq_true hroom)

/-- When every request fails, nothing is read. -/
theorem Live.bufferRead_unserved {r w : Bool} (h : Live cp N r w s) (name : CStr)
    (hf : ∀ n, requests s ≤ n → s.dev.ata.faults n = true) : ((bufferRead name).run (fsDisk cp) s).1 = [] := by
  have hread : (bufferRead name).wp (counted (· < N) s.dev.ata.faults) (fun out _ _ => out = [])
      (requests s, logicalDisk cp s.dev) s.mem := by
    unfold bufferRead
    refine wp.seq (Q := fun fd _ _ => fd = -1) ?_ ?_
    · unfold fsOpen
      simp only [wp_bind, wp_load]
      split
      · rfl
      refine (findDirEntry_counted h.sound.root (fun lba _ hlba => hlba.trans h.sound.lo) name).seq ?_
      rintro inode g m ⟨rfl, hfound⟩
      rw [firstServed_none.2 fun j _ _ => hf _ (Nat.le_add_right _ _)] at hfound
      rw [hfound.1, if_pos (by decide)]
      rfl
    · rintro fd g m rfl
      rfl
  exact (h.exec_counted hread).choose_spec

/-- A save whose requests are served, and a load whose requests fail. -/
theorem Live.save_unread (h : Live cp N false false s) {name : CStr} {raw : List Byte}
    (hok : ((bufferReplace name raw).run (fsDisk cp) s).1 = true) :
    ∃ k, requests s ≤ k ∧ ∀ f : Nat → Bool, (∀ n, f n = decide (k ≤ n)) →
      let r := (bufferReplace name raw).run (fsDisk cp) (SpectreOS.withFaults s f)
      r.1 = true ∧ ((bufferRead name).run (fsDisk cp) r.2).1 = [] := by
  have hlive := (h.exec (bufferReplace_saved h.sound name raw) fun _ _ _ hq => hq.1).2
  refine ⟨requests ((bufferReplace name raw).run (fsDisk cp) s).2, (run_requests cp _ s).2, fun f hf => ?_⟩
  have hrun := @run_withFaults cp s f _ (bufferReplace name raw) fun n _ hn => by
    rw [hf, decide_eq_false (by omega), h.faultless]
  rw [hrun]
  refine ⟨hok, (hlive.withFaults f).bufferRead_unserved name fun n hn => ?_⟩
  exact (hf n).trans (decide_eq_true hn)

end

/-- The text "x", opened in the editor. -/
def editedX : Grid := editedGrid (idleServices Unit) (consoleBoot (.ofImage fun _ => 0) ()) (ascii "x") []

/-- It is saved to a new file and loaded again. -/
theorem save_load_restores_boot :
    ∃ s₀, fsFormat (current nullPrimitives) (fun _ => 0) (bootConf (blankDrive 200)) = (true, s₀) ∧
      let r := (bufferReplace nameA editedX.bufferSave).run (fsDisk nullPrimitives) s₀
      let l := (bufferRead nameA).run (fsDisk nullPrimitives) r.2
      SameText editedX (blankNano.grid.bufferLoad l.1) := by
  obtain ⟨s₀, hs₀, hreach⟩ := reached_boot nullPrimitives
  have hrestores := save_load_restores (idleServices Unit) (consoleBoot (.ofImage fun _ => 0) ()) (ascii "x") [] nameA
    blankNano.grid (.inl hreach.visited.disturbed)
  exact ⟨s₀, hs₀, hrestores.2.2 (hreach.saves_first (by decide) editedX)
    fun n _ _ => Live.faultless hreach.running.live n⟩

/-- When the requests fail that are made after the save, the text is not loaded. -/
theorem save_load_unread :
    ∃ f s₀, fsFormat (current nullPrimitives) (fun _ => 0) (withFaults (bootConf (blankDrive 200)) f) = (true, s₀) ∧
      let r := (bufferReplace nameA editedX.bufferSave).run (fsDisk nullPrimitives) s₀
      let l := (bufferRead nameA).run (fsDisk nullPrimitives) r.2
      r.1 = true ∧ ¬ SameText editedX (blankNano.grid.bufferLoad l.1) := by
  obtain ⟨s₀, hs₀, hreach⟩ := reached_boot nullPrimitives
  obtain ⟨k, hk, hlost⟩ :=
    hreach.running.live.save_unread (hreach.saves_first (by decide : validName nameA = true) editedX)
  obtain ⟨f, hf⟩ : ∃ f : Nat → Bool, ∀ n, f n = decide (k ≤ n) := ⟨_, fun _ => rfl⟩
  have hformat := @fsFormat_withFaults nullPrimitives (fun _ => 0) (bootConf (blankDrive 200)) f (by rw [hs₀])
    fun n _ hn => by
    rw [hs₀] at hn
    rw [hf, decide_eq_false (Nat.not_le.2 (lt_of_lt_of_le hn hk))]
    rfl
  rw [hs₀] at hformat
  obtain ⟨hsaved, hread⟩ := hlost f hf
  refine ⟨f, _, hformat, hsaved, fun hsame => ?_⟩
  rw [hread] at hsame
  exact absurd (hsame.length 0 (by decide)) (by decide)

/-! ## What a failed save leaves -/

section Failed

variable {cp : Primitives} {N : Nat} {s : Conf FsMem Machine}

/-- A save of these bytes cannot lose the contents of the file: they fit, and the file can be opened,
or what fits of them is what the file holds anyway. -/
def KeepsOld (d : Nat → Sector) (m : FsMem) (name : CStr) (raw : List Byte) : Prop :=
  m.filesystemReady = true → ∀ i, lookup d name = some i →
    (HandleFree m → raw.length ≤ roomFor m i ∨ fileBytes d m name = some (raw.take (roomFor m i))) ∧
      (¬ HandleFree m → fileBytes d m name = some [])

/-- After a failed save the file has its old contents exactly in these cases, for every text, every
name and every filesystem on which nothing has failed. -/
theorem failed_save_keeps_iff (h : Visited cp N s ∨ s.mem.filesystemReady = false) (g : Grid) (name : CStr) :
    let r := (bufferReplace name g.bufferSave).run (fsDisk cp) s
    (r.1 = false → ∀ old, fileBytes (logicalDisk cp s.dev) s.mem name = some old →
        fileBytes (logicalDisk cp r.2.dev) r.2.mem name = some old) ↔
      KeepsOld (logicalDisk cp s.dev) s.mem name g.bufferSave := by
  intro r
  by_cases hready : s.mem.filesystemReady = true
  · have hh := (h.resolve_right (by simp [hready])).healthy
    cases hl : lookup (logicalDisk cp s.dev) name with
    | none =>
      refine iff_of_true (fun _ old hold => ?_) fun _ i hi => ?_
      · rw [fileBytes, hl] at hold
        cases hold
      · rw [hl] at hi
        cases hi
    | some i =>
      obtain ⟨⟨-, hfree, hfull⟩, -⟩ := hh.live.exec (bufferReplace_found hh.working hl g.length_bufferSave)
        fun _ _ _ hq => hq.1
      change HandleFree s.mem → r.1 = _ ∧ fileBytes (logicalDisk cp r.2.dev) r.2.mem name = _ at hfree
      change ¬ HandleFree s.mem → r.1 = _ ∧ fileBytes (logicalDisk cp r.2.dev) r.2.mem name = _ at hfull
      obtain ⟨old, hold⟩ : ∃ old, fileBytes (logicalDisk cp s.dev) s.mem name = some old :=
        ⟨_, by rw [fileBytes, hl]; rfl⟩
      have hkeeps : KeepsOld (logicalDisk cp s.dev) s.mem name g.bufferSave ↔
          (HandleFree s.mem → g.bufferSave.length ≤ roomFor s.mem i ∨
            some old = some (g.bufferSave.take (roomFor s.mem i))) ∧
            (¬ HandleFree s.mem → some old = some []) := by
        unfold KeepsOld
        simp [hready, hl, hold]
      rw [hkeeps, hold]
      by_cases hhandle : HandleFree s.mem
      · obtain ⟨hok, hnew⟩ := hfree hhandle
        rw [hok, hnew]
        simp [hhandle, or_iff_not_imp_left, eq_comm]
      · obtain ⟨hok, hnew⟩ := hfull hhandle
        rw [hok, hnew]
        simp [hhandle, eq_comm]
  · have hunready : s.mem.filesystemReady = false := by simpa using hready
    have hr : r = (false, s) := bufferReplace_unready _ hunready name _
    rw [hr]
    exact iff_of_true (fun _ _ hold => hold) fun hyes => absurd hyes hready

/-- With every handle in use, nothing is left. -/
theorem Visited.save_empties (h : Visited cp N s) {name : CStr} {i : Nat}
    (hl : lookup (logicalDisk cp s.dev) name = some i) (hfull : ¬ HandleFree s.mem) (g : Grid) :
    let r := (bufferReplace name g.bufferSave).run (fsDisk cp) s
    r.1 = false ∧ fileBytes (logicalDisk cp r.2.dev) r.2.mem name = some [] :=
  (h.healthy.live.exec (bufferReplace_found h.healthy.working hl g.length_bufferSave) fun _ _ _ hq => hq.1).1.2.2 hfull

end Failed

/-- The text "x", opened in the editor. -/
def gridX : Grid := blankNano.grid.bufferLoad (ascii "x")

/-- An empty file that is open on sixteen handles. -/
def openedEmpty : List Call := .create nameA :: List.replicate 16 (.open nameA)

theorem openedEmpty_files : nameA ∈ (Files.run openedEmpty (Files.empty 71)).2.names ∧
    (Files.run openedEmpty (Files.empty 71)).2.data nameA = [] ∧
    ∀ fd < 16, (Files.run openedEmpty (Files.empty 71)).2.handles fd ≠ none := by decide +kernel

/-- A save under its name fails, and there was nothing to lose. -/
theorem failed_save_keeps_empty :
    ∃ s₀, fsFormat (current nullPrimitives) (fun _ => 0) (bootConf (blankDrive 200)) = (true, s₀) ∧
      let s := (runCalls (fsDisk nullPrimitives) openedEmpty s₀).2
      let r := (bufferReplace nameA gridX.bufferSave).run (fsDisk nullPrimitives) s
      r.1 = false ∧ fileBytes (logicalDisk nullPrimitives s.dev) s.mem nameA = some [] ∧
        fileBytes (logicalDisk nullPrimitives r.2.dev) r.2.mem nameA = some [] := by
  obtain ⟨s₀, hs₀, hreach⟩ := reached_boot nullPrimitives
  obtain ⟨-, hrun⟩ := hreach.running.calls openedEmpty (by simp [openedEmpty, Files.PermitsAll, Files.permits])
  obtain ⟨hname, hdata, hhandles⟩ := openedEmpty_files
  have hvisited := hreach.visited.runCalls openedEmpty
  have hold : fileBytes (logicalDisk nullPrimitives (runCalls (fsDisk nullPrimitives) openedEmpty s₀).2.dev)
      (runCalls (fsDisk nullPrimitives) openedEmpty s₀).2.mem nameA = some [] := by
    rw [hrun.fileBytes, if_pos hname, hdata]
  have hfull := hrun.refines.not_handleFree hhandles
  obtain ⟨i, hi⟩ := hrun.refines.agrees.mem_iff.1 hname
  obtain ⟨hfailed, -⟩ := hvisited.save_empties hi hfull gridX
  have hkeeps := (failed_save_keeps_iff (.inl hvisited) gridX nameA).2 fun _ _ _ =>
    ⟨fun hfree => absurd hfree hfull, fun _ => hold⟩
  exact ⟨s₀, hs₀, hfailed, hold, hkeeps hfailed _ hold⟩

/-- With a byte in the file, a save under its name fails and loses it. -/
theorem failed_save_loses :
    ∃ s₀, fsFormat (current nullPrimitives) (fun _ => 0) (bootConf (blankDrive 200)) = (true, s₀) ∧
      let s := (runCalls (fsDisk nullPrimitives) openedFully s₀).2
      let r := (bufferReplace nameA gridX.bufferSave).run (fsDisk nullPrimitives) s
      r.1 = false ∧ fileBytes (logicalDisk nullPrimitives s.dev) s.mem nameA = some [0x78] ∧
        fileBytes (logicalDisk nullPrimitives r.2.dev) r.2.mem nameA = some [] := by
  obtain ⟨s₀, hs₀, hreach⟩ := reached_boot nullPrimitives
  obtain ⟨-, hrun⟩ := hreach.running.calls openedFully (by simp [openedFully, Files.PermitsAll, Files.permits])
  obtain ⟨hname, -, hdata, hhandles⟩ := openedFully_files
  obtain ⟨i, hi⟩ := hrun.refines.agrees.mem_iff.1 hname
  have hfull := hrun.refines.not_handleFree hhandles
  obtain ⟨hfailed, hempty⟩ := (hreach.visited.runCalls openedFully).save_empties hi hfull gridX
  exact ⟨s₀, hs₀, hfailed, by rw [hrun.fileBytes, if_pos hname, hdata], hempty⟩

end SpectreOS
