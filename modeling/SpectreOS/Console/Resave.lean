/-
A file that is opened in the editor and saved without an edit (nano.c): what is left of it are its
first 200 lines, cut to 79 bytes each, so all of it exactly if its lines fit into the grid. The
contents of a file are the bytes that can be read of it: a write through the handle of a deleted file
can leave a hole, and `fs_read` stops there.
-/
import SpectreOS.Console.Replace

namespace SpectreOS

open BlockIO Prog LineEditor

/-! ## What can be read -/

/-- How far a file can be read: up to the first byte without a sector. -/
def Inode.readableSize (n : Inode) : Nat := ((List.range n.size).find? fun p => n.blockOf p == 0).getD n.size

/-- The bytes that can be read of the file of that name. -/
def fileText (d : Nat → Sector) (m : FsMem) (name : CStr) : Option (List Byte) :=
  (lookup d name).map fun i => bytesFrom d (m.inode i) 0 (m.inode i).readableSize

theorem readableSize_eq {n : Inode} {k : Nat} (hk : k ≤ n.size) (hpresent : ∀ p < k, n.blockOf p ≠ 0)
    (hstop : k < n.size → n.blockOf k = 0) : n.readableSize = k := by
  unfold Inode.readableSize
  rcases Nat.lt_or_ge k n.size with hlt | hge
  · have hfirst : (List.range n.size).find? (fun p => n.blockOf p == 0) = some k := by
      rw [List.find?_range_eq_some]
      refine ⟨by simpa using hstop hlt, by simpa using hlt, fun p hp => ?_⟩
      simpa using hpresent p hp
    rw [hfirst, Option.getD_some]
  · have hnone : (List.range n.size).find? (fun p => n.blockOf p == 0) = none := by
      rw [List.find?_eq_none]
      intro p hp
      rw [List.mem_range] at hp
      simpa using hpresent p (by omega)
    rw [hnone, Option.getD_none]
    omega

section Read

variable {N i : Nat} {r w : Bool} {d : Nat → Sector} {m : FsMem} {name : CStr} {data : List Byte}

/-- A file without holes can be read as a whole. -/
theorem Stores.fileText (h : Sound N d m) (hs : Stores d m name i data) : SpectreOS.fileText d m name = some data := by
  have hlen := hs.length_le h
  have hsize := hs.holds.size
  have hwhole : (m.inode i).readableSize = (m.inode i).size := by
    refine readableSize_eq le_rfl (fun p hp => ?_) fun hlt => absurd hlt (lt_irrefl _)
    rw [hsize] at hp
    have hp512 : p / 512 < 32 := by omega
    rw [Inode.blockOf_eq hp512]
    exact (hs.holds.dense ⟨p / 512, hp512⟩).2 (by simp only; omega)
  rw [SpectreOS.fileText, hs.lookup, Option.map_some, hwhole, hs.holds.fileBytes]

/-- Every byte the read loop delivers has a sector. -/
theorem fsReadLoop_present (hdir : ∀ k, (m.inode i).direct k < N) (position size done : Nat) (output : List Byte) :
    (fsReadLoop i position size done output).wp (exact N r w)
      (fun res _ _ => ∀ p, done ≤ p → p < res.1 → (m.inode i).blockOf (position + p) ≠ 0) d m := by
  induction hk : size - done using Nat.strong_induction_on generalizing done output with
  | _ k ih =>
    rw [fsReadLoop]
    split
    · rename_i hlt
      split
      · rename_i hb
        have hblock : (m.inode i).blockOf (position + done) = (m.inode i).direct ⟨(position + done) / 512, hb⟩ :=
          Inode.blockOf_eq hb
        rw [wp_bind, wp_load]
        simp only [← hblock]
        split
        · exact fun p h1 h2 => by simp only at h2; omega
        · rename_i hne
          rw [wp_bind, wp_readBlock]
          refine ⟨by rw [hblock]; exact hdir _, ?_⟩
          rintro res d' ⟨rfl, rfl | ⟨rfl, -⟩⟩
          · have hmod := Nat.mod_lt (position + done) (show 0 < 512 by omega)
            simp only
            refine (ih _ ?_ (done + min (512 - (position + done) % 512) (size - done)) _ rfl).mono ?_
            · omega
            rintro res - - hrest p h1 h2
            by_cases hp : done + min (512 - (position + done) % 512) (size - done) ≤ p
            · exact hrest p hp h2
            · -- the chunk lies inside one block
              have hsame : (m.inode i).blockOf (position + p) = (m.inode i).blockOf (position + done) := by
                have he : (position + p) / 512 = (position + done) / 512 := by omega
                unfold Inode.blockOf
                simp only [he]
              rw [hsame]
              exact hne
          · exact fun p h1 h2 => by simp only at h2; omega
      · exact fun p h1 h2 => by simp only at h2; omega
    · exact fun p h1 h2 => by simp only at h2; omega

theorem fsRead_present (h : Sound N d m) {k p : Nat} (hh : m.handles k = ⟨(i : Nat), p⟩) (buffer : Bool) (size : Nat) :
    (fsRead k buffer size).wp (exact N r w)
      (fun res _ _ => ∀ q < res.1.toNat, (m.inode i).blockOf (p + q) ≠ 0) d m := by
  unfold fsRead
  rw [wp_bind, wp_load]
  split
  · exact fun q hq => absurd hq (by simp)
  simp only [Int.toNat_natCast, hh]
  split
  · exact fun q hq => absurd hq (by simp)
  refine (fsReadLoop_present (h.direct_lt _) _ _ 0 []).seq ?_
  rintro ⟨n, out⟩ d' m' hpresent q hq
  exact hpresent q (Nat.zero_le q) (by simpa using hq)

/-- What the editor reads of a file, with a handle to read it through. -/
theorem bufferRead_text (h : Working N d m) (hl : lookup d name = some i) (hfree : HandleFree m) :
    (bufferRead name).wp (exact N false false) (fun out d' m' => d' = d ∧ fileText d m name = some out ∧
      Working N d' m' ∧ HandleFree m' ∧ roomFor m' i = roomFor m i) d m := by
  unfold bufferRead
  refine (fsOpen_working h name).seq ?_
  rintro fd d₁ m₁ ⟨rfl, ⟨-, -, hno | hno⟩ | ⟨j, k, rfl, hj, hk, -, rfl, h₁⟩⟩
  · rw [hl] at hno
    cases hno
  · exact absurd hfree hno
  obtain rfl := Option.some.inj (hj.symm.trans hl)
  rw [if_neg (by omega)]
  have hh : (SpectreOS.setHandle m k ⟨j, 0⟩).handles k = ⟨j, 0⟩ := by simp [SpectreOS.setHandle]
  refine ((fsRead_exact h₁.sound k true fsMaxFileSize).and (fsRead_present h₁.sound hh true fsMaxFileSize)).seq ?_
  rintro ⟨n, out⟩ d₂ m₂ ⟨⟨rfl, hread⟩, hpresent⟩
  have h₂ : Working N d₂ m₂ :=
    @Working.step N d₂ d₂ _ m₂ (.read k true fsMaxFileSize) ⟨n, out⟩ h₁ ⟨rfl, hread⟩ hread.frame.2.2
  refine (fsClose_working hk).seq ?_
  rintro - d₃ m₃ ⟨rfl, rfl⟩
  cases hread with
  | refused hno =>
    have husable : handleUsable (SpectreOS.setHandle m k ⟨j, 0⟩) k true = true := by
      rw [handleUsable_iff]
      refine ⟨h₁.ready, rfl, by omega, by omega, ?_⟩
      rw [Int.toNat_natCast, hh]
      exact Int.natCast_nonneg j
    rw [husable] at hno
    cases hno
  | done n _ hle hstop =>
    simp only [Int.toNat_natCast, hh, inode_setHandle, Nat.zero_add, Nat.sub_zero] at hle hstop hpresent ⊢
    have hsize := h.sound.sizes j
    have hn : (m.inode j).readableSize = n := by
      refine readableSize_eq (by omega) hpresent fun hlt => ?_
      exact (hstop (by simp only [fsMaxFileSize]; omega)).resolve_left Bool.false_ne_true
    refine ⟨rfl, ?_, ?_, ⟨k, hk, ?_⟩, rfl⟩
    · rw [fileText, hl, Option.map_some, hn]
      split
      · rename_i h0
        obtain rfl : n = 0 := by omega
        rfl
      · rfl
    · simp only [Int.toNat_natCast, hh, Nat.zero_add] at h₂
      exact h₂.setHandle (.inl rfl) (Nat.zero_le _)
    · simp [SpectreOS.setHandle, Handle.closed]

end Read

/-! ## The keys -/

/-- Ctrl+O and Enter save under the name of the open file. -/
theorem Nano.promptEnter_name {n : Nano} (hactive : n.active = true) (hprompt : n.promptActive = false)
    (hlen : n.currentFilename.text.length ≤ 47) :
    (n.nanoKeyboardCtrl 0x6f).promptEnter.currentFilename.text = n.currentFilename.text := by
  have htake : n.currentFilename.text.take 47 = n.currentFilename.text := List.take_of_length_le hlen
  have hzero := Block.zero_notMem_text n.currentFilename
  have hbuffer : (n.promptBuffer.store n.currentFilename.text).text = n.currentFilename.text :=
    Block.text_store _ hzero (by simp only [nanoFilenameLen]; omega)
  have hend := Block.text_setByte_length (n.promptBuffer.store n.currentFilename.text) (by
    rw [hbuffer]
    simp only [nanoFilenameLen]
    omega)
  rw [hbuffer] at hend
  have hctrl : (n.nanoKeyboardCtrl 0x6f).promptBuffer = n.promptBuffer.store n.currentFilename.text ∧
      (n.nanoKeyboardCtrl 0x6f).promptLength = n.currentFilename.text.length ∧
      (n.nanoKeyboardCtrl 0x6f).currentFilename = n.currentFilename := by
    simp [nanoKeyboardCtrl, hactive, hprompt, htake, hbuffer]
  obtain ⟨h1, h2, h3⟩ := hctrl
  rw [promptEnter, h1, h2, h3]
  simp only [hend]
  split
  · change (n.currentFilename.store (n.currentFilename.text.take 47)).text = _
    rw [htake]
    exact Block.text_store _ hzero (by simp only [nanoFilenameLen]; omega)
  · rfl

/-- The file calls of opening a file and pressing Ctrl+O and Enter. -/
theorem Console.resave_world {ω : Type} (S : Services ω) (c : Console ω) (name : CStr) (hlen : name.val.length ≤ 47) :
    ((c.nanoOpen S name.val).nanoKeys S [.ctrl 0x6f, .enter]).world =
      (S.replaceFile name.val (cut (S.readFile name.val c.world).1) (S.readFile name.val c.world).2).2 := by
  have hname : (c.nano.openName name.val).currentFilename.text = name.val := by
    have htake : name.val.take (nanoFilenameLen - 1) = name.val := List.take_of_length_le hlen
    rw [Nano.openName, htake]
    exact Block.text_store _ name.2 (by simp only [nanoFilenameLen]; omega)
  have hopen : c.nanoOpen S name.val = { c with
      nano := (c.nano.openName name.val).nanoOpen (S.readFile name.val c.world).1
      world := (S.readFile name.val c.world).2 } := by
    rw [Console.nanoOpen, hname]
  rw [hopen]
  generalize S.readFile name.val c.world = r
  generalize hn : (c.nano.openName name.val).nanoOpen r.1 = n
  have hsim : Simulates n (Editor.load r.1) := by
    rw [← hn]
    exact simulates_open _ _
  have hfile : n.currentFilename.text = name.val := by
    rw [← hn]
    exact hname
  have hprompt := Nano.promptEnter_name hsim.active hsim.prompting (hfile ▸ hlen)
  have hctrl := hsim.ctrl 0x6f
  have hsaved : (n.nanoKeyboardCtrl 0x6f).grid.bufferSave = cut r.1 := by
    rw [Grid.bufferSave_eq hctrl.valid, hctrl.buffer]
    rfl
  have hactive : (n.nanoKeyboardCtrl 0x6f).active = true := hctrl.active
  have hprompting : (n.nanoKeyboardCtrl 0x6f).promptActive = true := hctrl.prompting
  change (Console.nanoKeyboardEnter S { c with nano := n.nanoKeyboardCtrl 0x6f, world := r.2 }).world = _
  simp only [Console.nanoKeyboardEnter, hactive, hprompting, hprompt, hfile, Bool.true_eq_false, if_false, if_true]
  exact congrArg (fun text => (S.replaceFile name.val text r.2).2) hsaved

/-! ## Saving without an edit -/

section Resave

variable {cp : Primitives} {N i : Nat} {name : CStr} {raw : List Byte}

/-- A file that is opened in the editor and saved without an edit holds its first 200 lines, cut to
79 bytes each, and these are all of it exactly if its lines fit. There must be a handle for it and
room for the text with a newline at its end. -/
theorem nano_resaved (S : Services (Conf FsMem Machine)) (c : Console (Conf FsMem Machine)) (h : Visited cp N c.world)
    (hl : lookup (logicalDisk cp c.world.dev) name = some i)
    (hraw : fileText (logicalDisk cp c.world.dev) c.world.mem name = some raw) (hhandle : HandleFree c.world.mem)
    (hroom : (ended raw).length ≤ roomFor c.world.mem i) :
    let S' := nanoServices (fsDisk cp) S
    let s' := ((c.nanoOpen S' name.val).nanoKeys S' [.ctrl 0x6f, .enter]).world
    fileText (logicalDisk cp s'.dev) s'.mem name = some (cut raw) ∧
      fileBytes (logicalDisk cp s'.dev) s'.mem name = some (cut raw) ∧
      (cut raw = ended raw ↔ (textLines raw).length ≤ nanoMaxLines ∧
        ∀ l ∈ textLines raw, l.length ≤ nanoMaxLineLen) := by
  intro S' s'
  have hh := h.healthy
  have hname : name.val.length ≤ 47 := by
    have := validName_length (hh.working.linked.lookup_valid hl)
    omega
  obtain ⟨⟨hdisk, htext, hworking, hfree, hkept⟩, hlive⟩ := hh.live.exec (bufferRead_text hh.working hl hhandle)
    fun _ _ _ hq => hq.2.2.1.sound
  have hs' : s' = ((bufferReplace name (cut raw)).run (fsDisk cp) ((bufferRead name).run (fsDisk cp) c.world).2).2 := by
    have hread : S'.readFile name.val c.world = (bufferRead name).run (fsDisk cp) c.world :=
      congrArg (fun n => (bufferRead n).run (fsDisk cp) c.world) (cStr_val name)
    have hout : ((bufferRead name).run (fsDisk cp) c.world).1 = raw := Option.some.inj (htext.symm.trans hraw)
    refine (Console.resave_world S' c name hname).trans ?_
    rw [hread, hout]
    exact congrArg (fun n => ((bufferReplace n (cut raw)).run (fsDisk cp) _).2) (cStr_val name)
  rw [hs']
  generalize ((bufferRead name).run (fsDisk cp) c.world).2 = s₁ at hdisk hworking hfree hkept hlive
  have hlen : (cut raw).length ≤ 16384 := (length_cut_max raw).trans (by decide)
  obtain ⟨⟨-, hsaved, -⟩, -⟩ := hlive.exec (bufferReplace_found hworking (by rw [hdisk]; exact hl) hlen)
    fun _ _ _ hq => hq.1
  obtain ⟨⟨hsound, hstored⟩, -⟩ := hlive.exec (bufferReplace_saved hlive.sound name (cut raw)) fun _ _ _ hq => hq.1
  obtain ⟨hok, -⟩ := hsaved hfree
  rw [decide_eq_true (by rw [hkept]; exact (length_cut_le raw).trans hroom)] at hok
  obtain ⟨-, -, -, j, hs⟩ := hstored hok
  exact ⟨hs.fileText hsound, hs.fileBytes, cut_eq_iff raw⟩

/-- A file of the abstract model, and the room for it. -/
theorem Running.fileText {s : Conf FsMem Machine} {a : Files} (h : Running cp N s a) (hn : name ∈ a.names) :
    ∃ i, lookup (logicalDisk cp s.dev) name = some i ∧
      SpectreOS.fileText (logicalDisk cp s.dev) s.mem name = some (a.data name) ∧ a.free * 512 ≤ roomFor s.mem i := by
  have hag := h.refines.agrees
  obtain ⟨i, hi⟩ := hag.mem_iff.1 hn
  have hs : Stores (logicalDisk cp s.dev) s.mem name i (a.data name) := ⟨hi, hag.files name i hi⟩
  refine ⟨i, hi, hs.fileText h.refines.sound, ?_⟩
  rw [roomFor, hag.free]
  omega

end Resave

/-- A file of one line of `n` bytes. -/
def lineFile (n : Nat) : List Call :=
  [.create nameA, .open nameA, .write 0 (some (List.replicate n 0x78)), .close 0]

theorem lineFile_permitted (n : Nat) : Files.PermitsAll (lineFile n) (Files.empty 71) :=
  ⟨trivial, trivial, trivial, trivial, trivial⟩

theorem lineFile_files : ∀ n ∈ [1, 80], nameA ∈ (Files.run (lineFile n) (Files.empty 71)).2.names ∧
    (Files.run (lineFile n) (Files.empty 71)).2.data nameA = List.replicate n 0x78 ∧
    (Files.run (lineFile n) (Files.empty 71)).2.handles 0 = none ∧
    (Files.run (lineFile n) (Files.empty 71)).2.free = 70 := by
  decide +kernel

theorem Reached.lineFile {cp : Primitives} {s₀ : Conf FsMem Machine} (h : Reached cp 200 s₀ (Files.empty 71))
    {n : Nat} (hn : n ∈ [1, 80]) :
    let s := (runCalls (fsDisk cp) (lineFile n) s₀).2
    Visited cp 200 s ∧ HandleFree s.mem ∧ ∃ i, lookup (logicalDisk cp s.dev) nameA = some i ∧
      fileText (logicalDisk cp s.dev) s.mem nameA = some (List.replicate n 0x78) ∧
      fileBytes (logicalDisk cp s.dev) s.mem nameA = some (List.replicate n 0x78) ∧
      (ended (List.replicate n 0x78)).length ≤ roomFor s.mem i := by
  obtain ⟨-, hrun⟩ := h.running.calls (SpectreOS.lineFile n) (lineFile_permitted n)
  obtain ⟨hname, hdata, hclosed, hfree⟩ := lineFile_files n hn
  obtain ⟨i, hi, htext, hroom⟩ := hrun.fileText hname
  have hbytes := hrun.fileBytes nameA
  rw [if_pos hname, hdata] at hbytes
  rw [hdata] at htext
  rw [hfree] at hroom
  have hended : ∀ k ∈ [1, 80], (ended (List.replicate k (0x78 : Byte))).length ≤ 70 * 512 := by decide +kernel
  exact ⟨h.visited.runCalls _, hrun.refines.handleFree_iff.2 ⟨0, by decide, hclosed⟩, i, hi, htext, hbytes,
    (hended n hn).trans hroom⟩

/-- One byte is left as it is, with a newline. -/
theorem nano_resaved_byte :
    ∃ s₀, fsFormat (current nullPrimitives) (fun _ => 0) (bootConf (blankDrive 200)) = (true, s₀) ∧
      let s := (runCalls (fsDisk nullPrimitives) (lineFile 1) s₀).2
      let S := nanoServices (fsDisk nullPrimitives) (idleServices _)
      let s' := (((consoleBoot (.ofImage fun _ => 0) s).nanoOpen S nameA.val).nanoKeys S [.ctrl 0x6f, .enter]).world
      fileText (logicalDisk nullPrimitives s'.dev) s'.mem nameA = some [0x78, 10] := by
  obtain ⟨s₀, hs₀, hreach⟩ := reached_boot nullPrimitives
  have hfile := hreach.lineFile (show 1 ∈ [1, 80] by decide)
  refine ⟨s₀, hs₀, ?_⟩
  generalize (runCalls (fsDisk nullPrimitives) (lineFile 1) s₀).2 = s at hfile ⊢
  obtain ⟨hvisited, hhandle, i, hi, htext, -, hroom⟩ := hfile
  obtain ⟨hsaved, -, -⟩ := nano_resaved (idleServices _) (consoleBoot (.ofImage fun _ => 0) s) hvisited
    hi htext hhandle hroom
  exact hsaved.trans (congrArg some (by decide +kernel))

/-- Of a line of 80 bytes 79 are left. -/
theorem nano_resaved_short :
    ∃ s₀, fsFormat (current nullPrimitives) (fun _ => 0) (bootConf (blankDrive 200)) = (true, s₀) ∧
      let s := (runCalls (fsDisk nullPrimitives) (lineFile 80) s₀).2
      let S := nanoServices (fsDisk nullPrimitives) (idleServices _)
      let s' := (((consoleBoot (.ofImage fun _ => 0) s).nanoOpen S nameA.val).nanoKeys S [.ctrl 0x6f, .enter]).world
      HandleFree s.mem ∧ fileBytes (logicalDisk nullPrimitives s.dev) s.mem nameA = some (List.replicate 80 0x78) ∧
        ∃ new, fileBytes (logicalDisk nullPrimitives s'.dev) s'.mem nameA = some new ∧
          new ≠ List.replicate 80 0x78 ∧ new ≠ List.replicate 80 0x78 ++ [10] := by
  obtain ⟨s₀, hs₀, hreach⟩ := reached_boot nullPrimitives
  have hfile := hreach.lineFile (show 80 ∈ [1, 80] by decide)
  refine ⟨s₀, hs₀, ?_⟩
  generalize (runCalls (fsDisk nullPrimitives) (lineFile 80) s₀).2 = s at hfile ⊢
  obtain ⟨hvisited, hhandle, i, hi, htext, hbytes, hroom⟩ := hfile
  obtain ⟨-, hsaved, -⟩ := nano_resaved (idleServices _) (consoleBoot (.ofImage fun _ => 0) s) hvisited
    hi htext hhandle hroom
  exact ⟨hhandle, hbytes, _, hsaved, by decide +kernel, by decide +kernel⟩

end SpectreOS
