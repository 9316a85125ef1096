/-
`cp` and `mv` (shell.c). There is no rename: both open the source, create the destination, open it
and copy in chunks of 512 bytes, and `mv` deletes the source after that, which is where the two
commands differ but for the texts they print. The copy loop has no bound in the code; here it runs on fuel, one
round a unit.
-/
import SpectreOS.Console.Saving
import SpectreOS.Fs.Visited

namespace SpectreOS

open BlockIO Prog

/-- What `shell_cmd_cp` and `shell_cmd_mv` report: one text each. -/
inductive CopyReport where
  | usage
  | tooManyArguments
  | sourceNotFound
  | destinationExists
  | sourceNotOpened
  | destinationNotCreated
  | destinationNotOpened
  | failed
  | notRemoved
  | done
  deriving DecidableEq

/-- The two file names of the command. -/
def copyArguments (args : CStr) : Except CopyReport (CStr × CStr) :=
  match shellGetToken args.val fsMaxFilename with
  | none => .error .usage
  | some (src, rest) =>
    match shellGetToken rest fsMaxFilename with
    | none => .error .usage
    | some (dst, rest) => if shellSkipSpaces rest = [] then .ok (cStr src, cStr dst) else .error .tooManyArguments

/-- The copy loop: whether the copy is complete; none if there was not enough fuel. -/
def copyLoop (srcFd dstFd : Int) : Nat → FsM (Option Bool)
  | 0 => pure none
  | fuel + 1 => do
    let (n, chunk) ← fsRead srcFd true 512
    if n < 0 then pure (some false)
    else if n = 0 then pure (some true)
    else
      let w ← fsWrite dstFd (some chunk)
      if w < 0 ∨ w ≠ n then pure (some false) else copyLoop srcFd dstFd fuel

/-- The copy, once both files are open. -/
def copyOpened (fuel : Nat) (dst : CStr) (srcFd dstFd : Int) : FsM (Option CopyReport) := do
  match ← copyLoop srcFd dstFd fuel with
  | none => pure none
  | some ok =>
    let _ ← fsClose srcFd
    let _ ← fsClose dstFd
    if !ok then
      let _ ← fsDelete dst
      pure (some .failed)
    else pure (some .done)

/-- The copy, once the source is open. -/
def copyInto (fuel : Nat) (dst : CStr) (srcFd : Int) : FsM (Option CopyReport) := do
  let created ← fsCreate dst
  if created = 0 then
    let _ ← fsClose srcFd
    pure (some .destinationNotCreated)
  else
    let dstFd ← fsOpen dst
    if dstFd < 0 then
      let _ ← fsClose srcFd
      pure (some .destinationNotOpened)
    else copyOpened fuel dst srcFd dstFd

/-- What both commands do after the arguments are read, up to the end of the copy. -/
def copyFile (fuel : Nat) (src dst : CStr) : FsM (Option CopyReport) := do
  let found ← fsExists src
  if found = 0 then pure (some .sourceNotFound)
  else
    let taken ← fsExists dst
    if taken ≠ 0 then pure (some .destinationExists)
    else
      let srcFd ← fsOpen src
      if srcFd < 0 then pure (some .sourceNotOpened) else copyInto fuel dst srcFd

/-- `shell_cmd_cp`. -/
def shellCmdCp (fuel : Nat) (args : CStr) : FsM (Option CopyReport) :=
  match copyArguments args with
  | .error report => pure (some report)
  | .ok (src, dst) => copyFile fuel src dst

/-- `shell_cmd_mv`. -/
def shellCmdMv (fuel : Nat) (args : CStr) : FsM (Option CopyReport) :=
  match copyArguments args with
  | .error report => pure (some report)
  | .ok (src, dst) => do
    match ← copyFile fuel src dst with
    | some .done =>
      let removed ← fsDelete src
      pure (some (if removed = 0 then .notRemoved else .done))
    | report => pure report

/-! ## During the copy -/

section Copying

variable {N i j a b : Nat} {dst : CStr} {d d' d'' : Nat → Sector} {m m' m'' : FsMem}

theorem SameFile.trans {k : Nat} (h : SameFile d m d' m' k) (h' : SameFile d' m' d'' m'' k) : SameFile d m d'' m'' k :=
  ⟨h'.1.trans h.1, fun p => (h'.2 p).trans (h.2 p)⟩

/-- Besides the new file `j` of the name `dst`, and the handles `a` on inode `i` and `b` on inode `j`,
everything is as in `d` and `m`. -/
structure Copying (N : Nat) (d : Nat → Sector) (m : FsMem) (dst : CStr) (i j a b : Nat)
    (d' : Nat → Sector) (m' : FsMem) :
    Prop extends Working N d' m' where
  names : ∀ n, lookup d' n = if n = dst then some j else lookup d n
  files : ∀ k, 1 ≤ k → k ≠ j → SameFile d m d' m' k
  others : ∀ fd, fd ≠ a → fd ≠ b → m'.handles fd = m.handles fd
  source : (m'.handles a).inode = i
  copy : (m'.handles b).inode = j

/-- A read moves the first handle on. -/
theorem Copying.read {res : Int × List Byte} (h : Copying N d m dst i j a b d' m') (ha : a < 16) (hab : a ≠ b)
    (hr : ReadFrom false d' m' a true 512 res m'') : ∃ n : Nat, res.1 = n ∧
      n ≤ (m'.inode i).size - (m'.handles a).position ∧ (m''.handles a).position = (m'.handles a).position + n ∧
      m''.inode i = m'.inode i ∧ Copying N d m dst i j a b d' m'' := by
  have hwork : Working N d' m'' :=
    @Working.step N d' d' m' m'' (.read a true 512) ⟨res.1, res.2⟩ h.toWorking ⟨rfl, hr⟩ hr.frame.2.2
  cases hr with
  | refused hno =>
    have husable : handleUsable m' a true = true := by
      rw [handleUsable_iff]
      refine ⟨h.ready, rfl, by omega, by omega, ?_⟩
      rw [Int.toNat_natCast, h.source]
      omega
    rw [husable] at hno
    cases hno
  | done n _ hle _ =>
    rw [Int.toNat_natCast, h.source, Int.toNat_natCast] at hle
    rw [Int.toNat_natCast] at hwork ⊢
    refine ⟨n, rfl, by omega, ?_, rfl, hwork, h.names, h.files, fun fd hfa hfb => ?_, ?_, ?_⟩
    · simp [setHandle]
    · simpa [setHandle, Function.update_of_ne hfa] using h.others fd hfa hfb
    · simpa [setHandle] using h.source
    · simpa [setHandle, Function.update_of_ne hab.symm] using h.copy

theorem WroteTo.handles {r w : Bool} {fd : Int} {buffer : Option (List Byte)} {res : Int}
    (hw : WroteTo r w d m fd buffer res d' m') {k : Nat} (hk : k ≠ fd.toNat) : m'.handles k = m.handles k := by
  cases hw with
  | refused | full => rfl
  | done n d₁ m₁ _ _ _ W =>
    rw [handles_finishWrite, Function.update_of_ne hk, W.grows.frame.2.1]

/-- A write to the second handle changes the new file only. -/
theorem Copying.write {res : Int} {input : List Byte} (h : Copying N d m dst i j a b d' m') (hij : i ≠ j)
    (hab : a ≠ b) (hw : WroteTo false false d' m' b (some input) res d'' m'') :
    Copying N d m dst i j a b d'' m'' ∧ m''.handles a = m'.handles a ∧ m''.inode i = m'.inode i := by
  obtain ⟨hentries, -, hinodes, hready, hsame⟩ := hw.frame h.sound
  have hwork : Working N d'' m'' :=
    @Working.step N d' d'' m' m'' (.write b (some input)) ⟨res, []⟩ h.toWorking ⟨rfl, hw⟩ hready
  rw [Int.toNat_natCast, h.copy] at hsame
  have hsame : ∀ k : Nat, k ≠ j → SameFile d' m' d'' m'' k := fun k hk => hsame k fun e => hk (Int.natCast_inj.1 e)
  refine ⟨⟨hwork, fun n => (lookup_congr hentries).trans (h.names n),
    fun k hk hkj => (h.files k hk hkj).trans (hsame k hkj),
    fun fd hfa hfb => (hw.handles hfb).trans (h.others fd hfa hfb), (hinodes a).trans h.source,
    (hinodes b).trans h.copy⟩,
    hw.handles hab, (hsame i hij).1⟩

/-- The loop ends within a round for every byte of the source that is left, and one more. -/
theorem copyLoop_copying (fuel : Nat) (h : Copying N d m dst i j a b d' m') (hij : i ≠ j) (ha : a < 16)
    (hab : a ≠ b) (hfuel : (m'.inode i).size - (m'.handles a).position < fuel) :
    (copyLoop a b fuel).wp (exact N false false)
      (fun res d'' m'' => res ≠ none ∧ Copying N d m dst i j a b d'' m'') d' m' := by
  induction fuel generalizing d' m' with
  | zero => omega
  | succ fuel ih =>
    rw [copyLoop]
    refine (fsRead_exact h.sound a true 512).seq ?_
    rintro ⟨n, chunk⟩ d₁ m₁ ⟨rfl, hr⟩
    obtain ⟨k, hn, hle, hpos, hinode, hread⟩ := h.read ha hab hr
    simp only at hn
    subst hn
    simp only
    rw [if_neg (by omega)]
    split
    · exact ⟨nofun, hread⟩
    · refine (fsWrite_exact hread.sound b (some chunk)).seq ?_
      intro w d₂ m₂ hw
      obtain ⟨hwritten, hhandle, hsize⟩ := hread.write hij hab hw
      split
      · exact ⟨nofun, hwritten⟩
      · refine ih hwritten ?_
        rw [hhandle, hsize, hpos, hinode]
        omega

end Copying

/-! ## The outcome -/

/-- The names, the contents of the files and the open handles are as before. -/
structure Unchanged (d : Nat → Sector) (m : FsMem) (d' : Nat → Sector) (m' : FsMem) : Prop where
  names : ∀ n, lookup d' n = lookup d n
  contents : ∀ n, fileBytes d' m' n = fileBytes d m n
  handles : ∀ fd, m'.handles fd = m.handles fd ∨ (m.handles fd).inode < 0 ∧ (m'.handles fd).inode < 0

/-- All handles but one are open. -/
def OneHandleFree (m : FsMem) : Prop := ∃ k < 16, ∀ fd < 16, ((m.handles fd).inode < 0 ↔ fd = k)

/-- The destination can be created, but not opened beside the source. -/
structure LeavesCopy (d : Nat → Sector) (m : FsMem) (src dst : CStr) : Prop where
  ready : m.filesystemReady = true
  source : lookup d src ≠ none
  absent : lookup d dst = none
  valid : validName dst = true
  inode : firstFreeInode m ≠ none
  handle : OneHandleFree m

section Outcome

variable {N : Nat} {d d' : Nat → Sector} {m m' : FsMem} {src dst : CStr}

theorem Unchanged.refl (d : Nat → Sector) (m : FsMem) : Unchanged d m d m :=
  ⟨fun _ => rfl, fun _ => rfl, fun _ => .inl rfl⟩

/-- A handle that was opened is closed again. -/
theorem unchanged_reclosed {a : Nat} {hd : Handle} (ha : (m.handles a).inode < 0) :
    Unchanged d m d (setHandle (setHandle m a hd) a .closed) := by
  refine ⟨fun _ => rfl, fun _ => rfl, fun fd => ?_⟩
  by_cases hfd : fd = a
  · subst hfd
    exact .inr ⟨ha, by simp [setHandle, Handle.closed]⟩
  · exact .inl (by simp [setHandle, Function.update_of_ne hfd])

/-- The new file is deleted again and both handles are closed. -/
theorem Copying.undone {i j a b : Nat} {d'' : Nat → Sector} (h : Copying N d m dst i j a b d' m') (hw : Working N d m)
    (hnone : lookup d dst = none) (hj : firstFreeInode m = some j) (ha : (m.handles a).inode < 0)
    (hb : (m.handles b).inode < 0) (hnames : ∀ n, lookup d'' n = if n = dst then none else lookup d' n)
    (hd : ∀ l, 129 ≤ l → d'' l = d' l) :
    Unchanged d m d'' (releaseInode (setHandle (setHandle m' a .closed) b .closed) j) := by
  obtain ⟨q1, -, q3, -, -⟩ := releaseInode_spec (setHandle (setHandle m' a .closed) b .closed) j h.sound.owned.totalHi
  have hlook : ∀ n, lookup d'' n = lookup d n := by
    intro n
    rw [hnames, h.names]
    split
    · rename_i e
      rw [e, hnone]
    · rfl
  refine ⟨hlook, fun n => fileBytes_same (hlook n) fun k hk => ?_, fun fd => ?_⟩
  · have hkj : k ≠ j := by
      rintro rfl
      have hfile := hw.linked.lookup_file hk
      rw [(firstFreeInode_some hj).2.1] at hfile
      cases hfile
    have hk1 := (hw.sound.lookup_lt hk).1
    refine (h.files k hk1 hkj).trans (h.sound.sameFile hk1 ?_ hd)
    rw [q1, if_neg fun e => hkj e.1]
    rfl
  · rw [q3]
    by_cases hfb : fd = b
    · subst hfb
      exact .inr ⟨hb, by simp [setHandle, Handle.closed]⟩
    · by_cases hfa : fd = a
      · subst hfa
        exact .inr ⟨ha, by simp [setHandle, Function.update_of_ne hfb, Handle.closed]⟩
      · exact .inl
          (by simpa [setHandle, Function.update_of_ne hfa, Function.update_of_ne hfb] using h.others fd hfa hfb)

/-- How a copy ends: an error leaves everything as it was, unless the destination cannot be opened. -/
inductive CopyOutcome (d : Nat → Sector) (m : FsMem) (src dst : CStr) (d' : Nat → Sector) (m' : FsMem) :
    CopyReport → Prop
  | error (report : CopyReport) : report ≠ .done → Unchanged d m d' m' → ¬ LeavesCopy d m src dst →
      CopyOutcome d m src dst d' m' report
  | left : LeavesCopy d m src dst → lookup d' dst ≠ none → CopyOutcome d m src dst d' m' .destinationNotOpened
  | done : ¬ LeavesCopy d m src dst → lookup d' src ≠ none → CopyOutcome d m src dst d' m' .done

theorem copyOpened_outcome {i j a b fuel : Nat} (h : Copying N d m dst i j a b d' m') (hw : Working N d m)
    (hi : lookup d src = some i) (hnone : lookup d dst = none) (hj : firstFreeInode m = some j)
    (ha : a < 16) (hb : b < 16) (haneg : (m.handles a).inode < 0) (hbneg : (m.handles b).inode < 0) (hij : i ≠ j)
    (hab : a ≠ b) (hfuel : 16384 < fuel) :
    (copyOpened fuel dst a b).wp (exact N false false) (fun res d'' m'' =>
      Working N d'' m'' ∧ ∃ report, res = some report ∧ (report ≠ .done ∧ Unchanged d m d'' m'' ∨
        report = .done ∧ lookup d'' src ≠ none)) d' m' := by
  unfold copyOpened
  refine (copyLoop_copying fuel h hij ha hab ?_).seq ?_
  · have hsize := h.sound.sizes i
    omega
  rintro (_ | ok) d₁ m₁ ⟨hfuelled, hcopied⟩
  · exact absurd rfl hfuelled
  refine (fsClose_working ha).seq ?_
  rintro - d₂ m₂ ⟨rfl, rfl⟩
  refine (fsClose_working hb).seq ?_
  rintro - d₃ m₃ ⟨rfl, rfl⟩
  have hclosed : Working N d₃ (setHandle (setHandle m₁ a .closed) b .closed) :=
    (hcopied.toWorking.setHandle (.inl rfl) (Nat.zero_le _)).setHandle (.inl rfl) (Nat.zero_le _)
  cases ok with
  | true =>
    refine ⟨hclosed, _, rfl, .inr ⟨rfl, ?_⟩⟩
    rw [hcopied.names, if_neg, hi]
    · exact Option.some_ne_none i
    · rintro rfl
      rw [hnone] at hi
      cases hi
  | false =>
    refine (fsDelete_working hclosed dst).seq ?_
    rintro res d₄ m₄ (⟨-, -, -, hgone⟩ | ⟨k, -, hk, rfl, hdeleted, hnames, hd⟩)
    · rw [hcopied.names, if_pos rfl] at hgone
      cases hgone
    · rw [hcopied.names, if_pos rfl] at hk
      obtain rfl := Option.some.inj hk
      exact ⟨hdeleted, _, rfl, .inl ⟨nofun, hcopied.undone hw hnone hj haneg hbneg hnames hd⟩⟩

theorem copyInto_outcome (h : Working N d m) {i a fuel : Nat} (hi : lookup d src = some i) (hnone : lookup d dst = none)
    (ha : a < 16) (haneg : (m.handles a).inode < 0) (hw : Working N d (setHandle m a ⟨i, 0⟩)) (hfuel : 16384 < fuel) :
    (copyInto fuel dst a).wp (exact N false false) (fun res d' m' =>
      Working N d' m' ∧ ∃ report, res = some report ∧ CopyOutcome d m src dst d' m' report) d
        (setHandle m a ⟨i, 0⟩) := by
  unfold copyInto
  refine (fsCreate_working hw dst).seq ?_
  rintro created d₁ m₁ (⟨rfl, rfl, rfl, hwhy⟩ | ⟨j, rfl, hvalid, -, hj, rfl, hw₁, hnames, hd⟩)
  · rw [if_pos rfl]
    refine (fsClose_working ha).seq ?_
    rintro - d₂ m₂ ⟨rfl, rfl⟩
    exact ⟨hw.setHandle (.inl rfl) (Nat.zero_le _), _, rfl,
      .error _ nofun (unchanged_reclosed haneg) fun hc => hwhy ⟨hc.valid, hc.absent, hc.inode⟩⟩
  rw [if_neg (by decide)]
  change firstFreeInode m = some j at hj
  refine (fsOpen_working hw₁ dst).seq ?_
  rintro dstFd d₂ m₂ ⟨rfl, ⟨rfl, rfl, hwhy⟩ | ⟨j', b, rfl, hj', hb, hbneg, rfl, hw₂⟩⟩
  · -- the destination stays behind
    rw [if_pos (by decide)]
    refine (fsClose_working ha).seq ?_
    rintro - d₃ m₃ ⟨rfl, rfl⟩
    have hnew : lookup d₃ dst ≠ none := by
      rw [hnames, if_pos rfl]
      exact Option.some_ne_none j
    have hfull := hwhy.resolve_left hnew
    refine ⟨hw₁.setHandle (.inl rfl) (Nat.zero_le _), _, rfl,
      .left ⟨h.ready, ?_, hnone, hvalid, ?_, a, ha, fun fd hfd =>
      ⟨fun hneg => ?_, ?_⟩⟩ hnew⟩
    · rw [hi]
      exact Option.some_ne_none i
    · exact Option.ne_none_iff_exists'.2 ⟨j, hj⟩
    · by_contra hne
      refine hfull ⟨fd, hfd, ?_⟩
      simpa [setInode, setHandle, Function.update_of_ne hne] using hneg
    · rintro rfl
      exact haneg
  · -- the handle of the source is open, so the destination has got another one
    obtain rfl : j' = j := by
      rw [hnames, if_pos rfl] at hj'
      exact (Option.some.inj hj').symm
    have hij : i ≠ j' := by
      rintro rfl
      have hfile := h.linked.lookup_file hi
      rw [(firstFreeInode_some hj).2.1] at hfile
      cases hfile
    have hab : a ≠ b := by
      rintro rfl
      simp only [setInode, setHandle, Function.update_self] at hbneg
      omega
    have hbneg : (m.handles b).inode < 0 := by simpa [setInode, setHandle, Function.update_of_ne hab.symm] using hbneg
    have hno : ¬ LeavesCopy d m src dst := by
      intro hc
      obtain ⟨k, hk, hall⟩ := hc.handle
      exact hab (((hall a ha).1 haneg).trans ((hall b hb).1 hbneg).symm)
    have hstart : Copying N d m dst i j' a b d₂ (setHandle (setInode (setHandle m a ⟨i, 0⟩) j' .fresh) b ⟨j', 0⟩) := by
      refine ⟨hw₂, hnames, fun k hk hkj => h.sound.sameFile hk ?_ hd, fun fd hfa hfb => ?_, ?_, ?_⟩
      · rw [inode_setHandle, inode_setInode, if_neg fun e => hkj e.1, inode_setHandle]
      · simp [setInode, setHandle, Function.update_of_ne hfa, Function.update_of_ne hfb]
      · simp [setInode, setHandle, Function.update_of_ne hab]
      · simp [setHandle]
    rw [if_neg (by omega)]
    refine (copyOpened_outcome hstart h hi hnone hj ha hb haneg hbneg hij hab hfuel).mono ?_
    rintro res d₃ m₃ ⟨hend, report, rfl, ⟨hne, hsame⟩ | ⟨rfl, hfound⟩⟩
    · exact ⟨hend, _, rfl, .error _ hne hsame hno⟩
    · exact ⟨hend, _, rfl, .done hno hfound⟩

theorem copyFile_outcome (h : Working N d m) {fuel : Nat} (hfuel : 16384 < fuel) (src dst : CStr) :
    (copyFile fuel src dst).wp (exact N false false) (fun res d' m' =>
      Working N d' m' ∧ ∃ report, res = some report ∧ CopyOutcome d m src dst d' m' report) d m := by
  have hsame := Unchanged.refl d m
  unfold copyFile
  refine (fsExists_working h src).seq ?_
  rintro found d₁ m₁ ⟨rfl, rfl, hfound⟩
  split
  · rename_i h0
    exact ⟨h, _, rfl, .error _ nofun hsame fun hc => hc.source (hfound.1 h0)⟩
  refine (fsExists_working h dst).seq ?_
  rintro taken d₁ m₁ ⟨rfl, rfl, htaken⟩
  split
  · rename_i h1
    exact ⟨h, _, rfl, .error _ nofun hsame fun hc => h1 (htaken.2 hc.absent)⟩
  rename_i h1
  refine (fsOpen_working h src).seq ?_
  rintro srcFd d₁ m₂ ⟨rfl, ⟨rfl, rfl, hwhy⟩ | ⟨i, a, rfl, hi, ha, haneg, rfl, hw⟩⟩
  · rw [if_pos (by decide)]
    refine ⟨h, _, rfl, .error _ nofun hsame fun hc => ?_⟩
    obtain ⟨k, hk, hall⟩ := hc.handle
    rcases hwhy with hno | hno
    · exact hc.source hno
    · exact hno ⟨k, hk, (hall k hk).2 rfl⟩
  · rw [if_neg (by omega)]
    exact copyInto_outcome h hi (htaken.1 (not_not.1 h1)) ha haneg hw hfuel

/-- With every handle in use the source cannot be opened. -/
theorem copyFile_no_handle (h : Working N d m) (hsrc : lookup d src ≠ none) (hdst : lookup d dst = none)
    (hfull : ¬ HandleFree m) (fuel : Nat) :
    (copyFile fuel src dst).wp (exact N false false)
      (fun res d' m' => Working N d' m' ∧ res = some .sourceNotOpened) d m := by
  unfold copyFile
  refine (fsExists_working h src).seq ?_
  rintro found d₁ m₁ ⟨rfl, rfl, hfound⟩
  rw [if_neg fun h0 => hsrc (hfound.1 h0)]
  refine (fsExists_working h dst).seq ?_
  rintro taken d₁ m₁ ⟨rfl, rfl, htaken⟩
  rw [if_neg (not_not.2 (htaken.2 hdst))]
  refine (fsOpen_working h src).seq ?_
  rintro srcFd d₁ m₂ ⟨rfl, ⟨rfl, rfl, -⟩ | ⟨i, a, rfl, -, ha, haneg, -, -⟩⟩
  · exact ⟨h, rfl⟩
  · exact absurd ⟨a, ha, haneg⟩ hfull

/-- The arguments are such that the destination may be left behind. -/
def LeavesArguments (d : Nat → Sector) (m : FsMem) (args : CStr) : Prop :=
  ∃ src dst, copyArguments args = .ok (src, dst) ∧ LeavesCopy d m src dst

/-- A report of an error means that nothing has changed. -/
def KeepsOnError (d : Nat → Sector) (m : FsMem) (report : CopyReport) (d' : Nat → Sector) (m' : FsMem) : Prop :=
  report ≠ .done → Unchanged d m d' m'

theorem CopyOutcome.keeps_iff {report : CopyReport} (h : CopyOutcome d m src dst d' m' report) :
    KeepsOnError d m report d' m' ↔ ¬ LeavesCopy d m src dst := by
  cases h with
  | error _ _ hsame hno => exact iff_of_true (fun _ => hsame) hno
  | left hleaves hnew =>
    refine iff_of_false (fun hsame => ?_) (not_not.2 hleaves)
    rw [(hsame nofun).names, hleaves.absent] at hnew
    exact hnew rfl
  | done hno _ => exact iff_of_true (absurd rfl) hno

theorem leavesArguments_iff {args : CStr} (h : copyArguments args = .ok (src, dst)) :
    LeavesArguments d m args ↔ LeavesCopy d m src dst := by
  unfold LeavesArguments
  simp only [h, Except.ok.injEq, Prod.mk.injEq]
  constructor
  · rintro ⟨_, _, ⟨rfl, rfl⟩, hc⟩
    exact hc
  · exact fun hc => ⟨_, _, ⟨rfl, rfl⟩, hc⟩

theorem shellCmdCp_outcome (h : Working N d m) {fuel : Nat} (hfuel : 16384 < fuel) (args : CStr) :
    (shellCmdCp fuel args).wp (exact N false false) (fun res d' m' => Working N d' m' ∧
      ∃ report, res = some report ∧ (KeepsOnError d m report d' m' ↔ ¬ LeavesArguments d m args)) d m := by
  unfold shellCmdCp
  cases hargs : copyArguments args with
  | error report =>
    refine ⟨h, _, rfl, iff_of_true (fun _ => .refl d m) ?_⟩
    rintro ⟨src, dst, hok, -⟩
    rw [hargs] at hok
    cases hok
  | ok names =>
    rw [leavesArguments_iff hargs]
    refine (copyFile_outcome h hfuel names.1 names.2).mono ?_
    rintro res d' m' ⟨hend, report, rfl, hout⟩
    exact ⟨hend, _, rfl, hout.keeps_iff⟩

theorem shellCmdMv_outcome (h : Working N d m) {fuel : Nat} (hfuel : 16384 < fuel) (args : CStr) :
    (shellCmdMv fuel args).wp (exact N false false) (fun res d' m' => Working N d' m' ∧
      ∃ report, res = some report ∧ (KeepsOnError d m report d' m' ↔ ¬ LeavesArguments d m args)) d m := by
  unfold shellCmdMv
  cases hargs : copyArguments args with
  | error report =>
    refine ⟨h, _, rfl, iff_of_true (fun _ => .refl d m) ?_⟩
    rintro ⟨src, dst, hok, -⟩
    rw [hargs] at hok
    cases hok
  | ok names =>
    rw [leavesArguments_iff hargs]
    refine (copyFile_outcome h hfuel names.1 names.2).seq ?_
    rintro res d' m' ⟨hend, report, rfl, hout⟩
    cases hout with
    | error _ hne hsame hno =>
      cases report with
      | done => exact absurd rfl hne
      | _ => exact ⟨hend, _, rfl, iff_of_true (fun _ => hsame) hno⟩
    | left hleaves hnew => exact ⟨hend, _, rfl, (CopyOutcome.left hleaves hnew).keeps_iff⟩
    | done hno hfound =>
      -- the source is still there, so it is deleted
      refine (fsDelete_working hend names.1).seq ?_
      rintro removed d'' m'' (⟨-, -, -, hnone⟩ | ⟨i, rfl, -, -, hdeleted, -, -⟩)
      · exact absurd hnone hfound
      · exact ⟨hdeleted, _, rfl, iff_of_true (absurd rfl) hno⟩

end Outcome

/-! ## The commands -/

section Commands

variable {cp : Primitives} {N : Nat} {s : Conf FsMem Machine}

/-- An unmounted filesystem has no source. -/
theorem copyFile_unready {δ : Type} (D : Device δ Sector) {s : Conf FsMem δ}
    (h : s.mem.filesystemReady = false) (fuel : Nat) (src dst : CStr) :
    (copyFile fuel src dst).run D s = (some .sourceNotFound, s) := by
  simp [copyFile, fsExists, h]

/-- An error of `cp` or `mv` leaves the names, the files and the open handles as they were, on every
filesystem on which nothing has failed and for all arguments, but for one case: the source exists,
the destination can be created, and there is one handle only for the two of them. -/
theorem copy_unchanged_iff (h : Visited cp N s ∨ s.mem.filesystemReady = false) {fuel : Nat} (hfuel : 16384 < fuel)
    (args : CStr) :
    let r := (shellCmdCp fuel args).run (fsDisk cp) s
    let q := (shellCmdMv fuel args).run (fsDisk cp) s
    (∃ report, r.1 = some report ∧ (KeepsOnError (logicalDisk cp s.dev) s.mem report (logicalDisk cp r.2.dev) r.2.mem ↔
        ¬ LeavesArguments (logicalDisk cp s.dev) s.mem args)) ∧
      ∃ report, q.1 = some report ∧ (KeepsOnError (logicalDisk cp s.dev) s.mem report (logicalDisk cp q.2.dev) q.2.mem ↔
        ¬ LeavesArguments (logicalDisk cp s.dev) s.mem args) := by
  intro r q
  rcases h with h | h
  · have hh := h.healthy
    obtain ⟨⟨-, hr⟩, -⟩ := hh.live.exec (shellCmdCp_outcome hh.working hfuel args) fun _ _ _ hw => hw.1.sound
    obtain ⟨⟨-, hq⟩, -⟩ := hh.live.exec (shellCmdMv_outcome hh.working hfuel args) fun _ _ _ hw => hw.1.sound
    exact ⟨hr, hq⟩
  · have hno : ¬ LeavesArguments (logicalDisk cp s.dev) s.mem args := by
      rintro ⟨src, dst, -, hc⟩
      have hready := hc.ready
      rw [h] at hready
      cases hready
    have hrun : (∃ report, r = (some report, s)) ∧ ∃ report, q = (some report, s) := by
      simp only [r, q, shellCmdCp, shellCmdMv]
      cases copyArguments args with
      | error report => exact ⟨⟨_, rfl⟩, _, rfl⟩
      | ok names => exact ⟨⟨_, copyFile_unready _ h ..⟩, _, by rw [run_bind, copyFile_unready _ h]; rfl⟩
    obtain ⟨⟨_, hr⟩, _, hq⟩ := hrun
    rw [hr, hq]
    exact ⟨⟨_, rfl, iff_of_true (fun _ => .refl _ _) hno⟩, _, rfl, iff_of_true (fun _ => .refl _ _) hno⟩

end Commands

/-- The arguments "a b". -/
def argumentsAB : CStr := ⟨ascii "a b", by decide⟩

theorem copyArguments_AB : copyArguments argumentsAB = .ok (nameA, nameB) := by
  rw [← cStr_val nameA, ← cStr_val nameB]
  rfl

/-- Both commands report that they could not open the source. -/
theorem Visited.copy_no_handle {cp : Primitives} {N : Nat} {s : Conf FsMem Machine} (h : Visited cp N s)
    {args src dst : CStr} (hargs : copyArguments args = .ok (src, dst))
    (hsrc : lookup (logicalDisk cp s.dev) src ≠ none) (hdst : lookup (logicalDisk cp s.dev) dst = none)
    (hfull : ¬ HandleFree s.mem) (fuel : Nat) :
    ((shellCmdCp fuel args).run (fsDisk cp) s).1 = some .sourceNotOpened ∧
      ((shellCmdMv fuel args).run (fsDisk cp) s).1 = some .sourceNotOpened := by
  obtain ⟨⟨-, hcopy⟩, -⟩ := h.healthy.live.exec (copyFile_no_handle h.healthy.working hsrc hdst hfull fuel)
    fun _ _ _ hw => hw.1.sound
  constructor
  · simp only [shellCmdCp, hargs]
    exact hcopy
  · simp only [shellCmdMv, hargs]
    rw [run_bind, hcopy]
    rfl

/-- No handle is left for the source: `cp` and `mv` report it, and nothing has changed. -/
theorem copy_unchanged_no_handle :
    ∃ s₀, fsFormat (current nullPrimitives) (fun _ => 0) (bootConf (blankDrive 200)) = (true, s₀) ∧
      let s := (runCalls (fsDisk nullPrimitives) openedFully s₀).2
      let r := (shellCmdCp 16385 argumentsAB).run (fsDisk nullPrimitives) s
      let q := (shellCmdMv 16385 argumentsAB).run (fsDisk nullPrimitives) s
      r.1 = some .sourceNotOpened ∧
        Unchanged (logicalDisk nullPrimitives s.dev) s.mem (logicalDisk nullPrimitives r.2.dev) r.2.mem ∧
        q.1 = some .sourceNotOpened ∧
        Unchanged (logicalDisk nullPrimitives s.dev) s.mem (logicalDisk nullPrimitives q.2.dev) q.2.mem := by
  obtain ⟨s₀, hs₀, hreach⟩ := reached_boot nullPrimitives
  obtain ⟨-, hrun⟩ := hreach.running.calls openedFully (by simp [openedFully, Files.PermitsAll, Files.permits])
  obtain ⟨hsrc, hdst, -, hhandles⟩ := openedFully_files
  have hfull := hrun.refines.not_handleFree hhandles
  have hvisited := hreach.visited.runCalls openedFully
  obtain ⟨hcp, hmv⟩ := hvisited.copy_no_handle copyArguments_AB ((hrun.refines.agrees.names nameA).1 hsrc)
    (by_contra fun hne => hdst ((hrun.refines.agrees.names nameB).2 hne)) hfull 16385
  obtain ⟨⟨_, hr, hrkeeps⟩, _, hq, hqkeeps⟩ :=
    copy_unchanged_iff (.inl hvisited) (by decide : 16384 < 16385) argumentsAB
  obtain rfl := Option.some.inj (hcp.symm.trans hr)
  obtain rfl := Option.some.inj (hmv.symm.trans hq)
  -- no handle is free, and a copy that leaves the destination takes one
  have hno : ¬ LeavesArguments (logicalDisk nullPrimitives (runCalls (fsDisk nullPrimitives) openedFully s₀).2.dev)
      (runCalls (fsDisk nullPrimitives) openedFully s₀).2.mem argumentsAB := by
    rintro ⟨_, _, -, hleaves⟩
    obtain ⟨k, hk, hall⟩ := hleaves.handle
    exact hfull ⟨k, hk, (hall k hk).2 rfl⟩
  exact ⟨s₀, hs₀, hcp, hrkeeps.2 hno nofun, hmv, hqkeeps.2 hno nofun⟩

theorem Visited.copy_leaves {cp : Primitives} {N : Nat} {s : Conf FsMem Machine} (h : Visited cp N s) {args : CStr}
    (hleaves : LeavesArguments (logicalDisk cp s.dev) s.mem args) :
    let r := (shellCmdCp 16385 args).run (fsDisk cp) s
    ∃ report, r.1 = some report ∧
      ¬ KeepsOnError (logicalDisk cp s.dev) s.mem report (logicalDisk cp r.2.dev) r.2.mem := by
  obtain ⟨⟨-, report, hr, hkeeps⟩, -⟩ := h.healthy.live.exec
    (shellCmdCp_outcome h.healthy.working (by decide : 16384 < 16385) args) fun _ _ _ hw => hw.1.sound
  exact ⟨report, hr, fun hsame => hkeeps.1 hsame hleaves⟩

/-- When a copy leaves the destination behind, by the files of the abstract model. -/
theorem Refines.leavesCopy {N : Nat} {d : Nat → Sector} {m : FsMem} {a : Files} {src dst : CStr} (h : Refines N d m a)
    (hsrc : src ∈ a.names) (hdst : dst ∉ a.names) (hvalid : validName dst = true) (hfew : a.names.card < 127)
    {k : Nat} (hk : k < 16) (hhandles : ∀ fd < 16, (a.handles fd = none ↔ fd = k)) : LeavesCopy d m src dst where
  ready := h.agrees.ready
  source := (h.agrees.names src).1 hsrc
  absent := by
    by_contra hne
    exact hdst ((h.agrees.names dst).2 hne)
  valid := hvalid
  inode := (h.agrees.few_iff h.sound h.linked).1 hfew
  handle := ⟨k, hk, fun fd hfd => (h.agrees.handles fd hfd).neg_iff.trans (hhandles fd hfd)⟩

/-- A file that is open on fifteen handles. -/
def openedOften : List Call := .create nameA :: List.replicate 15 (.open nameA)

theorem openedOften_files : nameA ∈ (Files.run openedOften (Files.empty 71)).2.names ∧
    nameB ∉ (Files.run openedOften (Files.empty 71)).2.names ∧
    (Files.run openedOften (Files.empty 71)).2.names.card < 127 ∧
    ∀ fd < 16, ((Files.run openedOften (Files.empty 71)).2.handles fd = none ↔ fd = 15) := by decide +kernel

/-- A copy of it reports an error and leaves an empty file. -/
theorem copy_leaves_destination :
    ∃ s₀, fsFormat (current nullPrimitives) (fun _ => 0) (bootConf (blankDrive 200)) = (true, s₀) ∧
      let s := (runCalls (fsDisk nullPrimitives) openedOften s₀).2
      let r := (shellCmdCp 16385 argumentsAB).run (fsDisk nullPrimitives) s
      ∃ report, r.1 = some report ∧
        ¬ KeepsOnError (logicalDisk nullPrimitives s.dev) s.mem report
          (logicalDisk nullPrimitives r.2.dev) r.2.mem := by
  obtain ⟨s₀, hs₀, hreach⟩ := reached_boot nullPrimitives
  obtain ⟨-, hrun⟩ := hreach.running.calls openedOften (by simp [openedOften, Files.PermitsAll, Files.permits])
  obtain ⟨hsrc, hdst, hfew, hhandles⟩ := openedOften_files
  exact ⟨s₀, hs₀, (hreach.visited.runCalls openedOften).copy_leaves
    ⟨nameA, nameB, copyArguments_AB, hrun.refines.leavesCopy hsrc hdst (by decide) hfew (by decide) hhandles⟩⟩

end SpectreOS
