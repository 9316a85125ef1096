/-
When the accesses of a call are in range. The bitmap and the inode table are reached through checked
indexes; but inode numbers are taken from directory entries and sector numbers from inodes, and most
of their uses check neither. A call is `Tame` where those it comes to use are in range; exactly then all
it accesses is (`call_inRange_iff`), on every device, whatever it answers.
-/
import SpectreOS.Fs.Watched
import SpectreOS.Fs.Effects

namespace SpectreOS

open BlockIO Prog

/-! ## Where directory and data lie -/

/-- `inodes[index].direct[block]`; `0` past the last block. -/
def directAt (m : FsMem) (index block : Nat) : Nat :=
  if h : block < fsDirectBlocks then (m.inode index).direct ⟨block, h⟩ else 0

/-- The sector of a directory slot. -/
def slotLba (m : FsMem) (slot : Nat) : Nat := directAt m 0 (slot / perSector)

/-! ## The condition -/

section Tame

variable {δ : Type} (D : Device δ Sector)

/-- A sector that is to be read and written back lies in the data area, if it can be read; `0` stands for
none. -/
def Lands (total : Nat) (c : Conf FsMem δ) (lba : Nat) : Prop :=
  lba ≠ 0 → (D.read c.dev lba).1.isSome = true → InData total lba

/-- The search in the loop of `fs_delete`: the first slot with an entry that names the inode. -/
def findInodeSlot (index : Nat) (slots : List Nat) : FsM (Option Nat) :=
  slots.findSomeM? fun slot => do
    match ← dirReadEntry slot with
    | none => pure none
    | some entry => pure (if entry.used ≠ 0 ∧ entry.inode = index then some slot else none)

/-- If `fs_create` comes to write its entry (there is none of the name, a slot and an inode are free, and
the inode is saved), the slot lies in the data area. -/
def CreateTame (name : CStr) (c : Conf FsMem δ) : Prop :=
  ∀ inode c₁, (findDirEntry name).run D c = (inode, c₁) → inode < 0 →
    ∀ slot c₂, findFreeDirSlot.run D c₁ = (some slot, c₂) → ∀ index, firstFreeInode c₂.mem = some index →
      ∀ c₃, (saveInode index).run D { c₂ with mem := setInode c₂.mem index .fresh } = (true, c₃) →
        Lands D c.mem.superblock.totalSectors c₃ (slotLba c₃.mem slot)

/-- If `fs_delete` comes to clear an entry (the bitmap and the inode are saved), the first one that names the
inode lies in the data area. -/
def ClearTame (total index : Nat) (c : Conf FsMem δ) : Prop :=
  ∀ c₁, saveBitmap.run D { c with mem := releaseInode c.mem index } = (true, c₁) →
    ∀ c₂, (saveInode index).run D c₁ = (true, c₂) →
      ∀ slot c₃, (findInodeSlot index (List.range dirSlots)).run D c₂ = (some slot, c₃) →
        Lands D total c₃ (slotLba c₃.mem slot)

/-- If `fs_delete` finds an entry of the name, the inode that it names is in the table, and so on. -/
def DeleteTame (name : CStr) (c : Conf FsMem δ) : Prop :=
  ∀ inode c₁, (findDirEntry name).run D c = (inode, c₁) → 0 < inode →
    inode.toNat < fsMaxFiles ∧ ClearTame D c.mem.superblock.totalSectors inode.toNat c₁

/-- Wherever the loop of `fs_write` comes to the start of a chunk, after `k` bytes, the sector that the inode
names there lies in the data area. -/
def ChunksTame (total index position size : Nat) (input : Nat → Byte) (done : Nat) (c : Conf FsMem δ) : Prop :=
  ∀ k c', done ≤ k → k < size → (k = done ∨ 512 ∣ position + k) →
    (fsWriteLoop index position k input done).run D c = (k, c') →
    Lands D total c' (directAt c'.mem index ((position + k) / 512))

/-- What a call has to find for its accesses to be in range. -/
def Call.Tame (c : Conf FsMem δ) : Call → Prop
  | create name => c.mem.filesystemReady = true → validName name = true → CreateTame D name c
  | delete name => c.mem.filesystemReady = true → validName name = true → DeleteTame D name c
  | read fd buffer _ => handleUsable c.mem fd buffer = true → (c.mem.handles fd.toNat).inode.toNat < fsMaxFiles
  | write fd buffer => handleUsable c.mem fd buffer.isSome = true → (c.mem.handles fd.toNat).position < fsMaxFileSize →
      (c.mem.handles fd.toNat).inode.toNat < fsMaxFiles ∧
        ChunksTame D c.mem.superblock.totalSectors (c.mem.handles fd.toNat).inode.toNat
          (c.mem.handles fd.toNat).position
          (min (buffer.getD []).length (fsMaxFileSize - (c.mem.handles fd.toNat).position))
            ((buffer.getD []).getD · 0) 0 c
  | _ => True

end Tame

/-! ## What is always in range -/

/-- A device of which nothing is known. -/
def anything : Iface Unit Sector where
  readPre _ _ := True
  readPost _ _ _ _ := True
  writePre _ _ _ := True
  writePost _ _ _ _ _ := True

section

variable {δ : Type} {D : Device δ Sector} {total : Nat} {m : FsMem} {c : Conf FsMem δ}

theorem anything_any (D : Device δ Sector) : Models anything D fun _ _ => True :=
  ⟨fun _ _ _ _ _ => ⟨(), trivial, trivial⟩, fun _ _ _ _ _ _ => ⟨(), trivial, trivial⟩⟩

/-- All a program accesses is in range, on any device. -/
abbrev AlwaysInRange (total : Nat) {α : Type} (w : WatchedM α) (Q : α → FsMem → Prop) (m : FsMem) : Prop :=
  Notes anything (FsAccess.InRange total) w (fun a _ m' => Q a m') () m

/-- In a run from `c` all a program accesses is in range exactly if `X`. -/
abbrev InRangeIff (D : Device δ Sector) (total : Nat) {α : Type} (w : WatchedM α)
    (c : Conf FsMem δ) (X : Prop) : Prop :=
  NotedIff D (FsAccess.InRange total) w c X

theorem AlwaysInRange.inRangeIff {α : Type} {w : WatchedM α} {p : FsM α} {Q : α → FsMem → Prop}
    (h : AlwaysInRange total w Q c.mem) (hp : Records w p) : InRangeIff D total w c True :=
  Notes.notedIff h (anything_any D) hp trivial

theorem AlwaysInRange.post {α : Type} {w : WatchedM α} {p : FsM α} {Q : α → FsMem → Prop}
    (h : AlwaysInRange total w Q c.mem) (hp : Records w p) : Q (p.run D c).1 (p.run D c).2.mem :=
  (Notes.run (anything_any D) hp h trivial).2.choose_spec.1

theorem saveBitmap_anything (m : FsMem) : saveBitmap.wp anything (fun _ _ m' => m' = m) () m := by
  refine wp_allM (J := fun _ _ m' => m' = m) _ rfl (fun _ i _ _ m' _ hm => ?_) fun _ _ h => h
  rw [wp_bind, wp_load, wp_writeBlock]
  refine ⟨trivial, fun ok _ _ => ?_⟩
  cases ok <;> exact hm

theorem saveInodeWatched_inRange (index : Nat) : InRangeIff D total (saveInodeWatched index) c True := by
  unfold saveInodeWatched
  split
  · rename_i hindex
    exact .note_of (by simpa [FsAccess.InRange] using hindex) (.quiet _)
  · exact .quiet _

/-- A directory slot is reached through the root inode, at a checked index. -/
theorem slot_inRange {slot : Nat} (h : slot / perSector < 32) :
    ∀ a ∈ [FsAccess.inode 0, .direct (slot / perSector)], a.InRange total := by
  simpa [FsAccess.InRange] using h

theorem directAt_eq (m : FsMem) (index : Nat) {block : Nat} (h : block < 32) :
    (m.inode index).direct ⟨block, h⟩ = directAt m index block := by
  unfold directAt
  rw [dif_pos h]

theorem directAt_past (m : FsMem) (index : Nat) {block : Nat} (h : ¬ block < 32) : directAt m index block = 0 :=
  dif_neg h

theorem dirReadEntry_inRange (slot : Nat) : AlwaysInRange total (dirReadEntryWatched slot) (fun _ m' => m' = m) m := by
  unfold dirReadEntryWatched
  split
  · rename_i hslot
    refine .peek (.note (slot_inRange hslot) (.ite (fun _ => .pure rfl) fun _ => .readBlock trivial fun r _ _ => ?_))
    cases r <;> exact .pure rfl
  · exact .pure rfl

/-- A search through the directory. -/
theorem dirSearch_inRange {α : Type} (g : Nat → Dirent → Option α) :
    AlwaysInRange total ((List.range dirSlots).findSomeM? fun slot => do
        match ← dirReadEntryWatched slot with
        | none => pure none
        | some entry => pure (g slot entry)) (fun _ m' => m' = m) m := by
  refine .findSomeM? (J := fun _ m' => m' = m) rfl ?_ fun _ _ h => h
  rintro slot - _ m' rfl
  refine (dirReadEntry_inRange slot).bind ?_
  rintro r _ m'' rfl
  cases r with
  | none => exact .pure rfl
  | some entry =>
    refine .pure ?_
    cases g slot entry <;> rfl

theorem findDirEntry_inRange (name : CStr) :
    AlwaysInRange total (findDirEntryWatched name) (fun _ m' => m' = m) m :=
  (dirSearch_inRange _).bind fun _ _ _ h => .pure h

theorem findFreeDirSlot_inRange : AlwaysInRange total findFreeDirSlotWatched (fun _ m' => m' = m) m :=
  dirSearch_inRange fun slot entry => if entry.used = 0 then some slot else none

/-- A sector is allocated in the data area. -/
theorem allocateSector_inRange (htotal : m.superblock.totalSectors = total) :
    AlwaysInRange total allocateSectorWatched (fun r m' => m'.superblock = m.superblock ∧
      ∀ sector, r = some sector → InData total sector) m := by
  unfold allocateSectorWatched
  refine .peek ?_
  cases hfree : firstFree m with
  | none => exact .pure ⟨rfl, by simp⟩
  | some sector =>
    obtain ⟨hlo, hhi, -⟩ := firstFree_some hfree
    have hin : InData total sector := ⟨hlo, by omega⟩
    refine .alter ((Notes.quiet (saveBitmap_anything _)).bind ?_)
    rintro saved _ m' rfl
    refine .ite (fun _ => .alter (.pure (by simp))) fun _ => .note (by simpa [FsAccess.InRange] using hin) ?_
    refine .writeBlock trivial fun ok _ _ => .ite (fun _ => .alter ((Notes.quiet (saveBitmap_anything _)).bind ?_))
      fun _ => .pure ?_
    · rintro _ _ m' rfl
      exact .pure (by simp)
    · refine ⟨by simp, fun s hs => ?_⟩
      obtain rfl := Option.some.inj hs
      exact hin

theorem direct_inRange {index block : Nat} (hindex : index < 128) (hblock : block < 32) :
    ∀ a ∈ [FsAccess.inode index, .direct block], a.InRange total := by
  simp [FsAccess.InRange, hindex, hblock]

/-- A block has the sector that the inode names, or gets one in the data area. -/
theorem ensureBlock_inRange {index : Nat} (hindex : index < 128) (block : Fin 32)
    (htotal : m.superblock.totalSectors = total) :
    AlwaysInRange total (ensureBlockWatched index block) (fun r m' => m'.superblock = m.superblock ∧
      ∀ lba, r = some lba → if directAt m index block = 0 then InData total lba
        else lba = directAt m index block) m := by
  refine .peek (.note (direct_inRange hindex block.isLt) ?_)
  rw [← directAt_eq m index block.isLt]
  refine .ite (fun hzero => (allocateSector_inRange htotal).bind ?_) fun hne => .pure ⟨rfl, fun lba h => ?_⟩
  · rintro r _ m' ⟨hsuper, hr⟩
    cases r with
    | none => exact .pure ⟨hsuper, by simp⟩
    | some sector =>
      refine .alter (.pure ⟨hsuper, fun lba h => ?_⟩)
      rw [if_pos hzero]
      exact hr lba h
  · rw [if_neg hne]
    exact (Option.some.inj h).symm

theorem fsExists_inRange (name : CStr) : AlwaysInRange total (fsExistsWatched name) (fun _ _ => True) m :=
  .peek (.ite (fun _ => .pure trivial) fun _ => (findDirEntry_inRange name).bind fun _ _ _ _ => .pure trivial)

theorem fsOpen_inRange (name : CStr) : AlwaysInRange total (fsOpenWatched name) (fun _ _ => True) m := by
  refine .peek (.ite (fun _ => .pure trivial) fun _ => (findDirEntry_inRange name).bind ?_)
  rintro inode _ m' -
  refine .ite (fun _ => .pure trivial) fun _ => .peek ?_
  cases (List.range fsMaxHandles).find? fun i => decide ((m'.handles i).inode < 0) with
  | none => exact .pure trivial
  | some fd => exact .alter (.pure trivial)

theorem fsReadLoop_inRange {index : Nat} (hindex : index < 128) (position count done : Nat) (output : List Byte) :
    AlwaysInRange total (fsReadLoopWatched index position count done output) (fun _ _ => True) m := by
  induction done, output using fsReadLoop.induct position count with
  | case1 done output hlt hblock ih =>
    rw [fsReadLoopWatched, dif_pos hlt, dif_pos hblock]
    refine .peek (.note (direct_inRange hindex hblock) (.ite (fun _ => .pure trivial) fun _ => .readBlock trivial ?_))
    rintro r _ -
    cases r with
    | none => exact .pure trivial
    | some block => exact ih block
  | case2 done output hlt hblock =>
    rw [fsReadLoopWatched, dif_pos hlt, dif_neg hblock]
    exact .pure trivial
  | case3 done output hlt =>
    rw [fsReadLoopWatched, dif_neg hlt]
    exact .pure trivial

theorem fsListLoop_inRange (count : Nat) (slots : List Nat) (written : List Byte) :
    AlwaysInRange total (fsListLoopWatched count slots written) (fun _ _ => True) m := by
  induction slots generalizing written m with
  | nil => exact .pure trivial
  | cons slot slots ih =>
    refine (dirReadEntry_inRange (m := m) slot).bind ?_
    rintro entry _ m' -
    cases entry with
    | none => exact ih _
    | some entry => exact .ite (fun _ => ih _) fun _ => .ite (fun _ => .pure trivial) fun _ => ih _

theorem fsList_inRange (buffer : Bool) (count : Nat) :
    AlwaysInRange total (fsListWatched buffer count) (fun _ _ => True) m :=
  .peek (.ite (fun _ => .pure trivial) fun _ => (fsListLoop_inRange _ _ _).bind fun _ _ _ _ => .pure trivial)

theorem inodesTried_inRange (m : FsMem) : ∀ a ∈ (inodesTried m).map FsAccess.inode, a.InRange total := by
  have htried : ∀ i ∈ inodesTried m, i < 128 := by
    intro i hi
    unfold inodesTried at hi
    rw [List.mem_range'_1] at hi
    cases hfree : firstFreeInode m with
    | none =>
      simp only [hfree, Option.getD_none, fsMaxFiles] at hi
      omega
    | some index =>
      have := (firstFreeInode_some hfree).2.2
      simp only [hfree, Option.getD_some] at hi
      omega
  simpa [FsAccess.InRange] using htried

/-! ## Create and delete -/

/-- An entry is written to the sector it could be read from. -/
theorem dirWriteEntry_inRange (slot : Nat) (entry : Dirent) :
    InRangeIff D total (dirWriteEntryWatched slot entry) c (Lands D total c (slotLba c.mem slot)) := by
  unfold dirWriteEntryWatched
  split
  · rename_i hslot
    refine .peek (.note_of (slot_inRange hslot) ?_)
    rw [directAt_eq c.mem 0 hslot]
    refine .ite (fun hzero => (NotedIff.pure _).congr (iff_of_true trivial fun hne => absurd hzero hne)) fun hne =>
      .readBlock ?_
    cases hread : (D.read c.dev (directAt c.mem 0 (slot / perSector))).1 with
    | none => exact (NotedIff.pure _).congr (by simp [Lands, slotLba, hread])
    | some block =>
      refine NotedIff.congr (.note _ .lastWrite) ?_
      simp [Lands, slotLba, hread, hne, FsAccess.InRange]
  · rename_i hslot
    exact (NotedIff.pure _).congr (iff_of_true trivial fun hne => absurd (directAt_past c.mem 0 hslot) hne)

theorem fsCreate_inRange (name : CStr) : InRangeIff D c.mem.superblock.totalSectors (fsCreateWatched name) c
    (c.mem.filesystemReady = true → validName name = true → CreateTame D name c) := by
  refine .peek (.ite (fun hno => (NotedIff.pure _).congr ?_) fun hok => ?_)
  · exact iff_of_true trivial fun hready hvalid => by simp [hready, hvalid] at hno
  simp only [Bool.or_eq_true, Bool.not_eq_true', not_or, Bool.not_eq_false] at hok
  rw [forall_prop_of_true hok.1, forall_prop_of_true hok.2]
  refine .after (findDirEntryWatched_records name) ((findDirEntry_inRange name).inRangeIff
    (findDirEntryWatched_records name)) ?_
  rcases hfind : (findDirEntry name).run D c with ⟨inode, c₁⟩
  refine .ite (fun hpos => (NotedIff.pure _).congr ?_) fun hneg => .after findFreeDirSlotWatched_records
    (findFreeDirSlot_inRange.inRangeIff findFreeDirSlotWatched_records) ?_
  · simp [CreateTame, hfind, hpos]
  rcases hslot : findFreeDirSlot.run D c₁ with ⟨_ | slot, c₂⟩
  · exact (NotedIff.pure _).congr (by simp [CreateTame, hfind, hslot])
  refine .peek (.note_of (inodesTried_inRange c₂.mem) ?_)
  cases hfree : firstFreeInode c₂.mem with
  | none => exact (NotedIff.pure _).congr (by simp [CreateTame, hfind, hslot, hfree])
  | some index =>
    have hindex := (firstFreeInode_some hfree).2.2
    refine .note_of (by simpa [FsAccess.InRange] using hindex) (.alter (.after (saveInodeWatched_records index)
      (saveInodeWatched_inRange index) ?_))
    rcases hsave : (saveInode index).run D { c₂ with mem := setInode c₂.mem index .fresh } with ⟨_ | _, c₃⟩
    · exact (NotedIff.pure _).congr (by simp [CreateTame, hfind, hslot, hfree, hsave])
    · refine NotedIff.congr (.bind (dirWriteEntryWatched_records slot _) (dirWriteEntry_inRange slot _) (Y := True) ?_)
        ?_
      · refine .ite (fun _ => .note_of (by simpa [FsAccess.InRange] using hindex) (.alter ?_)) fun _ => .pure _
        exact .after (saveInodeWatched_records index) (saveInodeWatched_inRange index) (.pure _)
      · simp [CreateTame, hfind, hslot, hfree, hsave, lt_of_not_ge hneg]

/-- One turn of the loop of `fs_delete`. -/
def clearSlot (index slot : Nat) : FsM (Option Unit) := do
  match ← dirReadEntry slot with
  | none => pure none
  | some entry =>
    if entry.used ≠ 0 ∧ entry.inode = index then
      let _ ← dirWriteEntry slot .zero
      pure (some ())
    else pure none

def clearSlotWatched (index slot : Nat) : WatchedM (Option Unit) := do
  match ← dirReadEntryWatched slot with
  | none => pure none
  | some entry =>
    if entry.used ≠ 0 ∧ entry.inode = index then
      let _ ← dirWriteEntryWatched slot .zero
      pure (some ())
    else pure none

theorem clearSlotWatched_records (index slot : Nat) : Records (clearSlotWatched index slot) (clearSlot index slot) := by
  refine (dirReadEntryWatched_records slot).bind fun r => ?_
  cases r with
  | none => exact .pure _
  | some entry => exact .ite (fun _ => (dirWriteEntryWatched_records slot _).bind fun _ => .pure _) fun _ => .pure _

theorem clearSlot_inRange (index slot : Nat) : InRangeIff D total (clearSlotWatched index slot) c
    (∀ entry c₁, (dirReadEntry slot).run D c = (some entry, c₁) → entry.used ≠ 0 ∧ entry.inode = index →
      Lands D total c₁ (slotLba c₁.mem slot)) := by
  refine .after (dirReadEntryWatched_records slot) ((dirReadEntry_inRange slot).inRangeIff
    (dirReadEntryWatched_records slot)) ?_
  rcases hrun : (dirReadEntry slot).run D c with ⟨_ | entry, c₁⟩
  · exact (NotedIff.pure _).congr (by simp)
  · refine .ite (fun hnamed => ?_) fun hnamed => (NotedIff.pure _).congr (iff_of_true trivial fun entry' c' h hn => ?_)
    · refine NotedIff.congr (.bind (dirWriteEntryWatched_records slot _) (dirWriteEntry_inRange slot _) (.pure _)) ?_
      simp [hnamed]
    · cases h
      exact absurd hn hnamed

/-- The loop stops at the first entry that names the inode, and clears it. -/
theorem clearLoop_inRange (index : Nat) (slots : List Nat) :
    InRangeIff D total (slots.findSomeM? (clearSlotWatched index)) c
      (∀ slot c', (findInodeSlot index slots).run D c = (some slot, c') → Lands D total c' (slotLba c'.mem slot)) := by
  induction slots generalizing c with
  | nil => exact (NotedIff.pure _).congr (by simp [findInodeSlot, List.findSomeM?])
  | cons slot slots ih =>
    rw [List.findSomeM?]
    have hturn := @clearSlot_inRange _ D total c index slot
    have hrecords := clearSlotWatched_records index slot
    rcases hrun : (dirReadEntry slot).run D c with ⟨_ | entry, c₁⟩
    · have hpass : (clearSlot index slot).run D c = (none, c₁) := by simp [clearSlot, hrun]
      refine NotedIff.congr (.bind hrecords hturn (by rw [hpass]; exact ih)) ?_
      simp [findInodeSlot, List.findSomeM?, hrun]
    by_cases hnamed : entry.used ≠ 0 ∧ entry.inode = index
    · have hclear : ((clearSlot index slot).run D c).1 = some () := by simp [clearSlot, hrun, hnamed]
      refine NotedIff.congr (.bind hrecords hturn (by rw [hclear]; exact .pure _)) ?_
      simp [findInodeSlot, List.findSomeM?, hrun, hnamed]
    · have hpass : (clearSlot index slot).run D c = (none, c₁) := by simp [clearSlot, hrun, hnamed]
      have hother : ∀ entry' c', (dirReadEntry slot).run D c = (some entry', c') →
          entry'.used ≠ 0 ∧ entry'.inode = index → Lands D total c' (slotLba c'.mem slot) := by
        intro entry' c' h hn
        rw [hrun] at h
        cases h
        exact absurd hn hnamed
      refine NotedIff.congr (.bind hrecords hturn (by rw [hpass]; exact ih)) ((and_iff_right hother).trans ?_)
      simp [findInodeSlot, List.findSomeM?, hrun, hnamed]

/-- From where `fs_delete` has found the inode on. -/
theorem deleteTail_inRange (index : Nat) : InRangeIff D total (do
      if !(← saveBitmap.quiet) then pure 0
      else if !(← saveInodeWatched index) then pure 0
      else
        let _ ← (List.range dirSlots).findSomeM? (clearSlotWatched index)
        pure 1 : WatchedM Int) { c with mem := releaseInode c.mem index } (ClearTame D total index c) := by
  refine .after (.quiet _) (.quiet _) ?_
  rcases hbitmap : saveBitmap.run D { c with mem := releaseInode c.mem index } with ⟨_ | _, c₁⟩
  · exact (NotedIff.pure _).congr (by simp [ClearTame, hbitmap])
  refine .after (saveInodeWatched_records index) (saveInodeWatched_inRange index) ?_
  rcases hsave : (saveInode index).run D c₁ with ⟨_ | _, c₂⟩
  · exact (NotedIff.pure _).congr (by simp [ClearTame, hbitmap, hsave])
  · refine NotedIff.congr (.bind (Records.findSomeM? _ (clearSlotWatched_records index)) (clearLoop_inRange index _)
      (.pure _)) ?_
    simp [ClearTame, hbitmap, hsave]

theorem fsDelete_inRange (name : CStr) : InRangeIff D c.mem.superblock.totalSectors (fsDeleteWatched name) c
    (c.mem.filesystemReady = true → validName name = true → DeleteTame D name c) := by
  refine .peek (.ite (fun hno => (NotedIff.pure _).congr ?_) fun hok => ?_)
  · exact iff_of_true trivial fun hready hvalid => by simp [hready, hvalid] at hno
  simp only [Bool.or_eq_true, Bool.not_eq_true', not_or, Bool.not_eq_false] at hok
  rw [forall_prop_of_true hok.1, forall_prop_of_true hok.2]
  refine .after (findDirEntryWatched_records name) ((findDirEntry_inRange name).inRangeIff
    (findDirEntryWatched_records name)) ?_
  rcases hfind : (findDirEntry name).run D c with ⟨inode, c₁⟩
  refine .ite (fun hnone => (NotedIff.pure _).congr ?_) fun hpos => ?_
  · simp [DeleteTame, hfind, hnone]
  refine NotedIff.congr (.note _ (.alter (deleteTail_inRange inode.toNat))) ?_
  simp [DeleteTame, hfind, lt_of_not_ge hpos, FsAccess.InRange]

/-! ## Read and write -/

theorem fsRead_inRange (fd : Int) (buffer : Bool) (count : Nat) : InRangeIff D total (fsReadWatched fd buffer count) c
    (handleUsable c.mem fd buffer = true → (c.mem.handles fd.toNat).inode.toNat < fsMaxFiles) := by
  refine .peek (.ite (fun hno => (NotedIff.pure _).congr ?_) fun hok => ?_)
  · exact iff_of_true trivial fun husable => by simp [husable] at hno
  rw [forall_prop_of_true (by simpa using hok)]
  by_cases hindex : (c.mem.handles fd.toNat).inode.toNat < fsMaxFiles
  · refine NotedIff.congr (.note _ (.ite (fun _ => .pure _) fun _ => ?_) (X := True)) ?_
    · exact .after (fsReadLoopWatched_records _ _ _ 0 []) ((fsReadLoop_inRange hindex _ _ _ _).inRangeIff
        (fsReadLoopWatched_records _ _ _ 0 [])) (.alter (.pure _))
    · simp [FsAccess.InRange]
  · refine NotedIff.congr (.note_not (by simpa [FsAccess.InRange] using hindex) (.ite (fun _ => .pure _) fun _ =>
      (fsReadLoopWatched_records _ _ _ 0 []).bind fun _ => (Records.alter _).bind fun _ => .pure _)) ?_
    exact iff_of_false id hindex

/-- One turn of the loop of `fs_write`. -/
def writeChunk (index position done chunk : Nat) (input : Nat → Byte) : FsM Bool :=
  if hb : (position + done) / 512 < 32 then do
    match ← ensureBlock index ⟨(position + done) / 512, hb⟩ with
    | none => pure false
    | some lba =>
      match ← readBlock lba with
      | none => pure false
      | some sectorBuffer =>
        writeBlock lba (sectorBuffer.patch ((position + done) % 512) chunk fun k => input (done + k))
  else pure false

/-- The turns follow one another while they succeed. -/
theorem fsWriteLoop_run {index position size done : Nat} {input : Nat → Byte} (hlt : done < size) :
    (fsWriteLoop index position size input done).run D c =
      let chunk := min (512 - (position + done) % 512) (size - done)
      let turn := (writeChunk index position done chunk input).run D c
      if turn.1 = true then (fsWriteLoop index position size input (done + chunk)).run D turn.2
      else (done, turn.2) := by
  rw [fsWriteLoop, dif_pos hlt]
  unfold writeChunk
  dsimp only
  by_cases hblock : (position + done) / 512 < 32
  · rw [dif_pos hblock, dif_pos hblock, run_bind, run_bind]
    rcases (ensureBlock index ⟨(position + done) / 512, hblock⟩).run D c with ⟨_ | lba, c₁⟩
    · rfl
    · simp only [run_bind, run_readBlock]
      cases (D.read c₁.dev lba).1 with
      | none => rfl
      | some block =>
        simp only [run_bind, run_writeBlock]
        exact apply_ite (fun p : FsM Nat => p.run D _) _ _ _
  · rw [dif_neg hblock, dif_neg hblock]
    rfl

theorem fsWriteLoop_done {index position size done : Nat} {input : Nat → Byte} (hge : ¬ done < size) :
    (fsWriteLoop index position size input done).run D c = (done, c) := by
  rw [fsWriteLoop, dif_neg hge]
  rfl

/-- The condition turn by turn. -/
theorem chunksTame_step {index position size done : Nat} {input : Nat → Byte} (hlt : done < size) :
    ChunksTame D total index position size input done c ↔
    Lands D total c (directAt c.mem index ((position + done) / 512)) ∧
      ∀ c₁, (writeChunk index position done (min (512 - (position + done) % 512) (size - done)) input).run D c =
      (true, c₁) →
        ChunksTame D total index position size input (done + min (512 - (position + done) % 512) (size - done)) c₁ := by
  constructor
  · intro h
    refine ⟨h done c le_rfl hlt (.inl rfl) (fsWriteLoop_done (lt_irrefl done)),
      fun c₁ hturn k c' hle hk hstart hrun => ?_⟩
    have hchunk : min (512 - (position + done) % 512) (k - done) =
      min (512 - (position + done) % 512) (size - done) := by
      omega
    refine h k c' (by omega) hk (.inr (by omega)) ?_
    rw [fsWriteLoop_run (by omega), hchunk]
    simp only [hturn, if_true]
    exact hrun
  · rintro ⟨hfirst, hrest⟩ k c' hle hk hstart hrun
    by_cases hk' : k = done
    · subst hk'
      rw [fsWriteLoop_done (lt_irrefl k)] at hrun
      cases hrun
      exact hfirst
    · have hstart : 512 ∣ position + k := hstart.resolve_left hk'
      have hchunk : min (512 - (position + done) % 512) (k - done) =
        min (512 - (position + done) % 512) (size - done) := by
        omega
      rw [fsWriteLoop_run (by omega), hchunk] at hrun
      dsimp only at hrun
      split at hrun
      · rename_i hturn
        exact hrest _ (Prod.ext hturn rfl) k c' (by omega) hk (.inr hstart) hrun
      · cases hrun
        exact absurd rfl hk'

theorem ensureBlock_has {index : Nat} {block : Fin 32} (h : directAt c.mem index block ≠ 0) :
    (ensureBlock index block).run D c = (some (directAt c.mem index block), c) := by
  rw [← directAt_eq c.mem index block.isLt, Fin.eta] at h ⊢
  simp [ensureBlock, h]

/-- What a turn writes to: the sector that the inode names, or a new one. -/
theorem turn_lands {index lba : Nat} {block : Fin 32} {c₁ : Conf FsMem δ}
    (hrun : (ensureBlock index block).run D c = (some lba, c₁))
    (hlba : if directAt c.mem index block = 0 then InData total lba else lba = directAt c.mem index block) :
    Lands D total c (directAt c.mem index block) ↔ ((D.read c₁.dev lba).1.isSome = true → InData total lba) := by
  split at hlba
  · rename_i hzero
    exact iff_of_true (fun hne => absurd hzero hne) fun _ => hlba
  · rename_i hne
    rw [ensureBlock_has hne] at hrun
    cases hrun
    simp only [Lands, forall_prop_of_true hne]

theorem fsWriteLoop_inRange {index : Nat} (hindex : index < 128) (position size : Nat) (input : Nat → Byte) (done : Nat)
    (htotal : c.mem.superblock.totalSectors = total) :
    InRangeIff D total (fsWriteLoopWatched index position size input done) c
      (ChunksTame D total index position size input done c) := by
  induction done using fsWriteLoop.induct position size generalizing c with
  | case1 done hlt hblock ih =>
    rw [fsWriteLoopWatched, dif_pos hlt, dif_pos hblock]
    have hensure := ensureBlock_inRange hindex ⟨(position + done) / 512, hblock⟩ htotal
    have hrecords := ensureBlockWatched_records index ⟨(position + done) / 512, hblock⟩
    obtain ⟨hsuper, hlba⟩ := hensure.post (D := D) hrecords
    refine .after hrecords (hensure.inRangeIff hrecords) (.congr ?_ (chunksTame_step hlt).symm)
    have hhas := @ensureBlock_has _ D c index ⟨(position + done) / 512, hblock⟩
    rcases hrun : (ensureBlock index ⟨(position + done) / 512, hblock⟩).run D c with ⟨_ | lba, c₁⟩
    · -- there was no sector, and none could be had
      have hnone : directAt c.mem index ((position + done) / 512) = 0 := by
        by_contra hne
        rw [hhas hne] at hrun
        cases hrun
      refine (NotedIff.pure _).congr (iff_of_true trivial ⟨fun hne => absurd hnone hne, fun c₂ hturn => ?_⟩)
      simp [writeChunk, hblock, hrun] at hturn
    rw [hrun] at hsuper hlba
    have hlands := turn_lands hrun (hlba lba rfl)
    refine .readBlock ?_
    cases hread : (D.read c₁.dev lba).1 with
    | none =>
      refine (NotedIff.pure _).congr (iff_of_true trivial ⟨hlands.2 (by simp [hread]), fun c₂ hturn => ?_⟩)
      simp [writeChunk, hblock, hrun, hread] at hturn
    | some block =>
      refine NotedIff.congr (.note _ (.writeBlock (.ite (fun hok => ?_) fun hok => ?_))) (and_congr_left' ?_)
      · refine NotedIff.congr (ih (c := ⟨c₁.mem, _⟩) ((congrArg _ hsuper).trans htotal)) ?_
        simp [writeChunk, hblock, hrun, hread, hok]
      · refine (NotedIff.pure _).congr (iff_of_true trivial fun c₂ hturn => ?_)
        simp [writeChunk, hblock, hrun, hread, hok] at hturn
      · rw [hlands, hread]
        simp [FsAccess.InRange]
  | case2 done hlt hblock =>
    rw [fsWriteLoopWatched, dif_pos hlt, dif_neg hblock]
    refine NotedIff.congr (.pure _) ((iff_of_true trivial ?_).trans (chunksTame_step hlt).symm)
    refine ⟨fun hne => absurd (directAt_past c.mem index hblock) hne, fun c₁ hturn => ?_⟩
    rw [writeChunk, dif_neg hblock] at hturn
    cases hturn
  | case3 done hlt =>
    rw [fsWriteLoopWatched, dif_neg hlt]
    exact NotedIff.congr (.pure _) (iff_of_true trivial fun k c' hle hk => absurd (lt_of_le_of_lt hle hk) hlt)

theorem fsWrite_inRange (fd : Int) (buffer : Option (List Byte)) :
    InRangeIff D c.mem.superblock.totalSectors (fsWriteWatched fd buffer) c ((Call.write fd buffer).Tame D c) := by
  refine .peek (.ite (fun hno => (NotedIff.pure _).congr ?_) fun hok => ?_)
  · exact iff_of_true trivial fun husable => by simp [husable] at hno
  refine NotedIff.congr ?_ (forall_prop_of_true (by simpa using hok)).symm
  refine .ite (fun hpast => (NotedIff.pure _).congr ?_) fun hpos => ?_
  · exact iff_of_true trivial fun hpos => absurd hpos (by simpa using hpast)
  refine NotedIff.congr ?_ (forall_prop_of_true (by simpa using hpos)).symm
  by_cases hindex : (c.mem.handles fd.toNat).inode.toNat < fsMaxFiles
  · refine NotedIff.congr (.bind (fsWriteLoopWatched_records _ _ _ _ 0) (fsWriteLoop_inRange hindex _ _ _ 0 rfl)
      (.note_of (by simpa [FsAccess.InRange] using hindex) (.alter (.after (saveInodeWatched_records _)
        (saveInodeWatched_inRange _) (.after (.quiet _) (.quiet _) (.pure _)))))) ?_
    simp [hindex]
  · refine NotedIff.congr (.bind_not (fsWriteLoopWatched_records _ _ _ _ 0)
      (.note_not (by simpa [FsAccess.InRange] using hindex)
        ((Records.alter _).bind fun _ => (saveInodeWatched_records _).bind fun _ =>
          (Records.quiet _).bind fun _ => .pure _))) ?_
    simp [hindex]

/-! ## Calls -/

/-- All that a call accesses is in range exactly if it is tame. -/
theorem call_inRange_iff (D : Device δ Sector) (c : Conf FsMem δ) (call : Call) :
    (∀ a ∈ notes D call.watched c, a.InRange c.mem.superblock.totalSectors) ↔ call.Tame D c := by
  refine NotedIff.notes ?_
  cases call with
  | create name => exact .before (fsCreateWatched_records name) (fsCreate_inRange name) (.pure _)
  | delete name => exact .before (fsDeleteWatched_records name) (fsDelete_inRange name) (.pure _)
  | exist name =>
    have hrecords := fsExistsWatched_records name
    exact .before hrecords ((fsExists_inRange name).inRangeIff hrecords) (.pure _)
  | «open» name =>
    have hrecords := fsOpenWatched_records name
    exact .before hrecords ((fsOpen_inRange name).inRangeIff hrecords) (.pure _)
  | close fd => exact .before (.quiet _) (.quiet _) (.pure _)
  | read fd buffer count =>
    exact .before (fsReadWatched_records fd buffer count) (fsRead_inRange fd buffer count) (.pure _)
  | write fd buffer => exact .before (fsWriteWatched_records fd buffer) (fsWrite_inRange fd buffer) (.pure _)
  | list buffer count =>
    have hrecords := fsListWatched_records buffer count
    exact .before hrecords ((fsList_inRange buffer count).inRangeIff hrecords) (.pure _)

end

end SpectreOS
