/-
Two threads that create files at the same time. fs.c takes no lock, so a timer switch between two
sector requests lets the other thread in: `fs_create` looks at the slots of the directory, takes the
first free one and writes its entry four requests later. If one call has returned before the other
one looks at that slot, the calls have run one after the other; else both write their entry to the
same slot, and one file is lost.
-/
import SpectreOS.Lib.Interleave
import SpectreOS.Fs.Visited

namespace SpectreOS

open BlockIO Prog

/-! ## A disk without failures -/

/-- A disk of `size` sectors that serves every request. -/
def flatDisk (size : Nat) : Device (Nat → Sector) Sector where
  read d lba := (if lba < size then some (d lba) else none, d)
  write d lba b := if lba < size then (true, Function.update d lba b) else (false, d)

/-- A healthy drive answers like its contents. -/
theorem ata_flatDisk (size : Nat) :
    Hom ata (flatDisk size)
      (fun a => a.diskReady = true ∧ min a.diskSectors 0x10000000 = size ∧ ∀ n, a.faults n = false) Ata.disk := by
  have haccepts : ∀ (a : Ata) (lba : Nat), a.diskReady = true → min a.diskSectors 0x10000000 = size →
      a.accepts lba = decide (lba < size) := by
    rintro a lba hready rfl
    simp only [Ata.accepts, hready, Bool.true_and, lt_min_iff, Bool.decide_and]
  constructor
  · rintro a lba ⟨hready, hsize, hf⟩
    simp only [ata, flatDisk, ataReadSector, haccepts a lba hready hsize, hf, decide_eq_true_eq, Bool.false_eq_true,
      ↓reduceIte]
    split
    · exact ⟨rfl, rfl, hready, hsize, hf⟩
    · exact ⟨rfl, rfl, hready, hsize, hf⟩
  · rintro a lba b ⟨hready, hsize, hf⟩
    simp only [ata, flatDisk, ataWriteSector, haccepts a lba hready hsize, hf, decide_eq_true_eq, Bool.false_eq_true,
      ↓reduceIte]
    split
    · exact ⟨rfl, rfl, hready, hsize, hf⟩
    · exact ⟨rfl, rfl, hready, hsize, hf⟩

section

variable {N size : Nat} {d : Nat → Sector} {m : FsMem}

/-- A program runs on it as specified. -/
theorem flatDisk_exec (hN : N ≤ size) {α : Type} {p : FsM α} {Q : α → (Nat → Sector) → FsMem → Prop}
    (hp : p.wp (exact N false false) Q d m) :
    Q (p.run (flatDisk size) ⟨m, d⟩).1 (p.run (flatDisk size) ⟨m, d⟩).2.dev (p.run (flatDisk size) ⟨m, d⟩).2.mem := by
  have hmodels : Models (exact N false false) (flatDisk size) fun g e => e = g := by
    constructor
    · rintro g _ lba rfl hl
      have hlt : lba < size := lt_of_lt_of_le hl hN
      simp only [flatDisk, if_pos hlt]
      exact ⟨_, ⟨rfl, .inl rfl⟩, rfl⟩
    · rintro g _ lba b rfl hl
      have hlt : lba < size := lt_of_lt_of_le hl hN
      simp only [flatDisk, if_pos hlt]
      exact ⟨_, ⟨rfl, by simp⟩, rfl⟩
  obtain ⟨g, hq, hg⟩ := wp_sound hmodels p (c := ⟨m, d⟩) hp rfl
  rw [hg]
  exact hq

end

/-! ## Looking at the directory -/

section

variable {size : Nat} {J : Conf FsMem (Nat → Sector) → Prop} {E : FsM Int → Prop}

theorem root_direct {slot : Nat} (hlt : slot / perSector < 32) {c : Conf FsMem (Nat → Sector)}
    (hroot : c.mem.inode 0 = rootInode 32) : (c.mem.inode 0).direct ⟨slot / perSector, hlt⟩ = 97 + slot / 9 := by
  rw [hroot]
  exact if_pos hlt

theorem perSector_lt_iff {slot : Nat} : slot / perSector < 32 ↔ slot < slotCount := by
  have hper : perSector = 9 := rfl
  rw [hper]
  simp only [slotCount]
  omega

theorem dirReadEntry_asks {α : Type} {slot : Nat} (hs : slot < slotCount) (rest : Option Dirent → FsM α) :
    (dirReadEntry slot >>= rest).asks = false ∧ (dirReadEntry slot >>= rest).returned = none ∧
    ∃ κ, (∀ c : Conf FsMem (Nat → Sector), c.mem.inode 0 = rootInode 32 →
        advance (flatDisk size) (dirReadEntry slot >>= rest) c = (Prog.read (97 + slot / 9) κ, c)) ∧
      ∀ b : Sector, κ (some b) = rest (some (.ofImage (b.slice (slot % 9 * 56)))) := by
  unfold dirReadEntry
  rw [dif_pos (perSector_lt_iff.2 hs)]
  refine ⟨rfl, rfl, ?next, ?advance, ?sector⟩
  case advance =>
    intro c hroot
    rw [Prog.bind_assoc, advance_load]
    dsimp only
    rw [root_direct _ hroot, if_neg (by omega)]
    rfl
  case sector => exact fun b => rfl

theorem dirWriteEntry_asks {α : Type} {slot : Nat} (hs : slot < slotCount) (e : Dirent) (rest : Bool → FsM α) :
    ∃ κ, (∀ c : Conf FsMem (Nat → Sector), c.mem.inode 0 = rootInode 32 →
        advance (flatDisk size) (dirWriteEntry slot e >>= rest) c = (Prog.read (97 + slot / 9) κ, c)) ∧
      ∀ b : Sector, κ (some b) = Prog.write (97 + slot / 9) (b.patch (slot % 9 * 56) 56 e.image) rest := by
  unfold dirWriteEntry
  rw [dif_pos (perSector_lt_iff.2 hs)]
  refine ⟨?next, ?advance, ?sector⟩
  case advance =>
    intro c hroot
    rw [Prog.bind_assoc, advance_load]
    dsimp only
    rw [root_direct _ hroot, if_neg (by omega)]
    rfl
  case sector => exact fun b => rfl

theorem flatDisk_read {d : Nat → Sector} {lba : Nat} (h : lba < size) :
    (flatDisk size).read d lba = (some (d lba), d) := by
  simp only [flatDisk, if_pos h]

theorem flatDisk_write {d : Nat → Sector} {lba : Nat} (h : lba < size) (b : Sector) :
    (flatDisk size).write d lba b = (true, Function.update d lba b) := by
  simp only [flatDisk, if_pos h]

/-- Looking at a slot that does not end the search. -/
theorem scans_slot (hsize : 129 ≤ size) (hroot : ∀ c, J c → c.mem.inode 0 = rootInode 32) {slot : Nat}
    (hs : slot < slotCount) {rest : Option Dirent → FsM Int} {p : FsM Int}
    (hrest : ∀ c, J c → rest (some (entryAt c.dev slot)) = p) {n k : Nat}
    (h : Scans (flatDisk size) J E n k p) : Scans (flatDisk size) J E (n + 1) (k + 2) (dirReadEntry slot >>= rest) := by
  obtain ⟨hasks, hret, κ, hadv, hκ⟩ := @dirReadEntry_asks size Int slot hs rest
  refine .access hasks hret (fun c hJ => hadv c (hroot c hJ)) (.request rfl (fun c hJ => ?_) h)
  have hlba : 97 + slot / 9 < size := by simp only [slotCount] at hs; omega
  simp only [advance, flatDisk_read hlba, hκ]
  exact congrArg (·, c) (hrest c hJ)

/-- The body of the two searches through the directory. -/
def lookAt {α : Type} (g : Nat → Dirent → Option α) (slot : Nat) : FsM (Option α) := do
  match ← dirReadEntry slot with
  | none => pure none
  | some entry => pure (g slot entry)

/-- A search that finds nothing in the slots of a list goes on to the next ones. -/
theorem scans_search (hsize : 129 ≤ size) (hroot : ∀ c, J c → c.mem.inode 0 = rootInode 32) {α : Type}
    {g : Nat → Dirent → Option α} {rest : Option α → FsM Int} (slots : List Nat) {slots' : List Nat}
    (hg : ∀ slot ∈ slots, slot < slotCount ∧ ∀ c, J c → g slot (entryAt c.dev slot) = none) {n k : Nat}
    (h : Scans (flatDisk size) J E n k (slots'.findSomeM? (lookAt g) >>= rest)) :
    Scans (flatDisk size) J E (n + slots.length) (k + 2 * slots.length)
      ((slots ++ slots').findSomeM? (lookAt g) >>= rest) := by
  induction slots with
  | nil => exact h
  | cons slot slots ih =>
    obtain ⟨⟨hs, hnone⟩, hg⟩ := List.forall_mem_cons.1 hg
    rw [List.cons_append, List.findSomeM?, Prog.bind_assoc, lookAt, Prog.bind_assoc]
    refine scans_slot hsize hroot hs (fun c hJ => ?_) (ih hg)
    simp only [hnone c hJ]
    rfl

/-- The slots behind the directory's sectors cannot be read. -/
theorem search_outside {α : Type} (g : Nat → Dirent → Option α) {slots : List Nat}
    (h : ∀ slot ∈ slots, slotCount ≤ slot) : slots.findSomeM? (lookAt g) = pure none := by
  induction slots with
  | nil => rfl
  | cons slot slots ih =>
    obtain ⟨hs, h⟩ := List.forall_mem_cons.1 h
    rw [List.findSomeM?, lookAt, dirReadEntry, dif_neg (fun hlt => absurd (perSector_lt_iff.1 hlt) (by omega))]
    exact ih h

end

/-! ## Creating a file -/

/-- `fs_create` from the answer of `save_inode` on. -/
def createSaved (name : CStr) (slot index : Nat) (saved : Bool) : FsM Int :=
  if !saved then pure 0
  else do
    if !(← dirWriteEntry slot (newEntry name index)) then
      modify fun m => setInode m index { m.inode index with mode := fsModeFree }
      let _ ← saveInode index
      pure 0
    else pure 1

/-- `fs_create` from the answer of `find_free_dir_slot` on. -/
def createIn (name : CStr) : Option Nat → FsM Int
  | none => pure 0
  | some slot => do
    let m ← load
    match firstFreeInode m with
    | none => pure 0
    | some index =>
      modify fun m => setInode m index .fresh
      createSaved name slot index (← saveInode index)

/-- The first slot that is not used. -/
def freeSlot (d : Nat → Sector) : Option Nat :=
  (List.range slotCount).find? fun slot => decide ((entryAt d slot).used = 0)

/-- What `find_dir_entry` looks for. -/
def matchName (name : CStr) (_ : Nat) (entry : Dirent) : Option Int :=
  if entry.used ≠ 0 ∧ strEqual entry.chars name.val then some (int32 entry.inode) else none

/-- What `find_free_dir_slot` looks for. -/
def matchUnused (slot : Nat) (entry : Dirent) : Option Nat := if entry.used = 0 then some slot else none

/-- `fs_create` from the answer of `find_dir_entry` on. -/
def createUnless (name : CStr) (found : Option Int) : FsM Int :=
  if found.getD (-1) ≥ 0 then pure 0 else (List.range dirSlots).findSomeM? (lookAt matchUnused) >>= createIn name

theorem fsCreate_eq (name : CStr) : fsCreate name = Prog.get fun m =>
    if !m.filesystemReady || !validName name then pure 0
    else (List.range dirSlots).findSomeM? (lookAt (matchName name)) >>= createUnless name := by
  unfold fsCreate findDirEntry findFreeDirSlot
  simp only [Prog.bind_assoc]
  rfl

/-- What `fs_create` relies on while it looks for a slot. -/
structure Lookable (slot : Nat) (name : CStr) (c : Conf FsMem (Nat → Sector)) : Prop where
  ready : c.mem.filesystemReady = true
  root : c.mem.inode 0 = rootInode 32
  below : ∀ j < slot, (entryAt c.dev j).used ≠ 0
  absent : ∀ j < slotCount, ¬ (entryAt c.dev j).hasName name

section

variable {size slot : Nat} {name : CStr} {E : FsM Int → Prop} {n k : Nat}

theorem search_asks {α : Type} (g : Nat → Dirent → Option α) (rest : Option α → FsM Int) (slots : List Nat) {slot : Nat}
    (hs : slot < slotCount) : ((slot :: slots).findSomeM? (lookAt g) >>= rest).asks = false ∧
      ((slot :: slots).findSomeM? (lookAt g) >>= rest).returned = none := by
  rw [List.findSomeM?, Prog.bind_assoc, lookAt, Prog.bind_assoc]
  obtain ⟨h1, h2, -⟩ := @dirReadEntry_asks 0 Int slot hs _
  exact ⟨h1, h2⟩

theorem range_dirSlots {k : Nat} (hk : k ≤ slotCount) :
    List.range dirSlots = List.range k ++ List.range' k (dirSlots - k) := by
  have hle : k ≤ dirSlots := hk.trans (by decide)
  have happend := @List.range'_append_1 0 k (dirSlots - k)
  rw [Nat.zero_add, Nat.add_sub_cancel' hle] at happend
  rw [List.range_eq_range', List.range_eq_range', happend]

/-- `fs_create` of an absent name looks at all slots and then at the used ones at the front. -/
theorem fsCreate_scans (hsize : 129 ≤ size) (hn : validName name = true) (hs : slot ≤ slotCount)
    (hE : ∀ p : FsM Int, p.asks = false → p.returned = none → ¬ E p)
    (h : Scans (flatDisk size) (Lookable slot name) E n k
      ((List.range' slot (dirSlots - slot)).findSomeM? (lookAt matchUnused) >>= createIn name)) :
    Scans (flatDisk size) (Lookable slot name) E (n + slot + slotCount) (k + 2 * slot + 2 * slotCount)
      (fsCreate name) := by
  have hroot : ∀ c, Lookable slot name c → c.mem.inode 0 = rootInode 32 := fun c hc => hc.root
  have hout : ∀ k ∈ List.range' slotCount (dirSlots - slotCount), slotCount ≤ k := fun k hk =>
    (List.mem_range'_1.1 hk).1
  have hfirst : List.range dirSlots = 0 :: List.range' 1 (dirSlots - 1) := range_dirSlots (by decide : 1 ≤ slotCount)
  rw [fsCreate_eq]
  refine Scans.load (fun c hc => if_neg (by simp [hc.ready, hn])) ?_ ?_ ?_
  · rw [hfirst]
    exact (search_asks _ _ _ (by decide)).1
  · rw [hfirst]
    exact hE _ (search_asks _ _ _ (by decide)).1 (search_asks _ _ _ (by decide)).2
  · have hfree := scans_search hsize hroot (List.range slot)
      (fun j hj => ⟨(List.mem_range.1 hj).trans_le hs, fun c hc => if_neg (hc.below j (List.mem_range.1 hj))⟩) h
    rw [← range_dirSlots hs, List.length_range] at hfree
    have hrest : Scans (flatDisk size) (Lookable slot name) E (n + slot) (k + 2 * slot)
        ((List.range' slotCount (dirSlots - slotCount)).findSomeM? (lookAt (matchName name)) >>=
          createUnless name) := by
      rw [search_outside _ hout]
      exact hfree
    have hfind := scans_search hsize hroot (List.range slotCount)
      (fun j hj => ⟨List.mem_range.1 hj, fun c hc => if_neg (hc.absent j (List.mem_range.1 hj))⟩) hrest
    rwa [← range_dirSlots le_rfl, List.length_range] at hfind

end

/-! ## Taking a slot -/

/-- A mounted filesystem whose directory is that of `d` but for the slot. -/
structure Contested (d : Nat → Sector) (slot : Nat) (c : Conf FsMem (Nat → Sector)) : Prop where
  ready : c.mem.filesystemReady = true
  root : c.mem.inode 0 = rootInode 32
  others : ∀ j < slotCount, j ≠ slot → entryAt c.dev j = entryAt d j

/-- The slot is free. -/
def Free (slot : Nat) (c : Conf FsMem (Nat → Sector)) : Prop := (entryAt c.dev slot).used = 0

section

variable {size slot : Nat} {d : Nat → Sector}

theorem saveInode_asks {α : Type} {i : Nat} (hi : i < 128) (rest : Bool → FsM α) : ∃ lba < 97, ∃ κ,
    saveInode i >>= rest = Prog.read lba κ ∧
      ∀ b : Sector, ∃ f : FsMem → Sector, κ (some b) = Prog.get fun m => Prog.write lba (f m) rest := by
  unfold saveInode
  rw [if_neg (by simp only [fsMaxFiles]; omega)]
  simp only
  rw [if_neg (by simp only [fsInodeSize]; omega)]
  exact ⟨_, by simp only [fsInodeStart, fsInodeSize]; omega, _, rfl, fun b => ⟨_, rfl⟩⟩

theorem asks_saveInode {α : Type} {i : Nat} (hi : i < 128) (rest : Bool → FsM α) :
    (saveInode i >>= rest).asks = true := by
  obtain ⟨lba, -, κ, h, -⟩ := saveInode_asks hi rest
  rw [h]
  rfl

/-- Saving an inode changes no entry. -/
theorem takes_saveInode (hsize : 129 ≤ size) {i : Nat} (hi : i < 128) {rest : Bool → FsM Int}
    (h : Takes (flatDisk size) (Contested d slot) (Free slot) (rest true)) :
    Takes (flatDisk size) (Contested d slot) (Free slot) (saveInode i >>= rest) := by
  obtain ⟨lba, hlba, κ, hprog, hκ⟩ := saveInode_asks hi rest
  have hlt : lba < size := by omega
  have hentry : ∀ (dev : Nat → Sector) (b : Sector) (j : Nat), entryAt (Function.update dev lba b) j = entryAt dev j :=
    fun dev b j => entryAt_congr (Function.update_of_ne (by omega) _ _)
  rw [hprog]
  refine .look fun c _ => ?_
  simp only [advance, flatDisk_read hlt]
  obtain ⟨f, hf⟩ := hκ (c.dev lba)
  rw [hf]
  refine ⟨trivial, .look fun c' _ => ⟨rfl, ?_⟩⟩
  simp only [advance, settle]
  refine .turn (fun c'' hK => ?_) (fun c'' _ hF _ => ?_) fun c'' _ => ?_
  · simp only [advance, flatDisk_write hlt]
    exact ⟨hK.ready, hK.root, fun j hj hne => (hentry _ _ _).trans (hK.others j hj hne)⟩
  · simp only [advance, flatDisk_write hlt]
    unfold Free at hF ⊢
    rw [hentry]; exact hF
  · simp only [advance, flatDisk_write hlt]
    exact h

/-- Writing the entry changes no other one. -/
theorem takes_dirWriteEntry (hsize : 129 ≤ size) (hs : slot < slotCount) (e : Dirent) {rest : Bool → FsM Int} {a : Int}
    (hrest : rest true = .ret a) :
    Takes (flatDisk size) (Contested d slot) (Free slot) (dirWriteEntry slot e >>= rest) := by
  obtain ⟨κ, hadv, hκ⟩ := @dirWriteEntry_asks size Int slot hs e rest
  have hlt : 97 + slot / 9 < size := by simp only [slotCount] at hs; omega
  refine .look fun c hK => ?_
  rw [hadv c hK.root]
  refine ⟨rfl, .look fun c' hK' => ?_⟩
  simp only [advance, flatDisk_read hlt, hκ]
  refine ⟨trivial, .turn (fun c'' hK'' => ?_) (fun c'' _ _ hret => ?_) fun c'' _ => ?_⟩
  · simp only [advance, flatDisk_write hlt]
    refine ⟨hK''.ready, hK''.root, fun j hj hne => ?_⟩
    -- the sector was read before, but its other entries are still the same
    have hother := entryAt_withEntry_of_ne (Function.update c''.dev (97 + slot / 9) (c'.dev (97 + slot / 9))) hne e
    unfold withEntry at hother
    rw [Function.update_idem, Function.update_self] at hother
    rw [hother]
    by_cases hsector : j / 9 = slot / 9
    · rw [entryAt_congr (d := c'.dev) (by rw [hsector, Function.update_self])]
      exact hK'.others j hj hne
    · rw [entryAt_congr (Function.update_of_ne (by omega) _ _)]
      exact hK''.others j hj hne
  · simp only [advance, flatDisk_write hlt, hrest] at hret
    cases hret
  · simp only [advance, flatDisk_write hlt, hrest]
    exact .ret a

/-- `fs_create` takes the first free inode in the turn after it has found its slot. -/
theorem advance_createIn {name : CStr} {i : Nat} {c : Conf FsMem (Nat → Sector)} (hi : firstFreeInode c.mem = some i) :
    advance (flatDisk size) (createIn name (some slot)) c =
      (saveInode i >>= createSaved name slot i, { c with mem := setInode c.mem i .fresh }) := by
  rw [createIn, advance_load, hi]
  simp only [settle_modify]
  rw [settle_of_asks (asks_saveInode (firstFreeInode_some hi).2.2 _)]

/-- Having found the slot free, `fs_create` writes its entry there, whatever the other call does. -/
theorem takes_createIn (hsize : 129 ≤ size) (hs : slot < slotCount) (name : CStr) :
    Takes (flatDisk size) (Contested d slot) (Free slot) (createIn name (some slot)) := by
  have hturn : ∀ c : Conf FsMem (Nat → Sector), Contested d slot c →
      Contested d slot (advance (flatDisk size) (createIn name (some slot)) c).2 ∧
        (advance (flatDisk size) (createIn name (some slot)) c).2.dev = c.dev ∧
        Takes (flatDisk size) (Contested d slot) (Free slot)
          (advance (flatDisk size) (createIn name (some slot)) c).1 := by
    intro c hK
    cases hi : firstFreeInode c.mem with
    | none =>
      rw [createIn, advance_load, hi]
      exact ⟨hK, rfl, .ret 0⟩
    | some i =>
      obtain ⟨i1, -, i3⟩ := firstFreeInode_some hi
      have hroot : (setInode c.mem i .fresh).inode 0 = rootInode 32 := by
        rw [inode_setInode, if_neg (by omega)]
        exact hK.root
      rw [advance_createIn hi]
      exact ⟨⟨hK.ready, hroot, hK.others⟩, rfl, takes_saveInode hsize i3 (takes_dirWriteEntry hsize hs _ rfl)⟩
  refine .turn (fun c hK => (hturn c hK).1) (fun c hK hF _ => ?_) fun c hK => (hturn c hK).2.2
  unfold Free at hF ⊢
  rw [(hturn c hK).2.1]
  exact hF

end

/-! ## The race -/

section

variable {N size slot : Nat} {d : Nat → Sector} {m : FsMem} {name : Bool → CStr}

theorem freeSlot_some (h : freeSlot d = some slot) :
    slot < slotCount ∧ (entryAt d slot).used = 0 ∧ ∀ j < slot, (entryAt d j).used ≠ 0 := by
  unfold freeSlot at h
  rw [List.find?_range_eq_some] at h
  obtain ⟨h1, h2, h3⟩ := h
  exact ⟨List.mem_range.1 h2, by simpa using h1, fun j hj => by simpa using h3 j hj⟩

/-- `fs_create` is about to read the first free slot, and goes on with it. -/
def AtSlot (size : Nat) (d : Nat → Sector) (slot : Nat) (name : CStr) (p : FsM Int) : Prop :=
  p.asks = true ∧ ∀ c, Contested d slot c → Free slot c → advance (flatDisk size) p c = (createIn name (some slot), c)

theorem AtSlot.decides (hsize : 129 ≤ size) (hs : slot < slotCount) {name : CStr} {p : FsM Int}
    (h : AtSlot size d slot name p) :
    Decides (flatDisk size) (Contested d slot) (Free slot) p := by
  refine ⟨h.1, fun c hK hF => ?_⟩
  rw [h.2 c hK hF]
  exact ⟨rfl, rfl, takes_createIn hsize hs name⟩

/-- `fs_create` of an absent name comes to the first free slot. -/
theorem fsCreate_atSlot (hsize : 129 ≤ size) {name : CStr} (hn : validName name = true) (hs : slot < slotCount) :
    Scans (flatDisk size) (Lookable slot name) (AtSlot size d slot name) (slotCount + slot) (2 * (slotCount + slot) + 1)
      (fsCreate name) := by
  have hrange : List.range' slot (dirSlots - slot) = slot :: List.range' (slot + 1) (dirSlots - slot - 1) := by
    have hlt : slot < dirSlots := hs.trans (by decide)
    obtain ⟨r, hr⟩ : ∃ r, dirSlots - slot = r + 1 := ⟨dirSlots - slot - 1, by omega⟩
    rw [hr, List.range'_succ, Nat.add_sub_cancel]
  have hlast : Scans (flatDisk size) (Lookable slot name) (AtSlot size d slot name) 0 1
      ((List.range' slot (dirSlots - slot)).findSomeM? (lookAt matchUnused) >>= createIn name) := by
    rw [hrange, List.findSomeM?, Prog.bind_assoc, lookAt, Prog.bind_assoc]
    obtain ⟨hasks, hret, κ, hadv, hκ⟩ := @dirReadEntry_asks size Int slot hs _
    refine .access hasks hret (fun c hc => hadv c hc.root) (.done ⟨rfl, fun c hK hF => ?_⟩)
    have hlba : 97 + slot / 9 < size := by simp only [slotCount] at hs; omega
    have hfound : matchUnused slot (entryAt c.dev slot) = some slot := if_pos hF
    simp only [advance, flatDisk_read hlba, hκ]
    refine congrArg (·, c) ?_
    show (pure (matchUnused slot (entryAt c.dev slot)) >>= _ : FsM Int) = _
    rw [hfound]
    rfl
  have hscan := fsCreate_scans hsize hn hs.le (fun p hasks _ hp => ?_) hlast
  · have hn : 0 + slot + slotCount = slotCount + slot := by omega
    have hk : 1 + 2 * slot + 2 * slotCount = 2 * (slotCount + slot) + 1 := by omega
    rwa [hn, hk] at hscan
  · rw [hp.1] at hasks
    cases hasks

/-- A finished call leaves the slots at the front used and another name absent. -/
theorem Created.lookable {name name' : CStr} {ret : Int} {d' : Nat → Sector} {m' : FsMem}
    (hc : Created false false d m name ret d' m') (hready : m.filesystemReady = true) (hroot : m.inode 0 = rootInode 32)
    (hbelow : ∀ j < slot, (entryAt d j).used ≠ 0) (habsent : lookup d name' = none) (hne : name' ≠ name) :
    Lookable slot name' ⟨m', d'⟩ := by
  rw [lookup_eq_none] at habsent
  cases hc with
  | refused => exact ⟨hready, hroot, hbelow, habsent⟩
  | unsaved _ _ hrw => simp at hrw
  | undone _ _ _ hrw => simp at hrw
  | done i slot' _ hvalid _ _ hu hi =>
    obtain ⟨i1, -, i3⟩ := firstFreeInode_some hi
    obtain ⟨hnew, hold⟩ := @entryAt_created d name i slot' i3
    refine ⟨hready, ?_, fun j hj => ?_, fun j hj hname => ?_⟩
    · rw [inode_setInode, if_neg (by omega)]
      exact hroot
    · by_cases hjs : j = slot'
      · rw [hjs] at hj
        exact absurd hu (hbelow slot' hj)
      · simp only [hold j hjs]
        exact hbelow j hj
    · by_cases hjs : j = slot'
      · simp only [hjs, hnew, hasName_newEntry hvalid] at hname
        exact hne hname
      · simp only [hold j hjs] at hname
        exact habsent j hj hname

/-- Two calls of `fs_create` for two absent names race for the first free slot. -/
theorem creates_race (h : Working N d m) (hN : N ≤ size) (hvalid : ∀ b, validName (name b) = true)
    (habsent : ∀ b, lookup d (name b) = none) (hne : name true ≠ name false) (hfree : freeSlot d = some slot) :
    Strands.Racing (flatDisk size) (fun b => Lookable slot (name b)) (Contested d slot) (Free slot) (slotCount + slot)
      (fun b => fsCreate (name b)) ⟨m, d⟩ := by
  obtain ⟨hs, hu, hbelow⟩ := freeSlot_some hfree
  have hsize : 129 ≤ size := h.sound.lo.le.trans hN
  refine ⟨fun b => ⟨_, (fsCreate_atSlot hsize (hvalid b) hs).mono fun p hp => hp.decides hsize hs⟩, fun b c hK hF => ?_,
    ⟨h.ready, h.sound.root, fun _ _ _ => rfl⟩, hu, fun b => ?_⟩
  · refine ⟨hK.ready, hK.root, fun j hj => ?_, fun j hj hname => ?_⟩
    · rw [hK.others j (by omega) (by omega)]
      exact hbelow j hj
    · by_cases hjs : j = slot
      · rw [hjs] at hname
        exact hname.1 hF
      · rw [hK.others j hj hjs] at hname
        exact lookup_eq_none.1 (habsent b) j hj hname
  · refine (flatDisk_exec hN (fsCreate_exact h.sound (name b))).lookable h.ready h.sound.root hbelow (habsent !b) ?_
    cases b
    · exact hne
    · exact hne.symm

end

/-! ## What is left of the two files -/

/-- Both names exist, on different inodes. -/
def BothExist {δ : Type} (D : Device δ Sector) (name : Bool → CStr) (c : Conf FsMem δ) : Prop :=
  (∀ b, ((fsExists (name b)).run D c).1 = 1) ∧
    ((findDirEntry (name true)).run D c).1 ≠ ((findDirEntry (name false)).run D c).1

theorem bothExist_hom {δ ε : Type} {D : Device δ Sector} {E : Device ε Sector} {P : δ → Prop} {v : δ → ε}
    (h : Hom D E P v) {name : Bool → CStr} {c : Conf FsMem δ} (hc : P c.dev) :
    BothExist E name ⟨c.mem, v c.dev⟩ ↔ BothExist D name c := by
  have hrun : ∀ p : FsM Int, (p.run E ⟨c.mem, v c.dev⟩).1 = (p.run D c).1 := fun p => (run_hom h p c hc).1.symm
  unfold BothExist
  simp only [hrun]

section

variable {N size slot : Nat} {d : Nat → Sector} {m : FsMem} {name : Bool → CStr}

/-- A name that exists is some entry's, on any mounted directory. -/
theorem fsExists_entry (hN : 129 < N) (hroot : m.inode 0 = rootInode 32) (name : CStr) :
    (fsExists name).wp (exact N false false)
      (fun res _ _ => res = 1 → ∃ j < slotCount, (entryAt d j).hasName name) d m := by
  unfold fsExists
  rw [wp_bind, wp_load]
  split
  · intro h
    cases h
  · refine (findDirEntry_exact hN hroot name).seq ?_
    rintro res d' m' ⟨rfl, rfl, ⟨rfl, -⟩ | ⟨j, hj, -, hname, -⟩⟩
    · intro h
      cases h
    · exact fun _ => ⟨j, hj, hname⟩

/-- If both calls wrote to one slot, one name is lost. -/
theorem Contested.not_bothExist {c : Conf FsMem (Nat → Sector)} (h : Contested d slot c) (hN : 129 < size)
    (habsent : ∀ b, lookup d (name b) = none) (hne : name true ≠ name false) : ¬ BothExist (flatDisk size) name c := by
  rintro ⟨hexists, -⟩
  have hname : ∀ b, (entryAt c.dev slot).hasName (name b) := by
    intro b
    obtain ⟨j, hj, hname⟩ := flatDisk_exec le_rfl (fsExists_entry hN h.root (name b)) (hexists b)
    by_cases hjs : j = slot
    · rwa [hjs] at hname
    · rw [h.others j hj hjs] at hname
      exact absurd hname (lookup_eq_none.1 (habsent b) j hj)
  exact hne (strEqual_unique (hname true).2 (hname false).2)

/-- If the calls ran one after the other, both files are there. -/
theorem Working.bothExist {i : Bool → Nat} (h : Working N d m) (hN : N ≤ size)
    (hl : ∀ b, lookup d (name b) = some (i b)) (hne : name true ≠ name false) :
    BothExist (flatDisk size) name ⟨m, d⟩ := by
  have hentry : ∀ b, ((findDirEntry (name b)).run (flatDisk size) ⟨m, d⟩).1 = i b := by
    intro b
    obtain ⟨j, hj, hname, hi⟩ := h.linked.lookup_iff.1 (hl b)
    obtain ⟨-, -, ⟨-, hno⟩ | ⟨j', hj', hres, -, -, hname', -⟩⟩ := flatDisk_exec hN (findDirEntry_sound h.sound (name b))
    · exact absurd hname (hno rfl j hj)
    · rw [hres, ← hi, h.linked.unique j hj j' hj' _ hname hname']
  refine ⟨fun b => ?_, ?_⟩
  · obtain ⟨j, hj, hname, -⟩ := h.linked.lookup_iff.1 (hl b)
    obtain ⟨-, -, hres⟩ := flatDisk_exec hN (fsExists_exact h.sound (name b))
    rw [hres rfl, if_pos ⟨h.ready, h.linked.lookup_valid (hl b), j, hj, hname⟩]
  · rw [hentry, hentry]
    intro hi
    have hinode : i true = i false := by exact_mod_cast hi
    exact hne (h.linked.lookup_inj (hl true) (by rw [hinode]; exact hl false))

theorem serial_bothExist (h : Working N d m) (hN : N ≤ size) (hne : name true ≠ name false) {b : Bool}
    {c₁ c₂ : Conf FsMem (Nat → Sector)} (h₁ : (fsCreate (name b)).run (flatDisk size) ⟨m, d⟩ = (1, c₁))
    (h₂ : (fsCreate (name !b)).run (flatDisk size) c₁ = (1, c₂)) : BothExist (flatDisk size) name c₂ := by
  have hne' : name b ≠ name !b := by
    cases b
    · exact hne.symm
    · exact hne
  have hfirst := flatDisk_exec hN (fsCreate_working h (name b))
  rw [h₁] at hfirst
  rcases hfirst with ⟨h0, -⟩ | ⟨i, -, -, -, -, -, hw₁, hl₁, -⟩
  · cases h0
  have hsecond := flatDisk_exec hN (fsCreate_working hw₁ (name !b))
  rw [h₂] at hsecond
  rcases hsecond with ⟨h0, -⟩ | ⟨i', -, -, -, -, -, hw₂, hl₂, -⟩
  · cases h0
  refine hw₂.bothExist (i := fun b' => if b' = b then i else i') hN (Strands.forall_bool_not b ?_ ?_) hne
  · rw [if_pos rfl, hl₂, if_neg hne', hl₁, if_pos rfl]
  · rw [if_neg (by simp), hl₂, if_pos rfl]

end

/-! ## Any schedule -/

/-- The requests after which `fs_create` of an absent name looks at the first free slot. -/
def scanRequests (d : Nat → Sector) : Nat := slotCount + (freeSlot d).getD slotCount

section

variable {N : Nat} {cp : Primitives} {s : Conf FsMem Machine} {name : Bool → CStr}

/-- A mounted filesystem on a healthy machine behaves as on its contents. -/
theorem Live.flatDisk_hom (h : Live cp N false false s) :
    ∃ size, N ≤ size ∧ ∃ P : Machine → Prop, ∃ v : Machine → Nat → Sector,
    Hom (fsDisk cp) (flatDisk size) P v ∧ P s.dev ∧ v s.dev = logicalDisk cp s.dev := by
  obtain ⟨slot, hsealed, hserves, -⟩ := h
  have hfaults : ∀ n, (unsealed cp slot s.dev.ata).faults n = false := by
    rcases hserves.faultless with ⟨hfalse, -⟩ | hnone
    · cases hfalse
    · exact hnone
  refine ⟨min (unsealed cp slot s.dev.ata).diskSectors 0x10000000, ?_, _, _, (sealed_hom cp slot).comp (ata_flatDisk _),
    ⟨hsealed, hserves.ready, rfl, hfaults⟩, hserves.disk⟩
  have hN := hserves.size
  have haddressable := hserves.addressable
  omega

theorem Working.freeSlot_isSome {d : Nat → Sector} {m : FsMem} (h : Working N d m) :
    ∃ slot, freeSlot d = some slot := by
  obtain ⟨slot, hs, hu⟩ := h.linked.exists_unused h.sound
  refine Option.isSome_iff_exists.1 (List.find?_isSome.2 ⟨slot, List.mem_range.2 hs, ?_⟩)
  simpa using hu

theorem Visited.absent_iff (h : Visited cp N s) {n : CStr} :
    ((fsExists n).run (fsDisk cp) s).1 = 0 ↔ lookup (logicalDisk cp s.dev) n = none := by
  have hw := h.healthy.working
  obtain ⟨⟨-, -, hres⟩, -⟩ := h.healthy.live.exec (Q := fun res d' m' => d' = logicalDisk cp s.dev ∧ m' = s.mem ∧
    (res = 0 ↔ lookup (logicalDisk cp s.dev) n = none)) (fsExists_working hw n)
    (by rintro _ _ _ ⟨rfl, rfl, -⟩; exact hw.sound)
  exact hres

/-- Two calls of `fs_create` by two threads, for two absent names, in every schedule of their requests
in which both return 1: both files are there exactly if one call has returned before the other one
looks at the first free slot. -/
theorem creates_interleaved_iff (h : Visited cp N s) (hvalid : ∀ b, validName (name b) = true)
    (habsent : ∀ b, ((fsExists (name b)).run (fsDisk cp) s).1 = 0) (hne : name true ≠ name false) (schedule : List Bool)
    (hboth : ∀ b, ((Strands.run (fsDisk cp) schedule (.start (fun b => fsCreate (name b)) s)).strand b).prog.returned =
      some 1) :
    BothExist (fsDisk cp) name (Strands.run (fsDisk cp) schedule (.start (fun b => fsCreate (name b)) s)).conf ↔
      Strands.OneFirst (fsDisk cp) (scanRequests (logicalDisk cp s.dev)) schedule (.start
        (fun b => fsCreate (name b)) s) := by
  have hw := h.healthy.working
  obtain ⟨size, hN, P, v, hhom, hP, hv⟩ := h.healthy.live.flatDisk_hom
  obtain ⟨slot, hfree⟩ := hw.freeSlot_isSome
  have hnone : ∀ b, lookup (logicalDisk cp s.dev) (name b) = none := fun b => h.absent_iff.1 (habsent b)
  have hrace := creates_race hw hN hvalid hnone hne hfree
  -- the run on the machine is the run on its contents
  obtain ⟨hrun, hP'⟩ := Strands.run_hom hhom schedule (x := .start (fun b => fsCreate (name b)) s) hP
  rw [← bothExist_hom hhom hP', ← Strands.oneFirst_hom hhom hP]
  generalize Strands.run (fsDisk cp) schedule (.start (fun b => fsCreate (name b)) s) = x at hboth hrun hP' ⊢
  rw [Strands.start_onDevice, hv] at hrun ⊢
  obtain ⟨hserial, hclash⟩ := hrace.outcome schedule (a := fun _ => 1) fun b => by rw [hrun]; exact hboth b
  rw [hrun] at hserial hclash
  have hscan : scanRequests (logicalDisk cp s.dev) = slotCount + slot := by rw [scanRequests, hfree, Option.getD_some]
  rw [hscan]
  constructor
  · intro hexist
    by_contra hnot
    exact (hclash hnot).not_bothExist (hw.sound.lo.trans_le hN) hnone hne hexist
  · intro hfirst
    obtain ⟨b, h₁, h₂⟩ := hserial hfirst
    exact serial_bothExist hw hN hne h₁ h₂

end

/-! ## A schedule that loses a file -/

/-- Both calls find the slot, and then both write to it. -/
def clashSchedule (slot : Nat) : List Bool :=
  List.replicate (2 * (slotCount + slot) + 2) true ++ List.replicate (2 * (slotCount + slot) + 2) false ++
    List.replicate 7 true ++ List.replicate 7 false

section

variable {N size slot : Nat} {d : Nat → Sector} {m : FsMem}

theorem solo_fsCreate (hsize : 129 ≤ size) {name : CStr} (hn : validName name = true) (hs : slot < slotCount)
    {c : Conf FsMem (Nat → Sector)} (hlook : Lookable slot name c) (hK : Contested d slot c) (hF : Free slot c) :
    solo (flatDisk size) (2 * (slotCount + slot) + 2) (fsCreate name) c = (createIn name (some slot), c) := by
  obtain ⟨p, hp, hsolo⟩ := (fsCreate_atSlot (d := d) hsize hn hs).solo hlook
  rw [solo_add _ 1, hsolo]
  exact hp.2 c hK hF

theorem solo_saveInode (hsize : 129 ≤ size) {i : Nat} (hi : i < 128) (rest : Bool → FsM Int)
    (c : Conf FsMem (Nat → Sector)) :
    ∃ dev, solo (flatDisk size) 3 (saveInode i >>= rest) c = (rest true, ⟨c.mem, dev⟩) := by
  obtain ⟨lba, hlba, κ, hprog, hκ⟩ := saveInode_asks hi rest
  obtain ⟨f, hf⟩ := hκ (c.dev lba)
  have hlt : lba < size := by omega
  refine ⟨Function.update c.dev lba (f c.mem), ?_⟩
  rw [hprog]
  simp only [solo, advance, flatDisk_read hlt, hf, settle, flatDisk_write hlt]

theorem solo_dirWriteEntry (hsize : 129 ≤ size) (hs : slot < slotCount) (e : Dirent) (rest : Bool → FsM Int)
    {c : Conf FsMem (Nat → Sector)} (hroot : c.mem.inode 0 = rootInode 32) :
    ∃ dev, solo (flatDisk size) 3 (dirWriteEntry slot e >>= rest) c = (rest true, ⟨c.mem, dev⟩) := by
  obtain ⟨κ, hadv, hκ⟩ := @dirWriteEntry_asks size Int slot hs e rest
  have hlt : 97 + slot / 9 < size := by simp only [slotCount] at hs; omega
  refine ⟨withEntry c.dev slot e, ?_⟩
  rw [solo, hadv c hroot]
  simp only [solo, advance, flatDisk_read hlt, hκ, flatDisk_write hlt]
  rfl

/-- The turns in which `fs_create` takes its inode and writes its entry. -/
theorem solo_createIn (hsize : 129 ≤ size) (hs : slot < slotCount) {name : CStr} {i : Nat}
    {c : Conf FsMem (Nat → Sector)} (hroot : c.mem.inode 0 = rootInode 32) (hi : firstFreeInode c.mem = some i) :
    ∃ dev, solo (flatDisk size) 7 (createIn name (some slot)) c = (.ret 1, ⟨setInode c.mem i .fresh, dev⟩) := by
  obtain ⟨i1, -, i3⟩ := firstFreeInode_some hi
  have hroot' : (setInode c.mem i .fresh).inode 0 = rootInode 32 := by
    rw [inode_setInode, if_neg (by omega)]
    exact hroot
  obtain ⟨dev, hsave⟩ := solo_saveInode hsize i3 (createSaved name slot i) { c with mem := setInode c.mem i .fresh }
  obtain ⟨dev', hwrite⟩ := solo_dirWriteEntry hsize hs (newEntry name i) (fun ok => if !ok then do
      modify fun m => setInode m i { m.inode i with mode := fsModeFree }
      let _ ← saveInode i
      pure 0
    else pure 1) (c := ⟨setInode c.mem i .fresh, dev⟩) hroot'
  refine ⟨dev', ?_⟩
  rw [solo, advance_createIn hi, solo_add 3 3, hsave]
  exact hwrite

/-- Both calls return 1, and both have written to the slot. -/
theorem creates_clash {name : Bool → CStr} (h : Working N d m) (hN : N ≤ size) (hvalid : ∀ b, validName (name b) = true)
    (habsent : ∀ b, lookup d (name b) = none) (hne : name true ≠ name false)
    (hfree : freeSlot d = some slot) {i i' : Nat} (hi : firstFreeInode m = some i)
    (hi' : firstFreeInode (setInode m i .fresh) = some i') :
    let x := Strands.run (flatDisk size) (clashSchedule slot) (.start (fun b => fsCreate (name b)) ⟨m, d⟩)
    (∀ b, (x.strand b).prog.returned = some 1) ∧ Contested d slot x.conf := by
  intro x
  have hrace := creates_race h hN hvalid habsent hne hfree
  obtain ⟨hs, -⟩ := freeSlot_some hfree
  have hsize : 129 ≤ size := h.sound.lo.le.trans hN
  have hlook : ∀ b, Lookable slot (name b) ⟨m, d⟩ := fun b => hrace.relies b _ hrace.keeps hrace.free
  have hfind : ∀ b, solo (flatDisk size) (2 * (slotCount + slot) + 2) (fsCreate (name b)) ⟨m, d⟩ =
      (createIn (name b) (some slot), ⟨m, d⟩) := fun b =>
    solo_fsCreate hsize (hvalid b) hs (hlook b) hrace.keeps hrace.free
  simp only [x, clashSchedule, Strands.run_append]
  -- both calls find the slot
  obtain ⟨prog₁, conf₁, other₁⟩ := Strands.run_replicate (x := .start (fun b => fsCreate (name b)) ⟨m, d⟩) (hfind true)
  generalize Strands.run (flatDisk size) (List.replicate _ true) (.start _ _) = x₁ at prog₁ conf₁ other₁ ⊢
  rw [Bool.not_true] at other₁
  obtain ⟨prog₂, conf₂, other₂⟩ :=
    Strands.run_replicate (x := x₁) (p := createIn (name false) (some slot)) (c := ⟨m, d⟩)
    (by rw [other₁, conf₁]; exact hfind false)
  generalize Strands.run (flatDisk size) (List.replicate _ false) x₁ = x₂ at prog₂ conf₂ other₂ ⊢
  rw [Bool.not_false] at other₂
  -- then the first one writes its entry, and the second one writes over it
  obtain ⟨dev, hdev⟩ := solo_createIn hsize hs (c := ⟨m, d⟩) hrace.keeps.root hi
  have hK₁ := (takes_createIn hsize hs (name true)).solo 7 hrace.keeps
  rw [hdev] at hK₁
  obtain ⟨prog₃, conf₃, other₃⟩ := Strands.run_replicate (x := x₂) (p := .ret 1)
    (c := ⟨setInode m i .fresh, dev⟩) (by rw [other₂, prog₁, conf₂]; exact hdev)
  generalize Strands.run (flatDisk size) (List.replicate 7 true) x₂ = x₃ at prog₃ conf₃ other₃ ⊢
  rw [Bool.not_true] at other₃
  obtain ⟨dev', hdev'⟩ := solo_createIn hsize hs (c := ⟨setInode m i .fresh, dev⟩) hK₁.root hi'
  have hK₂ := (takes_createIn hsize hs (name false)).solo 7 hK₁
  rw [hdev'] at hK₂
  obtain ⟨prog₄, conf₄, other₄⟩ := Strands.run_replicate (x := x₃) (p := .ret 1)
    (c := ⟨setInode (setInode m i .fresh) i' .fresh, dev'⟩) (by rw [other₃, prog₂, conf₃]; exact hdev')
  rw [Bool.not_false] at other₄
  refine ⟨Strands.forall_bool_not true ?_ ?_, by rw [conf₄]; exact hK₂⟩
  · rw [other₄, prog₃]
    rfl
  · rw [Bool.not_true, prog₄]
    rfl

/-- On the machine as well: both calls return 1, and one file is lost. -/
theorem Visited.creates_clash {cp : Primitives} {s : Conf FsMem Machine} {name : Bool → CStr} (h : Visited cp N s)
    (hvalid : ∀ b, validName (name b) = true) (habsent : ∀ b, lookup (logicalDisk cp s.dev) (name b) = none)
    (hne : name true ≠ name false) (hfree : freeSlot (logicalDisk cp s.dev) = some slot) {i i' : Nat}
    (hi : firstFreeInode s.mem = some i) (hi' : firstFreeInode (setInode s.mem i .fresh) = some i') :
    let x := Strands.run (fsDisk cp) (clashSchedule slot) (.start (fun b => fsCreate (name b)) s)
    (∀ b, (x.strand b).prog.returned = some 1) ∧ ¬ BothExist (fsDisk cp) name x.conf := by
  intro x
  have hw := h.healthy.working
  obtain ⟨size, hN, P, v, hhom, hP, hv⟩ := h.healthy.live.flatDisk_hom
  obtain ⟨hrun, hP'⟩ := Strands.run_hom hhom (clashSchedule slot) (x := .start (fun b => fsCreate (name b)) s) hP
  rw [Strands.start_onDevice, hv] at hrun
  obtain ⟨hboth, hK⟩ := SpectreOS.creates_clash hw hN hvalid habsent hne hfree hi hi'
  rw [hrun] at hboth hK
  refine ⟨hboth, ?_⟩
  rw [← bothExist_hom hhom hP']
  exact hK.not_bothExist (hw.sound.lo.trans_le hN) habsent hne

theorem Vacant.freeSlot (h : Vacant d m) : freeSlot d = some 0 := by
  unfold SpectreOS.freeSlot
  rw [show slotCount = 287 + 1 from rfl, List.range_succ_eq_map, List.find?_cons_of_pos]
  simpa using h.entries 0 (by decide)

theorem Vacant.secondFreeInode (h : Vacant d m) : SpectreOS.firstFreeInode (setInode m 1 .fresh) = some 2 := by
  unfold SpectreOS.firstFreeInode
  rw [show fsMaxFiles - 1 = 125 + 1 + 1 from rfl, List.range'_succ, List.range'_succ, List.find?_cons_of_neg,
    List.find?_cons_of_pos]
  · rw [inode_setInode, if_neg (by decide), h.inodes 2 (by omega)]
    rfl
  · rw [inode_setInode, if_pos (by decide)]
    decide

end

/-- The two names of the example. -/
def namesAB (b : Bool) : CStr := if b then nameA else nameB

theorem namesAB_valid (b : Bool) : validName (namesAB b) = true := by
  cases b <;> decide

theorem namesAB_ne : namesAB true ≠ namesAB false := by decide

theorem vacant_boot (cp : Primitives) :
    ∃ s₀, fsFormat (current cp) (fun _ => 0) (bootConf (blankDrive 200)) = (true, s₀) ∧
    Visited cp 200 s₀ ∧ Vacant (logicalDisk cp s₀.dev) s₀.mem := by
  obtain ⟨s₀, hs₀, hreach⟩ := reached_boot cp
  have hok : (fsFormat (current cp) (fun _ => 0) (bootConf (blankDrive 200))).1 = true := by rw [hs₀]
  obtain ⟨-, hfresh⟩ := @fsFormat_live cp (fun _ => 0) 200 false false _ (Registry.boot _) (.inr fun _ => rfl) hok rfl
  rw [hs₀] at hfresh
  exact ⟨s₀, hs₀, hreach.visited, hfresh.vacant⟩

/-- On a freshly formatted disk both calls return 1, and one file is lost. -/
theorem creates_lost_boot :
    ∃ s₀, fsFormat (current nullPrimitives) (fun _ => 0) (bootConf (blankDrive 200)) = (true, s₀) ∧
      let x := Strands.run (fsDisk nullPrimitives) (clashSchedule 0) (.start (fun b => fsCreate (namesAB b)) s₀)
      (∀ b, ((fsExists (namesAB b)).run (fsDisk nullPrimitives) s₀).1 = 0) ∧
        (∀ b, (x.strand b).prog.returned = some 1) ∧ ¬ BothExist (fsDisk nullPrimitives) namesAB x.conf := by
  obtain ⟨s₀, hs₀, hvisited, hvacant⟩ := vacant_boot nullPrimitives
  have hnone : ∀ n, lookup (logicalDisk nullPrimitives s₀.dev) n = none := fun n =>
    lookup_eq_none.2 fun slot hs hname => hname.1 (hvacant.entries slot hs)
  exact ⟨s₀, hs₀, fun b => hvisited.absent_iff.2 (hnone _),
    hvisited.creates_clash namesAB_valid (fun _ => hnone _) namesAB_ne hvacant.freeSlot hvacant.firstFreeInode
      hvacant.secondFreeInode⟩

theorem creates_interleaved_boot :
    ∃ s₀, fsFormat (current nullPrimitives) (fun _ => 0) (bootConf (blankDrive 200)) = (true, s₀) ∧
      (BothExist (fsDisk nullPrimitives) namesAB
          (Strands.run (fsDisk nullPrimitives) (clashSchedule 0) (.start (fun b => fsCreate (namesAB b)) s₀)).conf ↔
        Strands.OneFirst (fsDisk nullPrimitives) (scanRequests (logicalDisk nullPrimitives s₀.dev)) (clashSchedule 0)
          (.start (fun b => fsCreate (namesAB b)) s₀)) := by
  obtain ⟨s₀, hs₀, hvisited, hvacant⟩ := vacant_boot nullPrimitives
  have hnone : ∀ n, lookup (logicalDisk nullPrimitives s₀.dev) n = none := fun n =>
    lookup_eq_none.2 fun slot hs hname => hname.1 (hvacant.entries slot hs)
  have hclash := hvisited.creates_clash namesAB_valid
    (fun _ => hnone _) namesAB_ne hvacant.freeSlot hvacant.firstFreeInode
    hvacant.secondFreeInode
  exact ⟨s₀, hs₀, creates_interleaved_iff hvisited namesAB_valid (fun b => hvisited.absent_iff.2 (hnone _)) namesAB_ne
    (clashSchedule 0) hclash.1⟩

end SpectreOS
