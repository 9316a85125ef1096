/-
What no file operation touches, from any tables and whatever the device answers. Sector 0: the
sectors written are the metadata sectors, the sector an entry's block was found in (a block without
a sector is 0 and is not written), and newly allocated ones, from 97 on. And the reserved words of
the superblock in memory, which hold the encryption parameters: they are neither read nor changed.
-/
import SpectreOS.Fs.Mount

namespace SpectreOS

open BlockIO Prog

/-- Requests with any answers, but no write to sector 0. -/
def sparing : Iface Unit Sector where
  readPre _ _ := True
  readPost _ _ _ _ := True
  writePre _ lba _ := lba ≠ 0
  writePost _ _ _ _ _ := True

theorem sparing_models {δ : Type} (D : Device δ Sector) : Models sparing D fun _ _ => True :=
  ⟨fun _ _ _ _ _ => ⟨(), trivial, trivial⟩, fun _ _ _ _ _ _ => ⟨(), trivial, trivial⟩⟩

/-- The tables under a superblock with other reserved words. -/
def FsMem.withReserved (m : FsMem) (reserved : Fin 8 → Nat) : FsMem :=
  { m with superblock := { m.superblock with reserved } }

/-- With other reserved words the program makes the same requests, does the same to the tables and
returns the same. -/
def Blind {α : Type} (p : FsM α) : Prop :=
  ∀ {δ : Type} (D : Device δ Sector) (reserved : Fin 8 → Nat) (m : FsMem) (d : δ),
    p.run D ⟨m.withReserved reserved, d⟩ =
      ((p.run D ⟨m, d⟩).1, ⟨(p.run D ⟨m, d⟩).2.mem.withReserved reserved, (p.run D ⟨m, d⟩).2.dev⟩)

/-- The program does not write sector 0, is blind to the reserved words and returns a value in `Q`. -/
structure SparingAll {α : Type} (p : FsM α) (Q : α → Prop) : Prop where
  zero : ∀ m, p.wp sparing (fun a _ _ => Q a) () m
  blind : Blind p

def Sparing {α : Type} (p : FsM α) : Prop := SparingAll p fun _ => True

section Sparing

variable {α α' ι : Type} {p : FsM α} {f : α → FsM α'} {Q : α → Prop} {R : α' → Prop}

theorem SparingAll.pure {a : α} (h : Q a) : SparingAll (Pure.pure a : FsM α) Q := ⟨fun _ => h, fun _ _ _ _ => rfl⟩

theorem Sparing.pure (a : α) : Sparing (Pure.pure a : FsM α) := SparingAll.pure trivial

theorem SparingAll.bind (hp : SparingAll p Q) (hf : ∀ a, Q a → SparingAll (f a) R) : SparingAll (p >>= f) R := by
  constructor
  · exact fun m => (hp.zero m).seq fun a _ m' ha => (hf a ha).zero m'
  · intro δ D reserved m d
    obtain ⟨-, hQ, -⟩ := wp_sound (sparing_models D) p (c := ⟨m, d⟩) (hp.zero m) trivial
    simp only [run_bind]
    rw [hp.blind D reserved m d]
    exact (hf _ hQ).blind D reserved _ _

theorem Sparing.bind (hp : Sparing p) (hf : ∀ a, Sparing (f a)) :
    Sparing (p >>= f) := SparingAll.bind hp fun a _ => hf a

theorem SparingAll.load {f : FsMem → FsM α} (hf : ∀ reserved m, f (m.withReserved reserved) = f m)
    (h : ∀ m, SparingAll (f m) Q) : SparingAll (Prog.load >>= f) Q := by
  constructor
  · exact fun m => (h m).zero m
  · intro δ D reserved m d
    simp only [run_bind, run_load]
    rw [hf]
    exact (h m).blind D reserved m d

theorem Sparing.load {f : FsMem → FsM α} (hf : ∀ reserved m, f (m.withReserved reserved) = f m)
    (h : ∀ m, Sparing (f m)) :
    Sparing (Prog.load >>= f) := SparingAll.load hf h

theorem Sparing.modify {g : FsMem → FsMem}
    (hg : ∀ reserved m, g (m.withReserved reserved) = (g m).withReserved reserved) :
    Sparing (Prog.modify g : FsM Unit) := by
  constructor
  · exact fun _ => trivial
  · intro δ D reserved m d
    simp only [run_modify, hg]

theorem Sparing.readBlock (lba : Nat) : Sparing (Prog.readBlock lba : FsM (Option Sector)) :=
  ⟨fun _ => ⟨trivial, fun _ _ _ => trivial⟩, fun _ _ _ _ => rfl⟩

theorem Sparing.writeBlock {lba : Nat} (h : lba ≠ 0) (b : Sector) : Sparing (Prog.writeBlock lba b : FsM Bool) :=
  ⟨fun _ => ⟨h, fun _ _ _ => trivial⟩, fun _ _ _ _ => rfl⟩

theorem Sparing.allM {g : ι → FsM Bool} (l : List ι) (h : ∀ i, Sparing (g i)) : Sparing (l.allM g) := by
  induction l with
  | nil => exact .pure _
  | cons i l ih =>
    rw [List.allM]
    refine (h i).bind fun ok => ?_
    cases ok with
    | false => exact .pure _
    | true => exact ih

theorem Sparing.findSomeM? {g : ι → FsM (Option α)} (l : List ι) (h : ∀ i, Sparing (g i)) :
    Sparing (l.findSomeM? g) := by
  induction l with
  | nil => exact .pure _
  | cons i l ih =>
    rw [List.findSomeM?]
    refine (h i).bind fun r => ?_
    cases r with
    | none => exact ih
    | some a => exact .pure _

/-! ## The tables under other reserved words -/

variable (reserved : Fin 8 → Nat) (m : FsMem)

theorem bitmapSet_withReserved (s : Nat) :
    bitmapSet (m.withReserved reserved) s = (bitmapSet m s).withReserved reserved := by
  unfold bitmapSet; split <;> rfl

theorem bitmapClear_withReserved (s : Nat) :
    bitmapClear (m.withReserved reserved) s = (bitmapClear m s).withReserved reserved := by
  unfold bitmapClear; split <;> rfl

theorem freeSector_withReserved (s : Nat) :
    freeSector (m.withReserved reserved) s = (freeSector m s).withReserved reserved := by
  have htotal : (m.withReserved reserved).superblock.totalSectors = m.superblock.totalSectors := rfl
  unfold freeSector
  rw [htotal, bitmapClear_withReserved]
  split <;> rfl

theorem releaseInode_withReserved (index : Nat) :
    releaseInode (m.withReserved reserved) index = (releaseInode m index).withReserved reserved := by
  have hfold : ∀ (l : List (Fin 32)) (m : FsMem) (n : Inode),
      l.foldl (fun m i => if n.direct i ≠ 0 then freeSector m (n.direct i) else m) (m.withReserved reserved) =
        (l.foldl (fun m i => if n.direct i ≠ 0 then freeSector m (n.direct i) else m) m).withReserved reserved := by
    intro l m n
    induction l generalizing m with
    | nil => rfl
    | cons i l ih =>
      rw [List.foldl_cons, List.foldl_cons, ← ih]
      congr 1
      split
      · exact freeSector_withReserved reserved m _
      · rfl
  unfold releaseInode
  exact congrArg (setInode · index _) (hfold _ m (m.inode index))

theorem finishWrite_withReserved (fd index position : Nat) :
    finishWrite (m.withReserved reserved) fd index position =
    (finishWrite m fd index position).withReserved reserved := by
  let n := setHandle m fd { m.handles fd with position := position }
  exact (apply_ite (FsMem.withReserved · reserved) (position > (n.inode index).size)
    (setInode n index { n.inode index with size := position }) n).symm

/-! ## The programs -/

theorem saveBitmap_sparing : Sparing saveBitmap :=
  Sparing.allM _ fun i => Sparing.load (fun _ _ => rfl)
    fun _ => Sparing.writeBlock (by simp only [fsBitmapStart]; omega) _

theorem saveInode_sparing (index : Nat) : Sparing (saveInode index) := by
  unfold saveInode
  split
  · exact .pure _
  dsimp only
  split
  · exact .pure _
  refine (Sparing.readBlock _).bind fun r => ?_
  cases r with
  | none => exact .pure _
  | some block => exact Sparing.load (fun _ _ => rfl) fun m => Sparing.writeBlock (by simp only [fsInodeStart]; omega) _

theorem loadTables_sparing : Sparing loadTables := by
  refine Sparing.bind (Sparing.allM _ fun i => (Sparing.readBlock _).bind fun r => ?_) fun ok => ?_
  · cases r with
    | none => exact .pure _
    | some block => exact (Sparing.modify fun _ _ => rfl).bind fun _ => .pure _
  · cases ok with
    | false => exact .pure _
    | true =>
      refine Sparing.allM _ fun i => (Sparing.readBlock _).bind fun r => ?_
      cases r with
      | none => exact .pure _
      | some block => exact (Sparing.modify fun _ _ => rfl).bind fun _ => .pure _

theorem dirReadEntry_sparing (slot : Nat) : Sparing (dirReadEntry slot) := by
  unfold dirReadEntry
  split
  · refine Sparing.load (fun _ _ => rfl) fun m => ?_
    dsimp only
    split
    · exact .pure _
    · refine (Sparing.readBlock _).bind fun r => ?_
      cases r <;> exact .pure _
  · exact .pure _

theorem dirWriteEntry_sparing (slot : Nat) (entry : Dirent) : Sparing (dirWriteEntry slot entry) := by
  unfold dirWriteEntry
  split
  · refine Sparing.load (fun _ _ => rfl) fun m => ?_
    dsimp only
    split
    · exact .pure _
    · rename_i hlba
      refine (Sparing.readBlock _).bind fun r => ?_
      cases r with
      | none => exact .pure _
      | some block => exact .writeBlock hlba _
  · exact .pure _

theorem findDirEntry_sparing (name : CStr) : Sparing (findDirEntry name) := by
  refine (Sparing.findSomeM? _ fun slot => (dirReadEntry_sparing slot).bind fun r => ?_).bind fun _ => .pure _
  cases r <;> exact .pure _

theorem findFreeDirSlot_sparing : Sparing findFreeDirSlot := by
  refine Sparing.findSomeM? _ fun slot => (dirReadEntry_sparing slot).bind fun r => ?_
  cases r <;> exact .pure _

/-- An allocated sector is not sector 0. -/
theorem allocateSector_sparing : SparingAll allocateSector fun r => ∀ lba, r = some lba → lba ≠ 0 := by
  unfold allocateSector
  refine SparingAll.load (fun _ _ => rfl) fun m => ?_
  cases hfree : firstFree m with
  | none => exact .pure nofun
  | some sector =>
    have hsector : sector ≠ 0 := by
      have := (List.mem_range'_1.1 (List.mem_of_find?_eq_some hfree)).1
      simp only [fsDataStart] at this
      omega
    refine SparingAll.bind (Sparing.modify fun reserved m => bitmapSet_withReserved reserved m sector) fun _ _ =>
      SparingAll.bind saveBitmap_sparing fun ok _ => ?_
    have hundo : Sparing (Prog.modify (bitmapClear · sector) : FsM Unit) :=
      .modify fun reserved m => bitmapClear_withReserved reserved m sector
    cases ok with
    | false => exact SparingAll.bind hundo fun _ _ => .pure nofun
    | true =>
      refine SparingAll.bind (Sparing.writeBlock hsector _) fun ok _ => ?_
      cases ok with
      | false => exact SparingAll.bind hundo fun _ _ => SparingAll.bind saveBitmap_sparing fun _ _ => .pure nofun
      | true => exact .pure fun lba hlba => Option.some.inj hlba ▸ hsector

theorem ensureBlock_sparing (index : Nat) (block : Fin 32) :
    SparingAll (ensureBlock index block) fun r => ∀ lba, r = some lba → lba ≠ 0 := by
  unfold ensureBlock
  refine SparingAll.load (fun _ _ => rfl) fun m => ?_
  split
  · refine allocateSector_sparing.bind fun r hr => ?_
    cases r with
    | none => exact .pure nofun
    | some sector => exact SparingAll.bind (Sparing.modify fun _ _ => rfl) fun _ _ => .pure hr
  · rename_i hne
    exact .pure fun lba hlba => Option.some.inj hlba ▸ hne

theorem fsReadLoop_sparing (index position size done : Nat) (output : List Byte) :
    Sparing (fsReadLoop index position size done output) := by
  induction hk : size - done using Nat.strong_induction_on generalizing done output with
  | _ k ih =>
    rw [fsReadLoop]
    split
    · rename_i hlt
      have hmod := Nat.mod_lt (position + done) (show 0 < 512 by omega)
      split
      · refine Sparing.load (fun _ _ => rfl) fun m => ?_
        dsimp only
        split
        · exact .pure _
        refine (Sparing.readBlock _).bind fun r => ?_
        cases r with
        | none => exact .pure _
        | some block => exact ih _ (by omega) _ _ rfl
      · exact .pure _
    · exact .pure _

theorem fsWriteLoop_sparing (index position size : Nat) (input : Nat → Byte) (done : Nat) :
    Sparing (fsWriteLoop index position size input done) := by
  induction hk : size - done using Nat.strong_induction_on generalizing done with
  | _ k ih =>
    rw [fsWriteLoop]
    split
    · rename_i hlt
      have hmod := Nat.mod_lt (position + done) (show 0 < 512 by omega)
      split
      · refine SparingAll.bind (ensureBlock_sparing _ _) fun r hr => ?_
        cases r with
        | none => exact Sparing.pure _
        | some lba =>
          refine (Sparing.readBlock _).bind fun r => ?_
          cases r with
          | none => exact .pure _
          | some block =>
            refine (Sparing.writeBlock (hr lba rfl) _).bind fun ok => ?_
            split
            · exact ih _ (by omega) _ rfl
            · exact .pure _
      · exact .pure _
    · exact .pure _

theorem fsListLoop_sparing (size : Nat) (slots : List Nat) (written : List Byte) :
    Sparing (fsListLoop size slots written) := by
  induction slots generalizing written with
  | nil => exact .pure _
  | cons slot slots ih =>
    rw [fsListLoop]
    refine (dirReadEntry_sparing slot).bind fun r => ?_
    cases r with
    | none => exact ih _
    | some entry =>
      dsimp only
      split_ifs
      · exact ih _
      · exact .pure _
      · exact ih _

theorem fsCreate_sparing (name : CStr) : Sparing (fsCreate name) := by
  unfold fsCreate
  refine Sparing.load (fun _ _ => rfl) fun m => ?_
  split
  · exact .pure _
  refine (findDirEntry_sparing name).bind fun inode => ?_
  split
  · exact .pure _
  refine findFreeDirSlot_sparing.bind fun slot => ?_
  cases slot with
  | none => exact .pure _
  | some slot =>
    refine Sparing.load (fun _ _ => rfl) fun m => ?_
    dsimp only
    split
    · exact .pure _
    refine (Sparing.modify fun _ _ => rfl).bind fun _ => (saveInode_sparing _).bind fun ok => ?_
    split
    · exact .pure _
    refine (dirWriteEntry_sparing _ _).bind fun ok => ?_
    split
    · exact (Sparing.modify fun _ _ => rfl).bind fun _ => (saveInode_sparing _).bind fun _ => .pure _
    · exact .pure _

theorem fsDelete_sparing (name : CStr) : Sparing (fsDelete name) := by
  unfold fsDelete
  refine Sparing.load (fun _ _ => rfl) fun m => ?_
  split
  · exact .pure _
  refine (findDirEntry_sparing name).bind fun inode => ?_
  split
  · exact .pure _
  refine (Sparing.modify fun reserved m => releaseInode_withReserved reserved m _).bind fun _ =>
    saveBitmap_sparing.bind fun ok => ?_
  split
  · exact .pure _
  refine (saveInode_sparing _).bind fun ok => ?_
  split
  · exact .pure _
  refine (Sparing.findSomeM? _ fun slot => (dirReadEntry_sparing slot).bind fun r => ?_).bind fun _ => .pure _
  cases r with
  | none => exact .pure _
  | some entry =>
    dsimp only
    split
    · exact (dirWriteEntry_sparing _ _).bind fun _ => .pure _
    · exact .pure _

theorem fsOpen_sparing (name : CStr) : Sparing (fsOpen name) := by
  unfold fsOpen
  refine Sparing.load (fun _ _ => rfl) fun m => ?_
  split
  · exact .pure _
  refine (findDirEntry_sparing name).bind fun inode => ?_
  split
  · exact .pure _
  refine Sparing.load (fun _ _ => rfl) fun m => ?_
  split
  · exact .pure _
  · exact (Sparing.modify fun _ _ => rfl).bind fun _ => .pure _

theorem fsRead_sparing (fd : Int) (buffer : Bool) (size : Nat) : Sparing (fsRead fd buffer size) := by
  unfold fsRead
  refine Sparing.load (fun _ _ => rfl) fun m => ?_
  dsimp only
  split_ifs
  · exact .pure _
  · exact .pure _
  · exact (fsReadLoop_sparing _ _ _ _ _).bind fun _ => (Sparing.modify fun _ _ => rfl).bind fun _ => .pure _

theorem fsWrite_sparing (fd : Int) (buffer : Option (List Byte)) : Sparing (fsWrite fd buffer) := by
  unfold fsWrite
  refine Sparing.load (fun _ _ => rfl) fun m => ?_
  dsimp only
  split_ifs
  · exact .pure _
  · exact .pure _
  · exact (fsWriteLoop_sparing _ _ _ _ _).bind fun _ =>
      (Sparing.modify fun reserved m => finishWrite_withReserved reserved m _ _ _).bind fun _ =>
        (saveInode_sparing _).bind fun _ => saveBitmap_sparing.bind fun _ => .pure _

/-- No call writes sector 0 or depends on the reserved words. -/
theorem call_sparing (call : Call) : Sparing call.prog := by
  cases call with
  | create name => exact (fsCreate_sparing name).bind fun _ => .pure _
  | delete name => exact (fsDelete_sparing name).bind fun _ => .pure _
  | exist name =>
    refine Sparing.bind (Sparing.load (fun _ _ => rfl) fun m => ?_) fun _ => .pure _
    split
    · exact .pure _
    · exact (findDirEntry_sparing name).bind fun _ => .pure _
  | «open» name => exact (fsOpen_sparing name).bind fun _ => .pure _
  | close fd =>
    refine Sparing.bind ?_ fun _ => .pure _
    unfold fsClose
    split
    · exact .pure _
    · exact (Sparing.modify fun _ _ => rfl).bind fun _ => .pure _
  | read fd buffer size => exact (fsRead_sparing fd buffer size).bind fun _ => .pure _
  | write fd buffer => exact (fsWrite_sparing fd buffer).bind fun _ => .pure _
  | list buffer size =>
    refine Sparing.bind (Sparing.load (fun _ _ => rfl) fun m => ?_) fun _ => .pure _
    split
    · exact .pure _
    · exact (fsListLoop_sparing _ _ _).bind fun _ => .pure _

end Sparing

end SpectreOS
