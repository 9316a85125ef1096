/-
Which sectors the file operations touch, whatever the device answers: they read only sectors whose
contents are known (`A`: the metadata sectors and every data sector marked used, each zero-filled
when it was allocated), never write sector 0, and change the tables by one `MemStep`.
-/
import SpectreOS.Fs.Ownership

namespace SpectreOS

open BlockIO Prog

/-- Reads stay inside the set of known sectors, a successful write adds its sector to it, and
writes stay inside `1 ≤ lba < N`. The device may answer anything. -/
def tracked (N : Nat) : Iface (Set Nat) Sector where
  readPre A lba := lba ∈ A
  readPost A _ _ A' := A' = A
  writePre _ lba _ := 1 ≤ lba ∧ lba < N
  writePost A lba _ ok A' := A' = if ok then insert lba A else A

/-- The known sectors cover the metadata and every data sector marked used. -/
structure Tracked (N : Nat) (A : Set Nat) (m : FsMem) : Prop where
  total : m.superblock.totalSectors = N
  owned : Owned m
  metadata : ∀ s, 1 ≤ s → s < 97 → s ∈ A
  data : ∀ s, 97 ≤ s → s < N → bitSet m s = true → s ∈ A

namespace Tracked

variable {N : Nat} {A : Set Nat} {m : FsMem}

theorem mono (h : Tracked N A m) {A' : Set Nat} (hA : A ⊆ A') : Tracked N A' m :=
  ⟨h.total, h.owned, fun s h1 h2 => hA (h.metadata s h1 h2), fun s h1 h2 h3 => hA (h.data s h1 h2 h3)⟩

theorem direct_mem (h : Tracked N A m) {i : Nat} {k : Fin 32} (hne : (m.inode i).direct k ≠ 0) :
    (m.inode i).direct k ∈ A ∧ 97 ≤ (m.inode i).direct k ∧ (m.inode i).direct k < N := by
  obtain ⟨h1, h2, h3⟩ := h.owned.range i k hne
  rw [h.total] at h2
  exact ⟨h.data _ h1 h2 h3, h1, h2⟩

theorem lo (h : Tracked N A m) : 97 < N := h.total ▸ h.owned.totalLo

end Tracked

/-! ## Saving and loading -/

section

variable {N : Nat} {A : Set Nat} {m : FsMem}

/-- The memory is as it was and nothing known is forgotten. -/
def Kept (A : Set Nat) (m : FsMem) {α : Type} (_ : α) (A' : Set Nat) (m' : FsMem) : Prop := m' = m ∧ A ⊆ A'

theorem subset_wrote (A : Set Nat) (lba : Nat) (ok : Bool) : A ⊆ if ok then insert lba A else A := by
  cases ok
  · exact subset_rfl
  · exact Set.subset_insert _ _

theorem saveBitmap_tracked (hN : 33 ≤ N) : saveBitmap.wp (tracked N) (Kept A m) A m := by
  refine wp_allM (J := fun _ => Kept A m ()) _ ⟨rfl, subset_rfl⟩ ?_ (fun _ _ h => h)
  rintro done i rest g s hl ⟨rfl, hg⟩
  have hi : i < 32 := (range_split hl).2
  simp only [wp_bind, wp_load, wp_writeBlock]
  refine ⟨⟨by simp only [fsBitmapStart]; omega, by simp only [fsBitmapStart]; omega⟩, ?_⟩
  rintro ok g' rfl
  have : Kept A s () (if ok then insert (fsBitmapStart + i) g else g) s :=
    ⟨rfl, hg.trans (subset_wrote g _ ok)⟩
  cases ok
  · exact this
  · exact this

theorem saveInode_tracked (h : Tracked N A m) (i : Nat) : (saveInode i).wp (tracked N) (Kept A m) A m := by
  unfold saveInode
  split
  · exact ⟨rfl, subset_rfl⟩
  · rename_i hi
    simp only [fsMaxFiles, ge_iff_le, not_le] at hi
    simp only
    split
    · exact ⟨rfl, subset_rfl⟩
    · simp only [wp_bind, wp_readBlock]
      have hs : fsInodeStart + i * fsInodeSize / 512 < 97 := by simp only [fsInodeStart, fsInodeSize]; omega
      refine ⟨h.metadata _ (by simp only [fsInodeStart]; omega) hs, ?_⟩
      rintro r g rfl
      cases r with
      | none => exact ⟨rfl, subset_rfl⟩
      | some block =>
        simp only [wp_bind, wp_load, wp_writeBlock]
        refine ⟨⟨by simp only [fsInodeStart]; omega, by have := h.lo; omega⟩, ?_⟩
        rintro ok g' rfl
        exact ⟨rfl, subset_wrote g _ ok⟩

/-! ## The directory -/

theorem dirReadEntry_tracked (h : Tracked N A m) (slot : Nat) :
    (dirReadEntry slot).wp (tracked N) (fun _ A' m' => m' = m ∧ A' = A) A m := by
  unfold dirReadEntry
  split
  · simp only [wp_bind, wp_load]
    split
    · exact ⟨rfl, rfl⟩
    · rename_i hne
      simp only [wp_bind, wp_readBlock]
      refine ⟨(h.direct_mem hne).1, ?_⟩
      rintro r g rfl
      cases r <;> exact ⟨rfl, rfl⟩
  · exact ⟨rfl, rfl⟩

theorem dirWriteEntry_tracked (h : Tracked N A m) (slot : Nat) (e : Dirent) :
    (dirWriteEntry slot e).wp (tracked N) (Kept A m) A m := by
  unfold dirWriteEntry
  split
  · simp only [wp_bind, wp_load]
    split
    · exact ⟨rfl, subset_rfl⟩
    · rename_i hne
      obtain ⟨h1, h2, h3⟩ := h.direct_mem hne
      simp only [wp_bind, wp_readBlock]
      refine ⟨h1, ?_⟩
      rintro r g rfl
      cases r with
      | none => exact ⟨rfl, subset_rfl⟩
      | some block =>
        simp only [wp_writeBlock]
        refine ⟨⟨by omega, h3⟩, ?_⟩
        rintro ok g' rfl
        exact ⟨rfl, subset_wrote g _ ok⟩
  · exact ⟨rfl, subset_rfl⟩

/-- A search whose body changes nothing. -/
theorem search_tracked {α : Type} {f : Nat → FsM (Option α)} (l : List Nat)
    (hf : ∀ slot, (f slot).wp (tracked N) (fun _ A' m' => m' = m ∧ A' = A) A m) :
    (l.findSomeM? f).wp (tracked N) (fun _ A' m' => m' = m ∧ A' = A) A m := by
  refine wp_findSomeM (J := fun _ A' m' => m' = m ∧ A' = A) _ ⟨rfl, rfl⟩ ?_ (fun _ _ h => h)
  rintro done slot rest g s - ⟨rfl, rfl⟩
  refine (hf slot).mono fun r g s h => ?_
  cases r <;> exact h

theorem findDirEntry_tracked (h : Tracked N A m) (name : CStr) :
    (findDirEntry name).wp (tracked N) (fun _ A' m' => m' = m ∧ A' = A) A m := by
  unfold findDirEntry
  refine (search_tracked _ fun slot => (dirReadEntry_tracked h slot).seq ?_).seq fun _ _ _ h => h
  rintro (_ | entry) g s h <;> exact h

theorem findFreeDirSlot_tracked (h : Tracked N A m) :
    findFreeDirSlot.wp (tracked N) (fun _ A' m' => m' = m ∧ A' = A) A m := by
  refine search_tracked _ fun slot => (dirReadEntry_tracked h slot).seq ?_
  rintro (_ | entry) g s h <;> exact h

/-! ## Allocation -/

/-- A successful allocation marks the first free sector used and knows it; a failed one leaves the
memory as it was. -/
theorem allocateSector_tracked (h : Tracked N A m) :
    allocateSector.wp (tracked N) (fun r A' m' => A ⊆ A' ∧
      match r with
      | none => m' = m
      | some s => firstFree m = some s ∧ m' = bitmapSet m s ∧ s ∈ A') A m := by
  have hN : 33 ≤ N := by have := h.lo; omega
  unfold allocateSector
  simp only [wp_bind, wp_load]
  cases hs : firstFree m with
  | none => exact ⟨subset_rfl, rfl⟩
  | some s =>
    obtain ⟨s1, s2, s3⟩ := firstFree_some hs
    rw [h.total] at s2
    simp only [wp_bind, wp_modify]
    refine (saveBitmap_tracked hN).mono ?_
    rintro saved g m' ⟨rfl, hg⟩
    cases saved with
    | false => exact ⟨hg, bitmapClear_bitmapSet m s3⟩
    | true =>
      simp only [Bool.not_true, Bool.false_eq_true, ↓reduceIte, wp_bind, wp_writeBlock]
      refine ⟨⟨by omega, s2⟩, ?_⟩
      rintro ok g' rfl
      have hg' := hg.trans (subset_wrote g s ok)
      cases ok with
      | false =>
        simp only [Bool.not_false, ↓reduceIte, wp_bind, wp_modify]
        refine (saveBitmap_tracked hN).mono ?_
        rintro _ g'' m' ⟨rfl, hg''⟩
        exact ⟨hg'.trans hg'', bitmapClear_bitmapSet m s3⟩
      | true => exact ⟨hg', rfl, rfl, Set.mem_insert _ _⟩

/-- A sector of the data area that is marked used after an allocation was so before, or is the
new one. -/
theorem Tracked.assign (h : Tracked N A m) {A' : Set Nat} (hA : A ⊆ A') (i : Nat) (b : Fin 32) {s : Nat}
    (h0 : (m.inode i).direct b = 0) (hs : firstFree m = some s) (hsA : s ∈ A') :
    Tracked N A' (assignBlock (bitmapSet m s) i b s) := by
  have hlt : s < 131072 := lt_of_lt_of_le (firstFree_some hs).2.1 h.owned.totalHi
  refine ⟨by simpa [assignBlock] using h.total, h.owned.assign i b h0 hs, fun t h1 h2 => hA (h.metadata t h1 h2),
    fun t h1 h2 h3 => ?_⟩
  rw [show bitSet (assignBlock (bitmapSet m s) i b s) t = bitSet (bitmapSet m s) t from rfl,
    bitSet_bitmapSet m hlt, Bool.or_eq_true, decide_eq_true_eq] at h3
  rcases h3 with h3 | rfl
  · exact hA (h.data t h1 h2 h3)
  · exact hsA

theorem ensureBlock_tracked (h : Tracked N A m) (i : Nat) (b : Fin 32) :
    (ensureBlock i b).wp (tracked N) (fun r A' m' => A ⊆ A' ∧ Tracked N A' m' ∧ Grows i m m' ∧
      ∀ lba, r = some lba → lba ∈ A' ∧ 1 ≤ lba ∧ lba < N) A m := by
  unfold ensureBlock
  simp only [wp_bind, wp_load]
  split
  · rename_i h0
    refine (allocateSector_tracked h).seq ?_
    rintro (_ | s) A' m' ⟨hA, hr⟩
    · obtain rfl := hr
      exact ⟨hA, h.mono hA, .refl, by simp⟩
    · obtain ⟨hs, rfl, hsA⟩ := hr
      obtain ⟨s1, s2, -⟩ := firstFree_some hs
      refine ⟨hA, h.assign hA i b h0 hs hsA, .assign b s .refl h0 hs, ?_⟩
      rintro lba e
      cases e
      exact ⟨hsA, by omega, h.total ▸ s2⟩
  · rename_i hne
    obtain ⟨h1, h2, h3⟩ := h.direct_mem hne
    refine ⟨subset_rfl, h, .refl, ?_⟩
    rintro lba e
    cases e
    exact ⟨h1, by omega, h3⟩

/-! ## The file operations -/

theorem fsReadLoop_tracked (h : Tracked N A m) (i position size done : Nat) (output : List Byte) :
    (fsReadLoop i position size done output).wp (tracked N) (fun _ A' m' => m' = m ∧ A' = A) A m := by
  induction hk : size - done using Nat.strong_induction_on generalizing done output with
  | _ k ih =>
    rw [fsReadLoop]
    split
    · split
      · simp only [wp_bind, wp_load]
        split
        · exact ⟨rfl, rfl⟩
        · rename_i hne
          simp only [wp_bind, wp_readBlock]
          refine ⟨(h.direct_mem hne).1, ?_⟩
          rintro (_ | sectorBuffer) g rfl
          · exact ⟨rfl, rfl⟩
          · have := Nat.mod_lt (position + done) (show 0 < 512 by omega)
            exact ih _ (by omega) _ _ rfl
      · exact ⟨rfl, rfl⟩
    · exact ⟨rfl, rfl⟩

theorem fsWriteLoop_tracked (h : Tracked N A m) (i position size : Nat) (input : Nat → Byte) (done : Nat) :
    (fsWriteLoop i position size input done).wp (tracked N)
      (fun _ A' m' => A ⊆ A' ∧ Tracked N A' m' ∧ Grows i m m' ∧ (size = 0 → m' = m)) A m := by
  induction hk : size - done using Nat.strong_induction_on generalizing done A m with
  | _ k ih =>
    rw [fsWriteLoop]
    split
    · rename_i hlt
      have hsz : size ≠ 0 := by omega
      split
      · refine (ensureBlock_tracked h i _).seq ?_
        rintro (_ | lba) A' m' ⟨hA, ht, hg, hlba⟩
        · exact ⟨hA, ht, hg, fun h => absurd h hsz⟩
        · obtain ⟨h1, h2, h3⟩ := hlba lba rfl
          simp only [wp_bind, wp_readBlock]
          refine ⟨h1, ?_⟩
          rintro (_ | sectorBuffer) g rfl
          · exact ⟨hA, ht, hg, fun h => absurd h hsz⟩
          · simp only [wp_bind, wp_writeBlock]
            refine ⟨⟨h2, h3⟩, ?_⟩
            rintro ok g' rfl
            have hA' := subset_wrote g lba ok
            cases ok with
            | false => exact ⟨hA.trans hA', ht.mono hA', hg, fun h => absurd h hsz⟩
            | true =>
              have := Nat.mod_lt (position + done) (show 0 < 512 by omega)
              refine (ih _ (by omega) (ht.mono hA') _ rfl).mono ?_
              rintro _ A'' m'' ⟨h4, h5, h6, -⟩
              exact ⟨(hA.trans hA').trans h4, h5, hg.trans h6, fun h => absurd h hsz⟩
      · exact ⟨subset_rfl, h, .refl, fun _ => rfl⟩
    · exact ⟨subset_rfl, h, .refl, fun _ => rfl⟩

theorem fsListLoop_tracked (h : Tracked N A m) (size : Nat) (slots : List Nat) (written : List Byte) :
    (fsListLoop size slots written).wp (tracked N) (fun _ A' m' => m' = m ∧ A' = A) A m := by
  induction slots generalizing written with
  | nil => exact ⟨rfl, rfl⟩
  | cons slot slots ih =>
    rw [fsListLoop]
    refine (dirReadEntry_tracked h slot).seq ?_
    rintro (_ | entry) A' m' ⟨rfl, rfl⟩
    · exact ih _
    · simp only
      split
      · exact ih _
      · split
        · exact ⟨rfl, rfl⟩
        · exact ih _

/-- A step that marks nothing new as used keeps the known sectors known. -/
theorem Tracked.step {m' : FsMem} {call : Call} (h : Tracked N A m) (hm : MemStep m call m')
    (hs : m'.superblock = m.superblock) (hb : ∀ t, bitSet m' t = true → bitSet m t = true) : Tracked N A m' :=
  ⟨by rw [hs]; exact h.total, hm.owned h.owned, h.metadata, fun s h1 h2 h3 => h.data s h1 h2 (hb s h3)⟩

/-- The outcome of a file operation: known sectors stay known and the tables made one step. -/
def Stepped (N : Nat) (A : Set Nat) (m : FsMem) (call : Call) {α : Type} (_ : α) (A' : Set Nat) (m' : FsMem) : Prop :=
  A ⊆ A' ∧ Tracked N A' m' ∧ MemStep m call m'

theorem Stepped.skip {call : Call} {α : Type} (a : α) (h : Tracked N A m) : Stepped N A m call a A m :=
  ⟨subset_rfl, h, .skip call⟩

theorem fsExists_tracked (h : Tracked N A m) (name : CStr) :
    (fsExists name).wp (tracked N) (Stepped N A m (.exist name)) A m := by
  unfold fsExists
  simp only [wp_bind, wp_load]
  split
  · exact .skip _ h
  · refine (findDirEntry_tracked h name).seq ?_
    rintro r A' m' ⟨rfl, rfl⟩
    exact .skip _ h

theorem fsCreate_tracked (h : Tracked N A m) (name : CStr) :
    (fsCreate name).wp (tracked N) (Stepped N A m (.create name)) A m := by
  unfold fsCreate
  simp only [wp_bind, wp_load]
  split
  · exact .skip _ h
  · refine (findDirEntry_tracked h name).seq ?_
    rintro r A' m' ⟨rfl, rfl⟩
    split
    · exact .skip _ h
    · refine (findFreeDirSlot_tracked h).seq ?_
      rintro (_ | slot) A' m' ⟨rfl, rfl⟩
      · exact .skip _ h
      · simp only [wp_bind, wp_load]
        cases hi : firstFreeInode m' with
        | none => exact .skip _ h
        | some i =>
          have h1 : Tracked N A' (setInode m' i .fresh) := h.step (.create name i hi) rfl fun _ h => h
          simp only [wp_bind, wp_modify]
          refine (saveInode_tracked h1 i).mono ?_
          rintro saved A₁ m₁ ⟨rfl, hA₁⟩
          cases saved with
          | false => exact ⟨hA₁, h1.mono hA₁, .create name i hi⟩
          | true =>
            simp only [Bool.not_true, Bool.false_eq_true, ↓reduceIte, wp_bind]
            refine (dirWriteEntry_tracked (h1.mono hA₁) slot _).mono ?_
            rintro ok A₂ m₂ ⟨rfl, hA₂⟩
            have hA := hA₁.trans hA₂
            cases ok with
            | true => exact ⟨hA, h1.mono hA, .create name i hi⟩
            | false =>
              -- the undo leaves a zeroed, free inode
              have hu : setInode (setInode m' i .fresh) i
                  { (setInode m' i Inode.fresh).inode i with mode := fsModeFree } =
                  setInode m' i { Inode.fresh with mode := fsModeFree } := by
                have hi' := List.mem_of_find?_eq_some hi
                rw [List.mem_range'_1] at hi'
                simp only [fsMaxFiles] at hi'
                rw [inode_setInode, if_pos ⟨rfl, by omega⟩]
                unfold setInode
                simp only [FsMem.mk.injEq, and_true, true_and]
                funext j; split <;> rfl
              have h2 : Tracked N A' (setInode m' i { Inode.fresh with mode := fsModeFree }) :=
                h.step (.createUndone name i hi) rfl fun _ h => h
              simp only [Bool.not_false, ↓reduceIte, wp_bind, wp_modify]
              rw [hu]
              refine (saveInode_tracked (h2.mono hA) i).mono ?_
              rintro _ A₃ m₃ ⟨rfl, hA₃⟩
              exact ⟨hA.trans hA₃, h2.mono (hA.trans hA₃), .createUndone name i hi⟩

theorem fsDelete_tracked (h : Tracked N A m) (name : CStr) :
    (fsDelete name).wp (tracked N) (Stepped N A m (.delete name)) A m := by
  have hN : 33 ≤ N := by have := h.lo; omega
  unfold fsDelete
  simp only [wp_bind, wp_load]
  split
  · exact .skip _ h
  · refine (findDirEntry_tracked h name).seq ?_
    rintro r A' m' ⟨rfl, rfl⟩
    split
    · exact .skip _ h
    · rename_i hr
      obtain ⟨-, q2, -, -, q5⟩ := releaseInode_spec m' r.toNat h.owned.totalHi
      have hstep : MemStep m' (.delete name) (releaseInode m' r.toNat) := .delete name _ (by omega)
      have h1 : Tracked N A' (releaseInode m' r.toNat) := h.step hstep q2 fun t ht => ((q5 t).1 ht).1
      simp only [wp_bind, wp_modify]
      refine (saveBitmap_tracked hN).mono ?_
      rintro saved A₁ m₁ ⟨rfl, hA₁⟩
      cases saved with
      | false => exact ⟨hA₁, h1.mono hA₁, hstep⟩
      | true =>
        simp only [Bool.not_true, Bool.false_eq_true, ↓reduceIte, wp_bind]
        refine (saveInode_tracked (h1.mono hA₁) _).mono ?_
        rintro saved A₂ m₂ ⟨rfl, hA₂⟩
        have hA := hA₁.trans hA₂
        cases saved with
        | false => exact ⟨hA, h1.mono hA, hstep⟩
        | true =>
          simp only [Bool.not_true, Bool.false_eq_true, ↓reduceIte, wp_bind]
          refine (wp_findSomeM (J := fun _ => Kept A' (releaseInode m' r.toNat) ())
            (Q := Kept A' (releaseInode m' r.toNat)) _ ⟨rfl, hA⟩ ?_ (fun _ _ h => h)).mono ?_
          · rintro done slot rest g s - ⟨rfl, hg⟩
            refine (dirReadEntry_tracked (h1.mono hg) slot).seq ?_
            rintro (_ | entry) g' s' ⟨rfl, rfl⟩
            · exact ⟨rfl, hg⟩
            · simp only
              split
              · refine (dirWriteEntry_tracked (h1.mono hg) slot _).seq ?_
                rintro _ g'' s'' ⟨rfl, hg'⟩
                exact ⟨rfl, hg.trans hg'⟩
              · exact ⟨rfl, hg⟩
          · rintro _ A₃ m₃ ⟨rfl, hA₃⟩
            exact ⟨hA₃, h1.mono hA₃, hstep⟩

theorem handle_stepped (call : Call) {α : Type} (a : α) (h : Tracked N A m) {fd : Nat} (hfd : fd < 16) (hd : Handle) :
    Stepped N A m call a A (setHandle m fd hd) :=
  ⟨subset_rfl, h.step (.handle call fd hd hfd) rfl fun _ h => h, .handle call fd hd hfd⟩

theorem fsOpen_tracked (h : Tracked N A m) (name : CStr) :
    (fsOpen name).wp (tracked N) (Stepped N A m (.open name)) A m := by
  unfold fsOpen
  simp only [wp_bind, wp_load]
  split
  · exact .skip _ h
  · refine (findDirEntry_tracked h name).seq ?_
    rintro r A' m' ⟨rfl, rfl⟩
    split
    · exact .skip _ h
    · simp only [wp_bind, wp_load]
      split
      · exact .skip _ h
      · rename_i fd hfd
        have := List.mem_of_find?_eq_some hfd
        simp only [List.mem_range, fsMaxHandles] at this
        exact handle_stepped _ () h this _

theorem fsClose_tracked (h : Tracked N A m) (fd : Int) :
    (fsClose fd).wp (tracked N) (Stepped N A m (.close fd)) A m := by
  unfold fsClose
  split
  · exact .skip _ h
  · rename_i hfd
    simp only [fsMaxHandles, not_or, not_lt, not_le] at hfd
    exact handle_stepped _ () h (by omega) _

theorem fsRead_tracked (h : Tracked N A m) (fd : Int) (buffer : Bool) (size : Nat) :
    (fsRead fd buffer size).wp (tracked N) (Stepped N A m (.read fd buffer size)) A m := by
  unfold fsRead
  simp only [wp_bind, wp_load]
  split
  · exact .skip _ h
  · rename_i hu
    simp only [handleUsable, fsMaxHandles, Bool.not_eq_true', Bool.not_eq_false, Bool.and_eq_true,
      decide_eq_true_eq] at hu
    split
    · exact .skip _ h
    · refine (fsReadLoop_tracked h _ _ _ _ _).seq ?_
      rintro ⟨done, output⟩ A' m' ⟨rfl, rfl⟩
      exact handle_stepped _ () h (by omega) _

theorem fsWrite_tracked (h : Tracked N A m) (fd : Int) (buffer : Option (List Byte)) :
    (fsWrite fd buffer).wp (tracked N) (Stepped N A m (.write fd buffer)) A m := by
  have hN : 33 ≤ N := by have := h.lo; omega
  unfold fsWrite
  simp only [wp_bind, wp_load]
  split
  · exact .skip _ h
  · rename_i hu
    simp only [Bool.not_eq_true', Bool.not_eq_false] at hu
    obtain ⟨data, rfl⟩ : ∃ data, buffer = some data := by
      cases buffer with
      | none => simp [handleUsable] at hu
      | some data => exact ⟨data, rfl⟩
    split
    · exact .skip _ h
    · rename_i hpos
      refine (fsWriteLoop_tracked h _ _ _ _ _).seq ?_
      rintro done A₁ m₁ ⟨hA₁, ht, hg, hne⟩
      obtain ⟨f1, f2⟩ := finishWrite_bits m₁ fd.toNat (m.handles fd.toNat).inode.toNat
        ((m.handles fd.toNat).position + done)
      have hstep : MemStep m (.write fd (some data)) (finishWrite m₁ fd.toNat (m.handles fd.toNat).inode.toNat
          ((m.handles fd.toNat).position + done)) := by
        refine .write fd data m₁ _ hu hg ?_
        by_cases hd : data = []
        · subst hd; exact .inl (hne (by simp))
        · exact .inr ⟨hd, by omega⟩
      have h1 : Tracked N A₁ (finishWrite m₁ fd.toNat (m.handles fd.toNat).inode.toNat
          ((m.handles fd.toNat).position + done)) :=
        ⟨by rw [f1]; exact ht.total, hstep.owned h.owned, ht.metadata, fun s h1 h2 h3 =>
          ht.data s h1 h2 (by rwa [bitSet_congr f2] at h3)⟩
      simp only [wp_bind, wp_modify]
      refine (saveInode_tracked h1 _).mono ?_
      rintro _ A₂ m₂ ⟨rfl, hA₂⟩
      refine (saveBitmap_tracked hN).mono ?_
      rintro _ A₃ m₃ ⟨rfl, hA₃⟩
      exact ⟨hA₁.trans (hA₂.trans hA₃), h1.mono (hA₂.trans hA₃), hstep⟩

theorem fsList_tracked (h : Tracked N A m) (buffer : Bool) (size : Nat) :
    (fsList buffer size).wp (tracked N) (Stepped N A m (.list buffer size)) A m := by
  unfold fsList
  simp only [wp_bind, wp_load]
  split
  · exact .skip _ h
  · refine (fsListLoop_tracked h _ _ _).seq ?_
    rintro written A' m' ⟨rfl, rfl⟩
    exact .skip _ h

/-- Every call stays within the known sectors and makes one step on the tables. -/
theorem call_tracked (h : Tracked N A m) (call : Call) : call.prog.wp (tracked N) (Stepped N A m call) A m := by
  cases call with
  | create name => exact (fsCreate_tracked h name).seq fun _ _ _ h => h
  | delete name => exact (fsDelete_tracked h name).seq fun _ _ _ h => h
  | exist name => exact (fsExists_tracked h name).seq fun _ _ _ h => h
  | «open» name => exact (fsOpen_tracked h name).seq fun _ _ _ h => h
  | close fd => exact (fsClose_tracked h fd).seq fun _ _ _ h => h
  | read fd buffer size => exact (fsRead_tracked h fd buffer size).seq fun _ _ _ h => h
  | write fd buffer => exact (fsWrite_tracked h fd buffer).seq fun _ _ _ h => h
  | list buffer size => exact (fsList_tracked h buffer size).seq fun _ _ _ h => h

end

end SpectreOS
