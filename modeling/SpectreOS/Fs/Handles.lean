/-
The calls that only read, on any device and whatever it answers: what they leave of the tables.
-/
import SpectreOS.Fs.Persist

namespace SpectreOS

open BlockIO Prog

section Handles

variable {δ : Type} (D : Device δ Sector)

theorem readOnly_any : Models readOnly D fun _ _ => True :=
  ⟨fun _ _ _ _ _ => ⟨(), trivial, trivial⟩, fun _ _ _ _ _ h => absurd h id⟩

theorem dirReadEntry_readOnly (slot : Nat) (m : FsMem) :
    (dirReadEntry slot).wp readOnly (fun _ _ m' => m' = m) () m := by
  unfold dirReadEntry
  split
  · simp only [wp_bind, wp_load]
    split
    · rfl
    · simp only [wp_bind, wp_readBlock]
      refine ⟨trivial, fun r g' _ => ?_⟩
      cases r <;> rfl
  · rfl

theorem findDirEntry_readOnly (name : CStr) (m : FsMem) :
    (findDirEntry name).wp readOnly (fun _ _ m' => m' = m) () m := by
  unfold findDirEntry
  refine wp.seq (Q := fun _ _ m' => m' = m) ?_ fun _ _ _ h => h
  refine wp_findSomeM (J := fun _ _ m' => m' = m) _ rfl ?_ (fun _ _ h => h)
  rintro done slot rest g m' - rfl
  refine (dirReadEntry_readOnly slot m').seq ?_
  rintro (_ | entry) g m'' rfl
  · rfl
  · rw [wp_pure]
    split <;> rfl

/-- `fs_open` fails and leaves the tables alone, or takes the lowest free handle. -/
theorem fsOpen_readOnly (name : CStr) (m : FsMem) :
    (fsOpen name).wp readOnly (fun res _ m' => res = -1 ∧ m' = m ∨
      ∃ fd : Nat, fd < 16 ∧ ∃ inode : Int, res = fd ∧ (m.handles fd).inode < 0 ∧ 0 ≤ inode ∧
        m' = setHandle m fd ⟨inode, 0⟩) () m := by
  unfold fsOpen
  simp only [wp_bind, wp_load]
  split
  · exact Or.inl ⟨rfl, rfl⟩
  · refine (findDirEntry_readOnly name m).seq ?_
    rintro inode g m rfl
    split
    · exact Or.inl ⟨rfl, rfl⟩
    · rename_i hpos
      simp only [wp_bind, wp_load]
      split
      · exact Or.inl ⟨rfl, rfl⟩
      · rename_i fd hfd
        have hmem := List.mem_of_find?_eq_some hfd
        have hfree := List.find?_some hfd
        simp only [List.mem_range, fsMaxHandles, decide_eq_true_eq] at hmem hfree
        exact Or.inr ⟨fd, hmem, inode, rfl, hfree, by omega, rfl⟩

theorem fsOpen_run (name : CStr) (c : Conf FsMem δ) :
    ((fsOpen name).run D c).1 = -1 ∧ ((fsOpen name).run D c).2.mem = c.mem ∨
      ∃ fd : Nat, fd < 16 ∧ ∃ inode : Int, ((fsOpen name).run D c).1 = fd ∧ (c.mem.handles fd).inode < 0 ∧ 0 ≤ inode ∧
        ((fsOpen name).run D c).2.mem = setHandle c.mem fd ⟨inode, 0⟩ := by
  obtain ⟨-, hq, -⟩ := wp_sound (readOnly_any D) (fsOpen name) (g := ()) (fsOpen_readOnly name c.mem) trivial
  exact hq

theorem fsExists_readOnly (name : CStr) (m : FsMem) :
    (fsExists name).wp readOnly (fun _ _ m' => m' = m) () m := by
  unfold fsExists
  simp only [wp_bind, wp_load]
  split
  · rfl
  · exact (findDirEntry_readOnly name m).seq fun _ _ _ h => h

theorem fsReadLoop_readOnly (index position size done : Nat) (output : List Byte) (m : FsMem) :
    (fsReadLoop index position size done output).wp readOnly (fun _ _ m' => m' = m) () m := by
  induction hk : size - done using Nat.strong_induction_on generalizing done output with
  | _ k ih =>
    rw [fsReadLoop]
    split
    · split
      · simp only [wp_bind, wp_load]
        split
        · rfl
        · simp only [wp_bind, wp_readBlock]
          refine ⟨trivial, fun r g' _ => ?_⟩
          cases r with
          | none => rfl
          | some block =>
            have := Nat.mod_lt (position + done) (show 0 < 512 by omega)
            exact ih _ (by omega) _ _ rfl
      · rfl
    · rfl

/-- No more bytes come out than were asked for. -/
theorem fsReadLoop_fits (index position size done : Nat) (output : List Byte) (hdone : output.length = done)
    (hsize : done ≤ size) (m : FsMem) :
    (fsReadLoop index position size done output).wp readOnly (fun r _ _ => r.2.length ≤ size) () m := by
  induction hk : size - done using Nat.strong_induction_on generalizing done output m with
  | _ k ih =>
    have hlen : output.length ≤ size := hdone ▸ hsize
    rw [fsReadLoop]
    split
    · split
      · simp only [wp_bind, wp_load]
        split
        · exact hlen
        · simp only [wp_bind, wp_readBlock]
          refine ⟨trivial, fun r g' _ => ?_⟩
          cases r with
          | none => exact hlen
          | some block =>
            have := Nat.mod_lt (position + done) (show 0 < 512 by omega)
            refine ih _ (by omega) _ _ ?_ (by omega) m rfl
            rw [List.length_append, List.length_map, List.length_range, hdone]
      · exact hlen
    · exact hlen

theorem fsRead_fits (fd : Int) (buffer : Bool) (size : Nat) (m : FsMem) :
    (fsRead fd buffer size).wp readOnly (fun r _ _ => r.2.length ≤ size) () m := by
  unfold fsRead
  simp only [wp_bind, wp_load]
  split
  · exact Nat.zero_le _
  · split
    · exact Nat.zero_le _
    · refine (fsReadLoop_fits _ _ _ 0 [] rfl (Nat.zero_le _) m).seq ?_
      rintro ⟨done, output⟩ g m hlen
      exact hlen.trans (Nat.min_le_left _ _)

theorem fsListLoop_readOnly (size : Nat) (slots : List Nat) (written : List Byte) (m : FsMem) :
    (fsListLoop size slots written).wp readOnly (fun _ _ _ => True) () m := by
  induction slots generalizing written m with
  | nil => trivial
  | cons slot slots ih =>
    rw [fsListLoop]
    refine (dirReadEntry_readOnly slot m).seq ?_
    rintro (_ | entry) g m rfl
    · exact ih _ _
    · simp only
      split
      · exact ih _ _
      · split
        · trivial
        · exact ih _ _

theorem fsList_fits (buffer : Bool) (size : Nat) (m : FsMem) :
    (fsList buffer size).wp readOnly (fun r _ _ => r.2.length ≤ size) () m := by
  unfold fsList
  simp only [wp_bind, wp_load]
  split
  · exact Nat.zero_le _
  · rename_i h
    have hpos : size ≠ 0 := by
      rintro rfl
      simp at h
    refine (fsListLoop_readOnly _ _ _ m).seq ?_
    rintro written g m -
    rw [wp_pure]
    split
    · simpa using ‹written.length < size›
    · rw [List.length_append, List.length_take, List.length_singleton]
      omega

/-- `fs_read` moves the position of its handle at most. -/
theorem fsRead_readOnly (fd : Int) (buffer : Bool) (size : Nat) (m : FsMem) :
    (fsRead fd buffer size).wp readOnly (fun _ _ m' => m' = m ∨
      ∃ position, m' = setHandle m fd.toNat { m.handles fd.toNat with position }) () m := by
  unfold fsRead
  simp only [wp_bind, wp_load]
  split
  · exact Or.inl rfl
  · split
    · exact Or.inl rfl
    · refine (fsReadLoop_readOnly _ _ _ _ _ m).seq ?_
      rintro ⟨done, output⟩ g m' rfl
      exact Or.inr ⟨_, rfl⟩

theorem fsClose_run (fd : Int) (c : Conf FsMem δ) :
    ((fsClose fd).run D c).2.mem.handles =
      if 0 ≤ fd ∧ fd < 16 then Function.update c.mem.handles fd.toNat .closed else c.mem.handles := by
  unfold fsClose
  by_cases h : 0 ≤ fd ∧ fd < 16
  · rw [if_neg (by simp only [fsMaxHandles]; omega), if_pos h]
    rfl
  · rw [if_pos (by simp only [fsMaxHandles]; omega), if_neg h]
    rfl

/-- How many bytes a call may put into its caller's buffer. -/
def Call.capacity : Call → Nat
  | .read _ _ size => size
  | .list _ size => size
  | _ => 0

theorem Call.fits (call : Call) (c : Conf FsMem δ) : (call.prog.run D c).1.bytes.length ≤ call.capacity := by
  cases call with
  | read fd buffer size =>
    obtain ⟨-, h, -⟩ :=
      wp_sound (readOnly_any D) (fsRead fd buffer size) (g := ()) (fsRead_fits fd buffer size c.mem) trivial
    simpa only [Call.prog, Call.capacity, run_bind, run_pure] using h
  | list buffer size =>
    obtain ⟨-, h, -⟩ := wp_sound (readOnly_any D) (fsList buffer size) (g := ()) (fsList_fits buffer size c.mem) trivial
    simpa only [Call.prog, Call.capacity, run_bind, run_pure] using h
  | _ => simp only [Call.prog, run_bind, run_pure, List.length_nil, Nat.zero_le]

end Handles

end SpectreOS
