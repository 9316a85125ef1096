/-
Handles of deleted files. A handle is an inode number and a position; it survives the deletion of
its file, and `fs_create` hands out free inodes without looking at the handles. As long as no
`fs_create` takes an inode that an open handle still refers to, the handles of deleted files reach
no file that exists; otherwise they read and write the new file.
-/
import SpectreOS.Fs.Leak
import SpectreOS.Fs.Linked

namespace SpectreOS

open BlockIO Prog

/-- The handles open on the file of that name. -/
def handlesOn (d : Nat → Sector) (m : FsMem) (name : CStr) : Finset Nat :=
  (Finset.range 16).filter fun fd => (lookup d name).map Int.ofNat = some (m.handles fd).inode

/-- The open handles whose file has been deleted, after one more call. -/
def staleAfter (d : Nat → Sector) (m : FsMem) (call : Call) (ret : Ret) (stale : Finset Nat) : Finset Nat :=
  match call with
  | .delete name => if ret.val = 1 then stale ∪ handlesOn d m name else stale
  | .close fd => if 0 ≤ fd then stale.erase fd.toNat else stale
  | _ => stale

/-- A call of `fs_create` that takes an inode an open handle refers to. -/
def Call.recycles (d : Nat → Sector) (m : FsMem) : Call → Prop
  | .create name => m.filesystemReady = true ∧ validName name = true ∧ lookup d name = none ∧
      ∃ i, firstFreeInode m = some i ∧ ∃ fd < 16, (m.handles fd).inode = (i : Int)
  | _ => False

/-- The directory is linked, and stale handles are open on inodes that no entry has. -/
structure Apart (d : Nat → Sector) (m : FsMem) (stale : Finset Nat) : Prop where
  linked : Linked d m
  isOpen : ∀ fd ∈ stale, fd < 16 ∧ 0 ≤ (m.handles fd).inode
  apart : ∀ fd ∈ stale, ∀ slot < slotCount, (entryAt d slot).used ≠ 0 → (m.handles fd).inode ≠ (entryAt d slot).inode

section

variable {N : Nat} {d d' : Nat → Sector} {m m' : FsMem} {stale : Finset Nat}

theorem Apart.congr (h : Apart d m stale) (hl : Linked d' m')
    (he : ∀ slot < slotCount, entryAt d' slot = entryAt d slot)
    (hh : ∀ fd ∈ stale, (m'.handles fd).inode = (m.handles fd).inode) : Apart d' m' stale := by
  refine ⟨hl, fun fd hfd => ?_, fun fd hfd slot hs hu => ?_⟩
  · rw [hh fd hfd]; exact h.isOpen fd hfd
  · rw [he slot hs] at hu ⊢
    rw [hh fd hfd]; exact h.apart fd hfd slot hs hu

theorem Vacant.apart (h : Vacant d m) : Apart d m ∅ := ⟨h.linked, by simp, by simp⟩

/-- No handle refers to the inode of a new file. -/
theorem Apart.create {name : CStr} {res : Int} (h : Apart d m stale) (hok : ¬ (Call.create name).recycles d m)
    (hc : Created false false d m name res d' m') (hl : Linked d' m') : Apart d' m' stale := by
  cases hc with
  | refused => exact h
  | unsaved _ _ hrw => simp at hrw
  | undone _ _ _ hrw => simp at hrw
  | done i slot hr hn hno hs hu hi =>
    obtain ⟨-, -, i3⟩ := firstFreeInode_some hi
    obtain ⟨hnew, hold⟩ := @entryAt_created d name i slot i3
    refine ⟨hl, h.isOpen, fun fd hfd j hj hu' => ?_⟩
    by_cases hs : j = slot
    · rw [hs, hnew]
      intro e
      exact hok ⟨hr, hn, lookup_eq_none.2 (hno rfl), i, hi, fd, (h.isOpen fd hfd).1, e⟩
    · rw [hold j hs] at hu' ⊢
      exact h.apart fd hfd j hj hu'

/-- A handle is stale after a deletion if it was before or was open on the deleted file. -/
theorem stale_or_on {name : CStr} {i fd : Nat} (hl : lookup d name = some i) (hfd : fd ∈ stale ∪ handlesOn d m name) :
    fd ∈ stale ∨ fd < 16 ∧ (m.handles fd).inode = i := by
  rcases Finset.mem_union.1 hfd with hfd | hfd
  · exact .inl hfd
  · simp only [handlesOn, hl, Option.map_some, Option.some.injEq, Finset.mem_filter, Finset.mem_range] at hfd
    exact .inr ⟨hfd.1, hfd.2.symm⟩

/-- No other entry has the inode of the deleted file. -/
theorem Apart.delete {name : CStr} {res : Int} (hS : Sound N d m) (h : Apart d m stale)
    (hc : Deleted false false d m name res d' m') (hl : Linked d' m') :
    Apart d' m' (if res = 1 then stale ∪ handlesOn d m name else stale) := by
  cases hc with
  | refused => exact h
  | unsaved _ _ _ _ hrw => simp at hrw
  | kept _ _ _ _ hrw => simp at hrw
  | done slot slot' _ _ hs hname hfirst hs' hu' e' _ =>
    obtain rfl := h.linked.once slot' hs' slot hs hu' hname.1 e'
    have hq := (releaseInode_spec m (entryAt d slot').inode hS.owned.totalHi).2.2.1
    obtain ⟨hnew, hold⟩ := @entryAt_deleted d (releaseInode m (entryAt d slot').inode)
      ((releaseInode m (entryAt d slot').inode).inode (entryAt d slot').inode) _ slot' (hS.entries slot' hs' hu').2
    have hlook : lookup d name = some (entryAt d slot').inode :=
      lookup_eq_some.2 ⟨slot', hs', hname, hfirst rfl, rfl⟩
    rw [if_pos rfl]
    refine ⟨hl, fun fd hfd => ?_, fun fd hfd j hj hu => ?_⟩
    · rw [hq]
      rcases stale_or_on hlook hfd with hfd | ⟨hfd, e⟩
      · exact h.isOpen fd hfd
      · exact ⟨hfd, by rw [e]; omega⟩
    · have hjs : j ≠ slot' := by
        rintro rfl
        rw [hnew] at hu
        exact hu rfl
      rw [hold j hjs] at hu ⊢
      rw [hq]
      rcases stale_or_on hlook hfd with hfd | ⟨-, e⟩
      · exact h.apart fd hfd j hj hu
      · rw [e]
        intro e₁
        exact hjs (h.linked.once j hj slot' hs' hu hu' (by exact_mod_cast e₁.symm))

/-- An opened handle was free before, so it is not stale. -/
theorem Apart.open {name : CStr} {res : Int} (h : Apart d m stale) (hc : Opened false d m name res m')
    (hl : Linked d m') : Apart d m' stale := by
  cases hc with
  | refused => exact h
  | done slot fd _ _ _ _ _ _ hneg _ =>
    refine h.congr hl (fun _ _ => rfl) fun fd' hfd' => ?_
    have hne : fd' ≠ fd := by
      rintro rfl
      have := (h.isOpen fd' hfd').2
      omega
    simp [setHandle, hne]

/-- Handles that stay as they are stay apart. -/
theorem Apart.subset {stale' : Finset Nat} (h : Apart d m stale) (hl : Linked d m')
    (hsub : ∀ fd ∈ stale', fd ∈ stale ∧ (m'.handles fd).inode = (m.handles fd).inode) : Apart d m' stale' := by
  refine ⟨hl, fun fd hfd => ?_, fun fd hfd => ?_⟩
  · rw [(hsub fd hfd).2]
    exact h.isOpen fd (hsub fd hfd).1
  · rw [(hsub fd hfd).2]
    exact h.apart fd (hsub fd hfd).1

theorem Apart.close {fd : Int} (h : Apart d m stale) (hl : Linked d m')
    (hc : 0 ≤ fd ∧ fd < 16 ∧ m' = setHandle m fd.toNat .closed ∨ m' = m) :
    Apart d m' (if 0 ≤ fd then stale.erase fd.toNat else stale) := by
  obtain ⟨hfd, -, rfl⟩ | rfl := hc
  · rw [if_pos hfd]
    refine h.subset hl fun fd' hfd' => ?_
    obtain ⟨hne, hmem⟩ := Finset.mem_erase.1 hfd'
    exact ⟨hmem, by simp [setHandle, hne]⟩
  · refine h.subset hl fun fd' hfd' => ⟨?_, rfl⟩
    split at hfd'
    · exact Finset.mem_of_mem_erase hfd'
    · exact hfd'

/-- One call keeps stale handles apart, unless it recycles an inode. -/
theorem Apart.step {call : Call} {ret : Ret} (hS : Sound N d m) (h : Apart d m stale)
    (hok : ¬ call.recycles d m) (hc : CallEffect false false d m call ret d' m') :
    Apart d' m' (staleAfter d m call ret stale) := by
  have hlink := hc.linked hS h.linked
  cases call with
  | create name => exact h.create hok hc.2 hlink
  | delete name => exact h.delete hS hc.2 hlink
  | exist name =>
    obtain ⟨rfl, rfl, -⟩ := hc
    exact h
  | «open» name =>
    obtain ⟨rfl, -, hc⟩ := hc
    exact h.open hc hlink
  | close fd =>
    obtain ⟨rfl, -, hc⟩ := hc
    refine h.close hlink ?_
    split at hc
    · rename_i hfd
      exact .inl ⟨hfd.1, hfd.2, hc.2⟩
    · exact .inr hc.2
  | read fd buffer size =>
    obtain ⟨rfl, hc⟩ := hc
    exact h.congr hlink (fun _ _ => rfl) fun fd' _ => hc.frame.2.1 fd'
  | write fd buffer =>
    obtain ⟨h1, -, h3, -⟩ := hc.2.frame hS
    exact h.congr hlink h1 fun fd' _ => h3 fd'
  | list buffer size =>
    obtain ⟨rfl, rfl⟩ := hc
    exact h

end

section

variable {cp : Primitives} {N : Nat}

end

section

variable (cp : Primitives) (material : Nat → Byte) (c : Conf FsMem Machine)

end

end SpectreOS
