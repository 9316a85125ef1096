/-
What the filesystem is for, without disk, bitmap or inodes: at most 127 named byte strings of at
most 16384 bytes on a given number of sectors, and 16 handles that hold a file and a position. The
invariants are fields of `Files`, so every operation carries the proof that it keeps them.
-/
import SpectreOS.Fs.File
import Mathlib.Data.List.GetD
import Mathlib.Algebra.BigOperators.Group.Finset.Basic
import Mathlib.Algebra.Order.BigOperators.Group.Finset

namespace SpectreOS

open BlockIO

/-! ## Overwriting part of a string -/

/-- The string with `bytes` in the place of what stood at `position`. -/
def overwrite (data : List Byte) (position : Nat) (bytes : List Byte) : List Byte :=
  data.take position ++ bytes ++ data.drop (position + bytes.length)

theorem length_overwrite {data : List Byte} {position : Nat} (h : position ≤ data.length) (bytes : List Byte) :
    (overwrite data position bytes).length = max data.length (position + bytes.length) := by
  simp only [overwrite, List.length_append, List.length_take, List.length_drop]
  omega

theorem getElem_overwrite {data : List Byte} {position : Nat} (h : position ≤ data.length) (bytes : List Byte) (p : Nat)
    (hp : p < (overwrite data position bytes).length) :
    (overwrite data position bytes)[p] =
      if position ≤ p ∧ p < position + bytes.length then bytes.getD (p - position) 0 else data.getD p 0 := by
  have hlen := length_overwrite h bytes
  have htake : (data.take position).length = position := by rw [List.length_take]; omega
  have hmid : (data.take position ++ bytes).length = position + bytes.length := by rw [List.length_append, htake]
  unfold overwrite at hp hlen ⊢
  by_cases h1 : p < position
  · rw [if_neg (by omega), List.getElem_append_left (by omega), List.getElem_append_left (by omega),
      List.getElem_take, List.getD_eq_getElem _ _ (by omega)]
  · by_cases h2 : p < position + bytes.length
    · rw [if_pos (by omega), List.getElem_append_left (by omega), List.getElem_append_right (by omega),
        List.getD_eq_getElem _ _ (by omega)]
      simp only [htake]
    · rw [if_neg (by omega), List.getElem_append_right (by omega), List.getElem_drop,
        List.getD_eq_getElem _ _ (by omega)]
      simp only [hmid]
      congr 1
      omega

/-! ## Files -/

/-- The sectors a string takes. -/
def sectorsOf (data : List Byte) : Nat := (data.length + 511) / 512

/-- Named files on `capacity` sectors, and the handles open on them. -/
structure Files where
  capacity : Nat
  names : Finset CStr
  data : CStr → List Byte
  handles : Nat → Option (CStr × Nat)
  valid : ∀ n ∈ names, validName n = true
  few : names.card ≤ 127
  short : ∀ n ∈ names, (data n).length ≤ 16384
  fits : ∑ n ∈ names, sectorsOf (data n) ≤ capacity
  opened : ∀ fd n p, handles fd = some (n, p) → fd < 16 ∧ n ∈ names ∧ p ≤ (data n).length

namespace Files

/-- The sectors no file takes. -/
def free (a : Files) : Nat := a.capacity - ∑ n ∈ a.names, sectorsOf (a.data n)

/-- No files and no handles. -/
def empty (capacity : Nat) : Files where
  capacity := capacity
  names := ∅
  data _ := []
  handles _ := none
  valid := by simp
  few := by simp
  short := by simp
  fits := by simp
  opened := by simp

theorem sum_insert_empty {names : Finset CStr} {n : CStr} (h : n ∉ names) (data : CStr → List Byte) :
    ∑ k ∈ insert n names, sectorsOf (Function.update data n [] k) = ∑ k ∈ names, sectorsOf (data k) := by
  have hzero : sectorsOf [] = 0 := rfl
  rw [Finset.sum_insert h, Function.update_self, hzero, Nat.zero_add]
  refine Finset.sum_congr rfl fun k hk => ?_
  rw [Function.update_of_ne (by rintro rfl; exact h hk)]

def create (a : Files) (n : CStr) : Ret × Files :=
  if h : validName n = true ∧ n ∉ a.names ∧ a.names.card < 127 then
    (⟨1, []⟩,
      { a with
        names := insert n a.names
        data := Function.update a.data n []
        valid := fun k hk => by
          rcases Finset.mem_insert.1 hk with rfl | hk
          · exact h.1
          · exact a.valid k hk
        few := (Finset.card_insert_le _ _).trans h.2.2
        short := fun k hk => by
          by_cases e : k = n
          · rw [e, Function.update_self]; simp
          · rw [Function.update_of_ne e]
            exact a.short k ((Finset.mem_insert.1 hk).resolve_left e)
        fits := by rw [sum_insert_empty h.2.1]; exact a.fits
        opened := fun fd k p hk => by
          obtain ⟨h1, h2, h3⟩ := a.opened fd k p hk
          refine ⟨h1, Finset.mem_insert_of_mem h2, ?_⟩
          rwa [Function.update_of_ne (by rintro rfl; exact h.2.1 h2)] })
  else (⟨0, []⟩, a)

/-- No handle is open on the file. -/
def closed (a : Files) (n : CStr) : Prop := ∀ fd < 16, (a.handles fd).map Prod.fst ≠ some n

instance (a : Files) (n : CStr) : Decidable (a.closed n) := inferInstanceAs (Decidable (∀ _ < _, _))

/-- Deleting a file on which no handle is open. -/
def delete (a : Files) (n : CStr) : Ret × Files :=
  if h : n ∈ a.names ∧ a.closed n then
    (⟨1, []⟩,
      { a with
        names := a.names.erase n
        valid := fun k hk => a.valid k (Finset.mem_of_mem_erase hk)
        few := (Finset.card_le_card (Finset.erase_subset _ _)).trans a.few
        short := fun k hk => a.short k (Finset.mem_of_mem_erase hk)
        fits := (Finset.sum_le_sum_of_subset (Finset.erase_subset _ _)).trans a.fits
        opened := fun fd k p hk => by
          obtain ⟨h1, h2, h3⟩ := a.opened fd k p hk
          refine ⟨h1, Finset.mem_erase.2 ⟨?_, h2⟩, h3⟩
          rintro rfl
          exact h.2 fd h1 (by rw [hk]; rfl) })
  else (⟨0, []⟩, a)

def exist (a : Files) (n : CStr) : Ret × Files := (⟨if n ∈ a.names then 1 else 0, []⟩, a)

/-- The files with a handle set, to a file and a position in it. -/
def setHandle (a : Files) (fd : Nat) (n : CStr) (p : Nat) (h : fd < 16 ∧ n ∈ a.names ∧ p ≤ (a.data n).length) : Files :=
  { a with
    handles := Function.update a.handles fd (some (n, p))
    opened := fun fd' k q hk => by
      by_cases e : fd' = fd
      · rw [e, Function.update_self] at hk
        obtain ⟨rfl, rfl⟩ := Prod.mk.inj (Option.some.inj hk)
        rw [e]; exact h
      · rw [Function.update_of_ne e] at hk
        exact a.opened fd' k q hk }

def «open» (a : Files) (n : CStr) : Ret × Files :=
  if hn : n ∈ a.names then
    match hf : (List.range 16).find? fun fd => (a.handles fd).isNone with
    | none => (⟨-1, []⟩, a)
    | some fd => (⟨fd, []⟩, a.setHandle fd n 0 ⟨List.mem_range.1 (List.mem_of_find?_eq_some hf), hn, Nat.zero_le _⟩)
  else (⟨-1, []⟩, a)

def close (a : Files) (fd : Int) : Ret × Files :=
  if 0 ≤ fd ∧ fd < 16 then
    (⟨1, []⟩,
      { a with
        handles := Function.update a.handles fd.toNat none
        opened := fun fd' k q hk => by
          by_cases e : fd' = fd.toNat
          · rw [e, Function.update_self] at hk; cases hk
          · rw [Function.update_of_ne e] at hk
            exact a.opened fd' k q hk })
  else (⟨0, []⟩, a)

/-- The file and position of a handle that may be read or written through; `buffer` is whether the
pointer is not null. -/
def usable (a : Files) (fd : Int) (buffer : Bool) : Option (CStr × Nat) :=
  if buffer = true ∧ 0 ≤ fd ∧ fd < 16 then a.handles fd.toNat else none

theorem opened_usable {a : Files} {fd : Int} {buffer : Bool} {n : CStr} {p : Nat}
    (h : a.usable fd buffer = some (n, p)) :
    fd.toNat < 16 ∧ n ∈ a.names ∧ p ≤ (a.data n).length := by
  unfold usable at h
  split at h
  · exact a.opened _ n p h
  · cases h

/-- The bytes a read of `size` bytes gets. -/
def bytesAt (a : Files) (n : CStr) (p size : Nat) : List Byte := ((a.data n).drop p).take size

def read (a : Files) (fd : Int) (buffer : Bool) (size : Nat) : Ret × Files :=
  match h : a.usable fd buffer with
  | none => (⟨-1, []⟩, a)
  | some (n, p) =>
    (⟨(a.bytesAt n p size).length, a.bytesAt n p size⟩,
      a.setHandle fd.toNat n (p + (a.bytesAt n p size).length) (by
        obtain ⟨h1, h2, h3⟩ := opened_usable h
        refine ⟨h1, h2, ?_⟩
        simp only [bytesAt, List.length_take, List.length_drop]
        omega))

/-- How much of a write of `size` bytes goes in: up to the maximal size of a file, and as far as the
file's sectors and the free ones reach. -/
def room (a : Files) (n : CStr) (p size : Nat) : Nat :=
  min (min size (16384 - p)) ((sectorsOf (a.data n) + a.free) * 512 - p)

theorem sum_update {names : Finset CStr} {n : CStr} (h : n ∈ names) (data : CStr → List Byte) (bytes : List Byte) :
    ∑ k ∈ names, sectorsOf (Function.update data n bytes k) + sectorsOf (data n) =
      ∑ k ∈ names, sectorsOf (data k) + sectorsOf bytes := by
  have h1 := Finset.add_sum_erase names (fun k => sectorsOf (Function.update data n bytes k)) h
  have h2 := Finset.add_sum_erase names (fun k => sectorsOf (data k)) h
  have h3 : ∑ k ∈ names.erase n, sectorsOf (Function.update data n bytes k) = ∑ k ∈ names.erase n, sectorsOf (data k) :=
    Finset.sum_congr rfl fun k hk => by rw [Function.update_of_ne (Finset.ne_of_mem_erase hk)]
  simp only [Function.update_self] at h1
  omega

/-- The files after the bytes `input` have gone in at `p`. -/
def put (a : Files) (n : CStr) (p : Nat) (input : List Byte) (hn : n ∈ a.names) (hp : p ≤ (a.data n).length)
    (hr : input.length ≤ a.room n p input.length) : Files :=
  have hlen : (overwrite (a.data n) p input).length = max (a.data n).length (p + input.length) := length_overwrite hp _
  have hle : p + input.length ≤ 16384 ∧ p + input.length ≤ max p ((sectorsOf (a.data n) + a.free) * 512) := by
    have := a.short n hn
    unfold room at hr
    omega
  { a with
    data := Function.update a.data n (overwrite (a.data n) p input)
    short := fun k hk => by
      have hs := a.short k hk
      by_cases e : k = n
      · rw [e] at hs ⊢
        rw [Function.update_self, hlen]
        omega
      · rw [Function.update_of_ne e]; exact hs
    fits := by
      have hsum := sum_update hn a.data (overwrite (a.data n) p input)
      have hfits := a.fits
      have hnew : sectorsOf (overwrite (a.data n) p input) ≤ sectorsOf (a.data n) + a.free := by
        simp only [sectorsOf] at hle ⊢
        rw [hlen]
        omega
      unfold free at hnew
      omega
    opened := fun fd k q hk => by
      obtain ⟨h1, h2, h3⟩ := a.opened fd k q hk
      refine ⟨h1, h2, ?_⟩
      by_cases e : k = n
      · rw [e] at h3 ⊢
        rw [Function.update_self, hlen]
        omega
      · rw [Function.update_of_ne e]; exact h3 }

def write (a : Files) (fd : Int) (buffer : Option (List Byte)) : Ret × Files :=
  match h : a.usable fd buffer.isSome with
  | none => (⟨-1, []⟩, a)
  | some (n, p) =>
    let input := (buffer.getD []).take (a.room n p (buffer.getD []).length)
    have hp := opened_usable h
    have hr : input.length ≤ a.room n p input.length := by
      simp only [input, room, List.length_take]
      omega
    (⟨input.length, []⟩,
      (a.put n p input hp.2.1 hp.2.2 hr).setHandle fd.toNat n (p + input.length) (by
        refine ⟨hp.1, hp.2.1, ?_⟩
        simp only [put, Function.update_self]
        rw [length_overwrite hp.2.2]
        omega))

theorem read_spec {a : Files} {fd : Int} {n : CStr} {p : Nat} (h : a.usable fd true = some (n, p)) (size : Nat) :
    (a.read fd true size).1 = ⟨(min size ((a.data n).length - p) : Nat), ((a.data n).drop p).take size⟩ ∧
      (a.read fd true size).2.handles =
        Function.update a.handles fd.toNat (some (n, p + min size ((a.data n).length - p))) := by
  have hlen : (a.bytesAt n p size).length = min size ((a.data n).length - p) := by simp [bytesAt]
  unfold read
  split
  · rename_i hs
    rw [h] at hs
    cases hs
  · rename_i n' p' hs
    obtain ⟨rfl, rfl⟩ := Prod.mk.inj (Option.some.inj (h.symm.trans hs))
    simp only [setHandle, hlen]
    exact ⟨rfl, trivial⟩

/-- What a write does: how much goes in, and that nothing is free when it is cut short. -/
theorem write_spec {a : Files} {fd : Int} {n : CStr} {p : Nat} (h : a.usable fd true = some (n, p))
    (input : List Byte) :
    (a.write fd (some input)).1 = ⟨a.room n p input.length, []⟩ ∧ (a.write fd (some input)).2.names = a.names ∧
      (a.write fd (some input)).2.data =
        Function.update a.data n (overwrite (a.data n) p (input.take (a.room n p input.length))) ∧
      (a.write fd (some input)).2.handles =
        Function.update a.handles fd.toNat (some (n, p + a.room n p input.length)) ∧
      (a.room n p input.length < min input.length (16384 - p) → (a.write fd (some input)).2.free = 0) := by
  obtain ⟨-, hn, hp⟩ := opened_usable h
  have hlen : (input.take (a.room n p input.length)).length = a.room n p input.length := by
    rw [List.length_take]
    unfold room
    omega
  have hsum := sum_update hn a.data (overwrite (a.data n) p (input.take (a.room n p input.length)))
  have hover := length_overwrite hp (input.take (a.room n p input.length))
  have hfits := a.fits
  unfold write
  split
  · rename_i hs
    rw [show (some input).isSome = true from rfl, h] at hs
    cases hs
  · rename_i n' p' hs
    obtain ⟨rfl, rfl⟩ := Prod.mk.inj (Option.some.inj (h.symm.trans hs))
    simp only [setHandle, put, Option.getD_some, hlen]
    refine ⟨trivial, trivial, trivial, trivial, fun hlt => ?_⟩
    -- the file now ends where the last free sector ends
    have hend : p + a.room n p input.length = max p ((sectorsOf (a.data n) + a.free) * 512) := by
      unfold room at hlt ⊢
      omega
    have hnew : sectorsOf (overwrite (a.data n) p (input.take (a.room n p input.length))) =
      sectorsOf (a.data n) + a.free := by
      rw [hlen] at hover
      simp only [sectorsOf] at hend ⊢
      rw [hover]
      omega
    unfold free at hnew ⊢
    simp only
    omega

/-! ## Runs -/

/-- What a call returns and leads to. `fs_list` is not modelled here. -/
def step (a : Files) : Call → Ret × Files
  | .create n => a.create n
  | .delete n => a.delete n
  | .exist n => a.exist n
  | .open n => a.open n
  | .close fd => a.close fd
  | .read fd buffer size => a.read fd buffer size
  | .write fd buffer => a.write fd buffer
  | .list _ _ => (⟨0, []⟩, a)

/-- The calls the model is about: no listing, and no deletion of an open file. -/
def permits (a : Files) : Call → Prop
  | .delete n => a.closed n
  | .list _ _ => False
  | _ => True

def run : List Call → Files → List Ret × Files
  | [], a => ([], a)
  | call :: calls, a => ((a.step call).1 :: (run calls (a.step call).2).1, (run calls (a.step call).2).2)

def PermitsAll : List Call → Files → Prop
  | [], _ => True
  | call :: calls, a => a.permits call ∧ PermitsAll calls (a.step call).2

/-- The files with all handles closed. -/
def closeAll (a : Files) : Files := { a with handles := fun _ => none, opened := by simp }

end Files

end SpectreOS
