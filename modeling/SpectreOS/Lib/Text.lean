/-
NUL-terminated text in a block of bytes: the text a block holds, storing a text with its
terminator, and what appending to and cutting a stored text leaves.
-/
import SpectreOS.Lib.Bytes

namespace BlockIO.Block

variable {n : Nat}

/-- The bytes before the first NUL. -/
def text (b : Block n) : List Byte := (List.ofFn b).takeWhile (· != 0)

/-- The block with one byte replaced. -/
def setByte (b : Block n) (i : Nat) (c : Byte) : Block n := b.patch i 1 fun _ => c

/-- The block with a text and its terminator written at its start. -/
def store (b : Block n) (t : List Byte) : Block n := b.patch 0 (t.length + 1) fun k => t.getD k 0

theorem zero_notMem_text (b : Block n) : 0 ∉ b.text := by
  intro h
  simpa using List.all_eq_true.1 (List.all_takeWhile (p := (· != 0)) (l := List.ofFn b)) 0 h

theorem slice_setByte (b : Block n) (i : Nat) (c : Byte) {k : Nat} (hk : k < n) :
    (b.setByte i c).slice 0 k = if k = i then c else b.slice 0 k := by
  split
  · rename_i h
    subst h
    exact slice_patch_inside b _ (by omega) (by omega) (by omega)
  · exact slice_patch_outside b _ (by omega)

/-- A block holds the text that stands before its first NUL. -/
theorem text_eq {b : Block n} {t : List Byte} (h0 : 0 ∉ t) (hlen : t.length < n)
    (ht : ∀ k, k < t.length → b.slice 0 k = t.getD k 0) (hend : b.slice 0 t.length = 0) : b.text = t := by
  have hsplit : List.ofFn b = t ++ (List.ofFn b).drop t.length := by
    have htake : (List.ofFn b).take t.length = t := by
      apply List.ext_getElem
      · simp; omega
      · intro k h1 h2
        have := ht k h2
        rw [slice_apply _ (by omega)] at this
        simpa [List.getElem?_eq_getElem h2] using this
    exact (List.take_append_drop t.length _).symm.trans (by rw [htake])
  have hhead : (List.ofFn b).drop t.length = 0 :: (List.ofFn b).drop (t.length + 1) := by
    rw [List.drop_eq_getElem_cons (by simpa using hlen)]
    rw [slice_apply _ (by omega)] at hend
    simpa using hend
  rw [text, hsplit, hhead, List.takeWhile_append_of_pos, List.takeWhile_cons_of_neg (by simp), List.append_nil]
  intro c hc
  have : c ≠ 0 := fun e => h0 (e ▸ hc)
  simpa using this

theorem text_store (b : Block n) {t : List Byte} (h0 : 0 ∉ t) (hlen : t.length < n) : (b.store t).text = t := by
  apply text_eq h0 hlen
  · intro k hk
    rw [store, slice_patch_inside b _ (by omega) (by omega) (by omega)]
    simp
  · rw [store, slice_patch_inside b _ (by omega) (by omega) (by omega)]
    simp

theorem text_setByte_zero (b : Block n) (hn : 0 < n) : (b.setByte 0 0).text = [] := by
  apply text_eq (by simp) hn (by simp)
  rw [slice_setByte _ _ _ (by simpa using hn)]
  simp

/-- Before its terminator a block holds its text. -/
theorem slice_text (b : Block n) {k : Nat} (hk : k < b.text.length) : b.slice 0 k = b.text.getD k 0 := by
  obtain ⟨rest, hrest⟩ : b.text <+: List.ofFn b := List.takeWhile_prefix _
  have hlen := congrArg List.length hrest
  simp only [List.length_append, List.length_ofFn] at hlen
  have hget : (List.ofFn b)[k]? = b.text[k]? := by rw [← hrest, List.getElem?_append_left hk]
  rw [slice_apply _ (by omega), List.getD_eq_getElem?_getD, ← hget]
  simp [show k < n by omega]

/-- Terminating a text where it ends. -/
theorem text_setByte_length (b : Block n) (hlen : b.text.length < n) : (b.setByte b.text.length 0).text = b.text := by
  apply text_eq b.zero_notMem_text hlen
  · intro k hk
    rw [slice_setByte _ _ _ (by omega), if_neg (by omega), slice_text b hk]
  · rw [slice_setByte _ _ _ hlen, if_pos rfl]

/-- Appending a byte to the stored text. -/
theorem text_append (b : Block n) {ch : Byte} (hch : ch ≠ 0) (hlen : b.text.length + 1 < n) :
    ((b.setByte b.text.length ch).setByte (b.text.length + 1) 0).text = b.text ++ [ch] := by
  apply text_eq
  · simp only [List.mem_append, List.mem_singleton, not_or]
    exact ⟨b.zero_notMem_text, fun h => hch h.symm⟩
  · simpa using hlen
  · intro k hk
    rw [List.length_append, List.length_singleton] at hk
    rw [slice_setByte _ _ _ (by omega), if_neg (by omega), slice_setByte _ _ _ (by omega)]
    by_cases e : k = b.text.length
    · simp [e]
    · have hk' : k < b.text.length := by omega
      rw [if_neg e, slice_text b hk', List.getD_eq_getElem?_getD, List.getD_eq_getElem?_getD,
        List.getElem?_append_left hk']
  · rw [List.length_append, List.length_singleton, slice_setByte _ _ _ hlen, if_pos rfl]

/-- Cutting the last byte off the stored text. -/
theorem text_dropLast (b : Block n) (hne : b.text ≠ []) (hlen : b.text.length < n) :
    (b.setByte (b.text.length - 1) 0).text = b.text.dropLast := by
  have hpos := List.length_pos_iff.2 hne
  apply text_eq
  · exact fun h => b.zero_notMem_text (List.mem_of_mem_dropLast h)
  · rw [List.length_dropLast]
    omega
  · intro k hk
    rw [List.length_dropLast] at hk
    rw [slice_setByte _ _ _ (by omega), if_neg (by omega), slice_text b (by omega)]
    rw [List.getD_eq_getElem?_getD, List.getD_eq_getElem?_getD, List.getElem?_dropLast, if_pos hk]
  · rw [List.length_dropLast, slice_setByte _ _ _ (by omega), if_pos rfl]

end BlockIO.Block
