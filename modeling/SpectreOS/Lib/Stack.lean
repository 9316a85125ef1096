/-
Words in byte memory, and a stack of them that grows downwards: what lies on the stack after some pushes,
and what they leave alone.
-/
import SpectreOS.Lib.Ram

namespace BlockIO

namespace Memory

variable {r r' : Ram} {a d top x : Address} {w : BitVec 32}

/-! ## Bytes and words -/

theorem span_four (a : Address) : span a 4 = [a, a + 1, a + 2, a + 3] := by
  simp [span, List.range_succ]

/-- A word depends on its four bytes. -/
theorem loadWord_congr (h : ∀ x ∈ span a 4, r'.cell x = r.cell x) : r'.loadWord a = r.loadWord a := by
  simp only [span_four, List.mem_cons, List.not_mem_nil, or_false, forall_eq_or_imp, forall_eq] at h
  obtain ⟨h0, h1, h2, h3⟩ := h
  rw [loadWord, loadWord, h0, h1, h2, h3]

theorem storeWord_eq_storeBytes (r : Ram) (a : Address) (w : BitVec 32) :
    r.storeWord a w =
      r.storeBytes a [w.extractLsb' 0 8, w.extractLsb' 8 8, w.extractLsb' 16 8, w.extractLsb' 24 8] := by
  have h2 : a + 1 + 1 = a + 2 := BitVec.add_assoc a 1 1
  have h3 : a + 2 + 1 = a + 3 := BitVec.add_assoc a 2 1
  simp only [storeWord, storeBytes, h2, h3]

theorem storeWord_outside (h : x ∉ span a 4) : (r.storeWord a w).cell x = r.cell x := by
  rw [storeWord_eq_storeBytes]
  exact storeBytes_outside h

/-- A word is its four bytes. -/
theorem bytes_append (w : BitVec 32) :
    w.extractLsb' 24 8 ++ w.extractLsb' 16 8 ++ w.extractLsb' 8 8 ++ w.extractLsb' 0 8 = w := by
  refine BitVec.eq_of_getLsbD_eq fun i hi => ?_
  simp only [BitVec.getLsbD_append, BitVec.getLsbD_extractLsb']
  by_cases h0 : i < 8
  · simp [h0]
  · by_cases h1 : i < 16
    · simp [h0, show i - 8 < 8 by omega, show 8 + (i - 8) = i by omega]
    · by_cases h2 : i < 24
      · simp [h0, show ¬i - 8 < 8 by omega, show i - 8 - 8 < 8 by omega, show 16 + (i - 8 - 8) = i by omega]
      · simp [h0, show ¬i - 8 < 8 by omega, show ¬i - 8 - 8 < 8 by omega, show i - 8 - 8 - 8 < 8 by omega,
          show 24 + (i - 8 - 8 - 8) = i by omega]

theorem loadWord_storeWord (r : Ram) (a : Address) (w : BitVec 32) : (r.storeWord a w).loadWord a = w := by
  have h10 : a ≠ a + 1 := by bv_omega
  have h20 : a ≠ a + 2 := by bv_omega
  have h30 : a ≠ a + 3 := by bv_omega
  have h21 : a + 1 ≠ a + 2 := by bv_omega
  have h31 : a + 1 ≠ a + 3 := by bv_omega
  have h32 : a + 2 ≠ a + 3 := by bv_omega
  simp only [storeWord, loadWord, store_cell_self, store_cell_of_ne, ne_eq, h10, h20, h30, h21, h31,
    h32, not_false_eq_true]
  exact bytes_append w

/-! ## Stacks -/

/-- One word after the other onto a stack, the first one just below `top`. -/
def pushWords (r : Ram) (top : Address) : List (BitVec 32) → Ram
  | [] => r
  | w :: ws => (r.storeWord (top - 4) w).pushWords (top - 4) ws

/-- The `n` words from `a` upwards. -/
def words (r : Ram) (a : Address) (n : Nat) : List (BitVec 32) :=
  (List.range n).map fun k => r.loadWord (a + BitVec.ofNat 32 (4 * k))

/-- Where the stack stands after so many pushes. -/
def pushed (top : Address) (n : Nat) : Address := top - BitVec.ofNat 32 (4 * n)

theorem pushed_succ (top : Address) (n : Nat) : pushed (top - 4) n = pushed top (n + 1) := by
  unfold pushed
  bv_omega

theorem pushWords_outside {ws : List (BitVec 32)} (hlen : 4 * ws.length ≤ 2 ^ 32)
    (h : x ∉ span (pushed top ws.length) (4 * ws.length)) : (r.pushWords top ws).cell x = r.cell x := by
  induction ws generalizing r top with
  | nil => rfl
  | cons w ws ih =>
    rw [List.length_cons] at h hlen
    rw [mem_span _ hlen] at h
    rw [pushWords, ih (by omega), storeWord_outside]
    · rw [mem_span _ (by decide)]
      unfold pushed at h
      bv_omega
    · rw [pushed_succ, mem_span _ (by omega)]
      unfold pushed at h ⊢
      bv_omega

theorem words_succ (r : Ram) (a : Address) (n : Nat) :
    r.words a (n + 1) = r.words a n ++ [r.loadWord (a + BitVec.ofNat 32 (4 * n))] := by
  rw [words, List.range_succ, List.map_append]
  rfl

/-- On the stack the words lie in the reverse order. -/
theorem words_pushWords {ws : List (BitVec 32)} (hlen : 4 * ws.length ≤ 2 ^ 32) :
    (r.pushWords top ws).words (pushed top ws.length) ws.length = ws.reverse := by
  induction ws generalizing r top with
  | nil => rfl
  | cons w ws ih =>
    rw [List.length_cons] at hlen
    have hlast : pushed top (ws.length + 1) + BitVec.ofNat 32 (4 * ws.length) = top - 4 := by
      unfold pushed
      bv_omega
    rw [List.length_cons, words_succ, hlast, pushWords, ← pushed_succ, ih (by omega), List.reverse_cons]
    have hkept : ∀ x ∈ span (top - 4) 4, ((r.storeWord (top - 4) w).pushWords (top - 4) ws).cell x =
        (r.storeWord (top - 4) w).cell x := by
      intro x hx
      refine pushWords_outside (by omega) ?_
      rw [mem_span _ (by decide)] at hx
      rw [mem_span _ (by omega)]
      unfold pushed
      bv_omega
    rw [loadWord_congr hkept, loadWord_storeWord]

/-- Replacing one of several words. -/
theorem words_storeWord {n k : Nat} (hk : k < n) (hn : 4 * n ≤ 2 ^ 32) :
    (r.storeWord (a + BitVec.ofNat 32 (4 * k)) w).words a n = (r.words a n).set k w := by
  refine List.ext_getElem (by simp [words]) fun j hj _ => ?_
  simp only [words, List.length_map, List.length_range] at hj
  rw [List.getElem_set]
  simp only [words, List.getElem_map, List.getElem_range]
  split
  · rename_i h
    rw [← h, loadWord_storeWord]
  · refine loadWord_congr fun x hx => storeWord_outside ?_
    rw [mem_span _ (by decide)] at hx ⊢
    bv_omega

theorem words_congr {n : Nat} (h : ∀ x ∈ span a (4 * n), r'.cell x = r.cell x) (hn : 4 * n ≤ 2 ^ 32) :
    r'.words a n = r.words a n := by
  refine List.map_congr_left fun k hk => loadWord_congr fun x hx => h x ?_
  rw [List.mem_range] at hk
  rw [mem_span _ (by decide)] at hx
  rw [mem_span _ hn]
  bv_omega

end Memory

end BlockIO
