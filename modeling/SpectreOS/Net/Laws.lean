/-
The laws of the Internet checksum: it is the complement of the one's complement sum of the
big-endian words (RFC 1071). The laws come from one fact, that folding is the residue modulo 65535
with the representatives 1..65535 and 0 for the sum 0 only.
-/
import SpectreOS.Net.Checksum

namespace SpectreOS

open BlockIO

/-! ## The reference -/

/-- The big-endian words of a byte string, an odd last byte as the high byte of one. -/
def words : List Byte → List Word16
  | [] => []
  | [a] => [BitVec.ofNat 16 (256 * a.toNat)]
  | a :: b :: rest => BitVec.ofNat 16 (256 * a.toNat + b.toNat) :: words rest

/-- One's complement addition: a carry out of the top bit is added at the bottom. -/
def onesAdd (a b : Word16) : Word16 := if a.toNat + b.toNat < 2 ^ 16 then a + b else a + b + 1

/-- The one's complement sum of some words. -/
def onesSum (l : List Word16) : Word16 := l.foldl onesAdd 0

example : onesSum [0xFFFF, 0xFFFF, 1] = 1 := by decide

theorem sum_words (l : List Byte) : ((words l).map BitVec.toNat).sum = wordSum l := by
  induction l using wordSum.induct with
  | case1 => rfl
  | case2 a =>
    have ha := a.isLt
    simp only [words, wordSum, List.map_cons, List.map_nil, List.sum_cons, List.sum_nil, BitVec.toNat_ofNat]
    omega
  | case3 a b rest ih =>
    have ha := a.isLt
    have hb := b.isLt
    simp only [words, wordSum, List.map_cons, List.sum_cons, BitVec.toNat_ofNat, ih]
    omega

/-! ## Folding -/

/-- One round of the loop of `checksum_finish`. -/
def foldRound (sum : Nat) : Nat := sum % 65536 + sum / 65536

/-- A 32-bit sum is folded in at most two rounds. -/
theorem foldSum_rounds {n : Nat} (h : n < 2 ^ 32) : ∃ k ≤ 2, foldSum n = foldRound^[k] n ∧ foldSum n < 2 ^ 16 := by
  have hlt : foldSum n < 2 ^ 16 := by
    rw [foldSum_eq]
    split <;> omega
  by_cases h0 : n / 65536 = 0
  · exact ⟨0, by omega, by rw [foldSum, if_pos h0]; rfl, hlt⟩
  · by_cases h1 : foldRound n / 65536 = 0
    · refine ⟨1, by omega, ?_, hlt⟩
      rw [foldSum, if_neg h0]
      change foldSum (foldRound n) = foldRound n
      rw [foldSum, if_pos h1]
    · have h2 : foldRound (foldRound n) / 65536 = 0 := by
        unfold foldRound at h1 ⊢
        omega
      refine ⟨2, le_refl 2, ?_, hlt⟩
      rw [foldSum, if_neg h0]
      change foldSum (foldRound n) = foldRound (foldRound n)
      rw [foldSum, if_neg h1]
      change foldSum (foldRound (foldRound n)) = _
      rw [foldSum, if_pos h2]

/-- A sum may be folded before more is added to it. -/
theorem foldSum_add (n m : Nat) : foldSum (foldSum n + m) = foldSum (n + m) := by
  rw [foldSum_eq n]
  split
  · rename_i h
    rw [h]
  · rename_i h
    rw [foldSum_eq, foldSum_eq (n + m), if_neg (by omega), if_neg (by omega)]
    have : n + m - 1 = (n - 1) % 65535 + 1 + m - 1 + 65535 * ((n - 1) / 65535) := by omega
    rw [this, Nat.add_mul_mod_self_left]

theorem toNat_onesAdd (a b : Word16) : (onesAdd a b).toNat = foldSum (a.toNat + b.toNat) := by
  have ha := a.isLt
  have hb := b.isLt
  unfold onesAdd
  rw [foldSum_eq]
  split
  · rw [BitVec.toNat_add]
    split <;> omega
  · have h1 : BitVec.toNat (1 : Word16) = 1 := rfl
    rw [BitVec.toNat_add, BitVec.toNat_add, h1, if_neg (by omega)]
    omega

theorem toNat_foldl_onesAdd (l : List Word16) (s : Word16) :
    (l.foldl onesAdd s).toNat = foldSum (s.toNat + (l.map BitVec.toNat).sum) := by
  induction l generalizing s with
  | nil =>
    have hs := s.isLt
    rw [foldSum, if_pos (by simp only [List.map_nil, List.sum_nil]; omega)]
    rfl
  | cons w rest ih =>
    rw [List.foldl_cons, ih, toNat_onesAdd, foldSum_add, List.map_cons, List.sum_cons, Nat.add_assoc]

/-- `checksum_finish` of the sum of the words is the complement of their one's complement sum. -/
theorem checksumFinish_wordSum (l : List Byte) : checksumFinish (wordSum l) = ~~~ onesSum (words l) := by
  have h : onesSum (words l) = BitVec.ofNat 16 (foldSum (wordSum l)) := by
    apply BitVec.eq_of_toNat_eq
    have hlt := (onesSum (words l)).isLt
    unfold onesSum at hlt ⊢
    rw [toNat_foldl_onesAdd, sum_words] at hlt ⊢
    have h0 : BitVec.toNat (0 : Word16) = 0 := rfl
    rw [h0, Nat.zero_add] at hlt ⊢
    rw [BitVec.toNat_ofNat, Nat.mod_eq_of_lt hlt]
  rw [h]
  rfl

/-- A sum verifies when it is a positive multiple of 65535. -/
theorem checksumFinish_eq_zero {n : Nat} : checksumFinish n = 0 ↔ n ≠ 0 ∧ 65535 ∣ n := by
  have hlt : foldSum n < 2 ^ 16 := by
    rw [foldSum_eq]
    split <;> omega
  have hfull : checksumFinish n = 0 ↔ foldSum n = 65535 := by
    unfold checksumFinish
    rw [← BitVec.toNat_inj, BitVec.toNat_not, BitVec.toNat_ofNat, Nat.mod_eq_of_lt hlt]
    have h0 : BitVec.toNat (0 : Word16) = 0 := rfl
    rw [h0]
    omega
  rw [hfull, foldSum_eq]
  constructor
  · intro h
    split at h
    · omega
    · omega
  · rintro ⟨h0, h⟩
    rw [if_neg h0]
    omega

/-! ## The laws -/

theorem checksumAdd_append {l : List Byte} (hl : l.length % 2 = 0) (m : List Byte) (sum : Nat) :
    checksumAdd sum (l ++ m) = checksumAdd (checksumAdd sum l) m := by
  induction l using wordSum.induct generalizing sum with
  | case1 => rfl
  | case2 a => simp at hl
  | case3 a b rest ih =>
    simp only [List.length_cons] at hl
    exact ih (by omega) _

theorem wordSum_lt {l : List Byte} (h : l.length ≤ 65547) : wordSum l < 2 ^ 32 := by
  have := wordSum_le l
  omega

theorem checksumAdd_zero {l : List Byte} (h : l.length ≤ 65547) : checksumAdd 0 l = wordSum l := by
  rw [checksumAdd_of_lt (by have := wordSum_lt h; omega), Nat.zero_add]

/-- A byte string cut at an aligned word. -/
theorem netRead16_split {p : List Byte} {off : Nat} {v : Word16} (h : netRead16 p off = some v) :
    ∃ front back, p = front ++ (net16 v ++ back) ∧ front.length = off ∧
      ∀ w, netWrite16 p off w = front ++ (net16 w ++ back) := by
  unfold netRead16 at h
  simp only [Option.bind_eq_bind, Option.bind_eq_some_iff, pure, Option.some.injEq] at h
  obtain ⟨hi, hhi, lo, hlo, rfl⟩ := h
  obtain ⟨h0, rfl⟩ := List.getElem?_eq_some_iff.mp hhi
  obtain ⟨h1, rfl⟩ := List.getElem?_eq_some_iff.mp hlo
  have hsplit : p = p.take off ++ (p[off] :: p[off + 1] :: p.drop (off + 2)) := by
    rw [← List.drop_eq_getElem_cons h1, ← List.drop_eq_getElem_cons h0, List.take_append_drop]
  have hlen : (p.take off).length = off := by simp only [List.length_take]; omega
  refine ⟨p.take off, p.drop (off + 2), ?_, hlen, fun w => ?_⟩
  · have hb0 := p[off].isLt
    have hb1 := p[off + 1].isLt
    have hnet : net16 (BitVec.ofNat 16 (256 * p[off].toNat + p[off + 1].toNat)) = [p[off], p[off + 1]] := by
      unfold net16
      congr 1
      · apply BitVec.eq_of_toNat_eq
        simp only [BitVec.toNat_ofNat]
        omega
      · congr 1
        apply BitVec.eq_of_toNat_eq
        simp only [BitVec.toNat_ofNat]
        omega
    rw [hnet]
    exact hsplit
  · unfold netWrite16
    conv_lhs => rw [hsplit]
    rw [List.set_append_right _ _ (by omega), hlen, Nat.sub_self, List.set_cons_zero,
      List.set_append_right _ _ (by omega), hlen, Nat.add_sub_cancel_left]
    rfl

/-- A packet whose zeroed aligned checksum field is filled with its checksum verifies. -/
theorem internetChecksum_insert {p : List Byte} (hp : p.length ≤ 65547) {off : Nat} (hoff : off % 2 = 0)
    (hzero : netRead16 p off = some 0) : internetChecksum (netWrite16 p off (internetChecksum p)) = 0 := by
  obtain ⟨front, back, hsplit, rfl, hset⟩ := netRead16_split hzero
  have hsum : ∀ w, wordSum (front ++ (net16 w ++ back)) = wordSum front + (w.toNat + wordSum back) := by
    intro w
    rw [wordSum_append hoff, wordSum_append (by simp [net16]), wordSum_net16]
  have h0 : BitVec.toNat (0 : Word16) = 0 := rfl
  have hlen : ∀ w, (front ++ (net16 w ++ back)).length ≤ 65547 := by
    intro w
    rw [hsplit] at hp
    simpa [net16] using hp
  have hword : wordSum p = wordSum front + wordSum back := by
    rw [hsplit, hsum, h0, Nat.zero_add]
  rw [hset]
  generalize hc : internetChecksum p = c
  unfold internetChecksum at hc ⊢
  rw [checksumAdd_zero (hlen c), hsum]
  rw [checksumAdd_zero hp, hword] at hc
  have := checksumFinish_verify (wordSum front + wordSum back)
  rwa [hc, Nat.add_assoc, Nat.add_comm (wordSum back)] at this

theorem sum_set {l : List Nat} {i v : Nat} (h : i < l.length) : (l.set i v).sum + l[i] = l.sum + v := by
  induction l generalizing i with
  | nil => exact absurd h (Nat.not_lt_zero i)
  | cons a rest ih =>
    cases i with
    | zero =>
      simp only [List.set_cons_zero, List.sum_cons, List.getElem_cons_zero]
      omega
    | succ i =>
      have := ih (Nat.lt_of_succ_lt_succ h)
      simp only [List.set_cons_succ, List.sum_cons, List.getElem_cons_succ]
      omega

/-- A packet that verifies stops verifying when one word changes by no multiple of 65535. -/
theorem internetChecksum_change {p q : List Byte} (hp : p.length ≤ 65547) (hlen : q.length = p.length)
    (hver : internetChecksum p = 0) {i : Nat} (hi : i < (words p).length) {v : Word16}
    (hq : words q = (words p).set i v) (hv : ¬ (65535 : Int) ∣ (v.toNat : Int) - (words p)[i].toNat) :
    internetChecksum q ≠ 0 := by
  intro hbad
  unfold internetChecksum at hver hbad
  rw [checksumAdd_zero hp, checksumFinish_eq_zero] at hver
  rw [checksumAdd_zero (hlen ▸ hp), checksumFinish_eq_zero] at hbad
  have hsum : wordSum q + (words p)[i].toNat = wordSum p + v.toNat := by
    rw [← sum_words, ← sum_words, hq, List.map_set]
    have := @sum_set ((words p).map BitVec.toNat) i v.toNat (by simpa using hi)
    rwa [List.getElem_map] at this
  obtain ⟨a, ha⟩ := hver.2
  obtain ⟨b, hb⟩ := hbad.2
  exact hv ⟨b - a, by omega⟩

/-- The checksum of at most 65547 bytes: the running sum never wraps and folding it ends within two
rounds in the complement of the one's complement sum of the words; parts of even length are added in
turn; the checksum inserted in its zeroed aligned field makes the packet verify; and a change of one
word by no multiple of 65535 makes a packet that verifies stop doing so. -/
theorem checksum_laws {data : List Byte} (hdata : data.length ≤ 65547) :
    (∀ n, checksumAdd 0 (data.take n) = ((words (data.take n)).map BitVec.toNat).sum ∧
      ((words (data.take n)).map BitVec.toNat).sum < 2 ^ 32) ∧
    (∃ k ≤ 2, foldSum (checksumAdd 0 data) = foldRound^[k] (checksumAdd 0 data) ∧
      foldSum (checksumAdd 0 data) < 2 ^ 16) ∧
    internetChecksum data = ~~~ onesSum (words data) ∧
    (∀ front back, data = front ++ back → front.length % 2 = 0 →
      ∀ sum, checksumAdd sum data = checksumAdd (checksumAdd sum front) back) ∧
    (∀ off, off % 2 = 0 → netRead16 data off = some 0 →
      internetChecksum (netWrite16 data off (internetChecksum data)) = 0) ∧
    (internetChecksum data = 0 → ∀ changed : List Byte, changed.length = data.length →
      ∀ (i : Nat) (hi : i < (words data).length) (v : Word16), words changed = (words data).set i v →
        ¬ (65535 : Int) ∣ (v.toNat : Int) - (words data)[i].toNat → internetChecksum changed ≠ 0) := by
  have htaken : ∀ n, (data.take n).length ≤ 65547 := fun n => by rw [List.length_take]; omega
  refine ⟨fun n => ?_, ?_, ?_, ?_, ?_, ?_⟩
  · rw [sum_words]
    exact ⟨checksumAdd_zero (htaken n), wordSum_lt (htaken n)⟩
  · rw [checksumAdd_zero hdata]
    exact foldSum_rounds (wordSum_lt hdata)
  · rw [internetChecksum, checksumAdd_zero hdata, checksumFinish_wordSum]
  · rintro front back rfl hfront sum
    exact checksumAdd_append hfront back sum
  · intro off hoff hzero
    exact internetChecksum_insert hdata hoff hzero
  · intro hver changed hlen i hi v hchanged hv
    exact internetChecksum_change hdata hlen hver hi hchanged hv

/-- A header of zeros filled with its checksum verifies, and no longer once the next word is 1. -/
theorem checksum_laws_zeros : internetChecksum (netWrite16 [0, 0, 0, 0] 0 (internetChecksum [0, 0, 0, 0])) = 0 ∧
    internetChecksum [0xFF, 0xFF, 0, 1] ≠ 0 := by
  have hver : internetChecksum [0xFF, 0xFF, 0, 0] = 0 := by
    rw [internetChecksum, checksumFinish_eq_zero]
    decide
  constructor
  · exact (checksum_laws (show [0, 0, 0, 0].length ≤ 65547 by decide)).2.2.2.2.1 0 rfl rfl
  · exact (checksum_laws (show [0xFF, 0xFF, 0, 0].length ≤ 65547 by decide)).2.2.2.2.2 hver [0xFF, 0xFF, 0, 1] rfl
      1 (by decide) 1 (by decide) (by decide)

end SpectreOS
