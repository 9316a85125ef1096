/-
IPv4 addresses as text (shell.c): how the shell prints one, and the parser, which goes over a
NUL-terminated string once. It accepts exactly four groups of digits with a value of at most 255 each,
and reads back what is printed.
-/
import SpectreOS.Console.Terminal
import SpectreOS.Lib.Decimal

namespace SpectreOS

open BlockIO

/-! ## Printing -/

/-- The loop of `shell_write_uint` that fills the buffer, which has room for so many more characters. -/
def fillDigits : Nat → Nat → List Byte → List Byte
  | 0, _, buffer => buffer
  | room + 1, value, buffer =>
    if value > 0 then fillDigits room (value / 10) (buffer ++ [BitVec.ofNat 8 (48 + value % 10)]) else buffer

def shellWriteUint (t : Terminal) (value : BitVec 32) : Terminal :=
  if value.toNat = 0 then terminalPutchar t 0x30
  else (fillDigits 11 value.toNat []).reverse.foldl terminalPutchar t

def shellWriteIp (t : Terminal) (ip : BitVec 32) : Terminal :=
  let t := shellWriteUint t (ip >>> 24 &&& 0xFF)
  let t := terminalWrite t [0x2E]
  let t := shellWriteUint t (ip >>> 16 &&& 0xFF)
  let t := terminalWrite t [0x2E]
  let t := shellWriteUint t (ip >>> 8 &&& 0xFF)
  let t := terminalWrite t [0x2E]
  shellWriteUint t (ip &&& 0xFF)

/-! ## Parsing -/

/-- A result of 32-bit arithmetic that has not passed 32 bits. -/
def exact32 (n : Nat) : Option Nat := if n < 2 ^ 32 then some n else none

def netMakeIp (a b c d : Byte) : BitVec 32 :=
  a.setWidth 32 <<< 24 ||| b.setWidth 32 <<< 16 ||| c.setWidth 32 <<< 8 ||| d.setWidth 32

/-- The loop of `shell_parse_ip`, with `octet_index` octets read; `some none` is its `return 0`. It is
`none` when the loop has not ended in the given number of rounds, or `value` has passed 32 bits. -/
def parseIpLoop (text : BitVec 32 → Byte) : Nat → BitVec 32 → List Nat → Nat → Bool → Option (Option (List Nat))
  | 0, _, _, _, _ => none
  | fuel + 1, i, octets, value, haveDigit =>
    let c := text i
    if 48 ≤ c.toInt ∧ c.toInt ≤ 57 then do
      let value ← exact32 (value * 10 + (c.toNat - 48))
      if value > 255 then return none else parseIpLoop text fuel (i + 1) octets value true
    else if c = 0x2E ∨ c = 0 then
      if haveDigit = false ∨ octets.length ≥ 4 then return none
      else if c = 0 then return some (octets ++ [value])
      else parseIpLoop text fuel (i + 1) (octets ++ [value]) 0 false
    else return none

/-- `shell_parse_ip`: what it returns, and `*out_ip` after it. -/
def shellParseIp (fuel : Nat) (text : BitVec 32 → Byte) (outIp : BitVec 32) : Option (Bool × BitVec 32) := do
  match ← parseIpLoop text fuel 0 [] 0 false with
  | some [a, b, c, d] =>
    return (true, netMakeIp (BitVec.ofNat 8 a) (BitVec.ofNat 8 b) (BitVec.ofNat 8 c) (BitVec.ofNat 8 d))
  | _ => return (false, outIp)

/-! ## Dotted quads -/

/-- The NUL-terminated string at `i`. -/
def Spells (text : BitVec 32 → Byte) (i : BitVec 32) : List Byte → Prop
  | [] => text i = 0
  | c :: s => c ≠ 0 ∧ text i = c ∧ Spells text (i + 1) s

instance decidableSpells (text : BitVec 32 → Byte) : ∀ i s, Decidable (Spells text i s)
  | i, [] => inferInstanceAs (Decidable (text i = 0))
  | i, c :: s =>
    have := decidableSpells text (i + 1) s
    inferInstanceAs (Decidable (c ≠ 0 ∧ text i = c ∧ Spells text (i + 1) s))

/-- A group of digits, with any number of leading zeros, of a value that fits a byte. -/
def IsOctet (g : List Byte) : Prop := IsNumeral g ∧ decimalValue g ≤ 255

instance (g : List Byte) : Decidable (IsOctet g) := inferInstanceAs (Decidable (_ ∧ _))

/-- Exactly four groups, with dots between them. -/
def IsDottedQuad (s : List Byte) : Prop := (s.splitOn 0x2E).length = 4 ∧ ∀ g ∈ s.splitOn 0x2E, IsOctet g

instance (s : List Byte) : Decidable (IsDottedQuad s) := inferInstanceAs (Decidable (_ ∧ _))

/-- The values of the groups as the digits of a number to base 256, the first the most significant. -/
def quadValue (s : List Byte) : Nat := Nat.ofDigits 256 ((s.splitOn 0x2E).map decimalValue).reverse

/-! ## The parser -/

section Parse

variable {text : BitVec 32 → Byte} {i : BitVec 32} {g r : List Byte} {octets : List Nat}

theorem isDigit_iff (c : Byte) : (48 ≤ c.toInt ∧ c.toInt ≤ 57) ↔ IsDigit c := by
  unfold IsDigit
  have := c.isLt
  rw [BitVec.toInt_eq_toNat_cond]
  split <;> omega

theorem not_dot_of_digits (hg : ∀ c ∈ g, IsDigit c) : (0x2E : Byte) ∉ g := fun h => absurd (hg _ h) (by decide)

/-- After the octets read before, the groups complete a quad so far as the loop can tell. -/
def Completes (octets : List Nat) (groups : List (List Byte)) : Prop :=
  octets.length + groups.length ≤ 4 ∧ ∀ g ∈ groups, IsOctet g

instance (octets : List Nat) (groups : List (List Byte)) : Decidable (Completes octets groups) :=
  inferInstanceAs (Decidable (_ ∧ _))

theorem completes_cons {groups : List (List Byte)} :
    Completes octets (g :: groups) ↔ octets.length < 4 ∧ IsOctet g ∧ Completes (octets ++ [decimalValue g]) groups := by
  unfold Completes
  rw [List.forall_mem_cons, List.length_append, List.length_cons, List.length_singleton]
  constructor
  · rintro ⟨hlen, hg, hall⟩
    exact ⟨by omega, hg, by omega, hall⟩
  · rintro ⟨-, hg, hlen, hall⟩
    exact ⟨by omega, hg, hall⟩

/-- The first group goes on from what has been read of it. -/
theorem splitOn_read (hg : (0x2E : Byte) ∉ g) (r : List Byte) :
    ∃ first rest, (g ++ r).splitOn 0x2E = (g ++ first) :: rest := by
  rw [splitOn_append hg]
  cases hr : r.splitOn 0x2E with
  | nil => exact absurd hr (List.splitOn_ne_nil _ _)
  | cons first rest => exact ⟨first, rest, rfl⟩

/-- Where the digits read so far are no group, or one too many, the loop fails at their end. -/
theorem parseIpLoop_stops (octets : List Nat) (hg : ∀ c ∈ g, IsDigit c) (hv : decimalValue g ≤ 255) :
    ((!g.isEmpty) = false ∨ octets.length ≥ 4) ↔ ¬(octets.length < 4 ∧ IsOctet g) := by
  have hoctet : IsOctet g ↔ g ≠ [] := ⟨fun h => h.1.1, fun h => ⟨⟨h, hg⟩, hv⟩⟩
  rw [hoctet, Bool.not_eq_false', List.isEmpty_iff, not_and_or, not_ne_iff, not_lt, or_comm]

/-- Digits already above 255 stay above it, whatever follows. -/
theorem not_completes_of_big (hg : ∀ c ∈ g, IsDigit c) (hbig : 255 < decimalValue g) (r : List Byte) :
    ¬ Completes octets ((g ++ r).splitOn 0x2E) := by
  obtain ⟨first, rest, hsplit⟩ := splitOn_read (not_dot_of_digits hg) r
  rw [hsplit]
  intro h
  have hfits := (completes_cons.1 h).2.1.2
  have := decimalValue_le_append g first
  omega

/-- A character that is neither a digit nor a dot leaves its group no octet. -/
theorem not_completes_of_other (hg : ∀ c ∈ g, IsDigit c) {c : Byte} (hdigit : ¬ IsDigit c) (hdot : c ≠ 0x2E)
    (r : List Byte) : ¬ Completes octets ((g ++ [c] ++ r).splitOn 0x2E) := by
  have hnot : (0x2E : Byte) ∉ g ++ [c] := by
    rw [List.mem_append, List.mem_singleton, not_or]
    exact ⟨not_dot_of_digits hg, Ne.symm hdot⟩
  obtain ⟨first, rest, hsplit⟩ := splitOn_read hnot r
  rw [hsplit]
  intro h
  exact hdigit ((completes_cons.1 h).2.1.1.2 c (by simp))

/-- From a group of which `g` has been read, the loop ends with the octets of the groups, or fails where
they are too many or one of them is none. -/
theorem parseIpLoop_eq (hs : Spells text i r) (hg : ∀ c ∈ g, IsDigit c) (hv : decimalValue g ≤ 255) {fuel : Nat}
    (hf : r.length < fuel) :
    parseIpLoop text fuel i octets (decimalValue g) (!g.isEmpty) =
      some (if Completes octets ((g ++ r).splitOn 0x2E) then some (octets ++ ((g ++ r).splitOn 0x2E).map decimalValue)
        else none) := by
  induction r generalizing i g octets fuel with
  | nil =>
    obtain ⟨fuel, rfl⟩ : ∃ n, fuel = n + 1 := ⟨fuel - 1, by omega⟩
    have hstop := parseIpLoop_stops octets hg hv
    rw [parseIpLoop, show text i = 0 from hs, List.append_nil, List.splitOn_eq_singleton (not_dot_of_digits hg),
      if_neg (by decide), if_pos (.inr rfl)]
    by_cases h : octets.length < 4 ∧ IsOctet g
    · rw [if_neg (fun hn => hstop.1 hn h), if_pos rfl, if_pos (completes_cons.2 ⟨h.1, h.2, ?_⟩)]
      · rfl
      · exact ⟨by simp only [List.length_append, List.length_singleton, List.length_nil]; omega, by simp⟩
    · rw [if_pos (hstop.2 h), if_neg fun hc => h ⟨(completes_cons.1 hc).1, (completes_cons.1 hc).2.1⟩]
      rfl
  | cons c r ih =>
    obtain ⟨fuel, rfl⟩ : ∃ n, fuel = n + 1 := ⟨fuel - 1, by omega⟩
    obtain ⟨hc, htext, hs⟩ := hs
    have hlen : r.length < fuel := by simpa using hf
    have hread : g ++ c :: r = g ++ [c] ++ r := List.append_cons ..
    rw [parseIpLoop, htext]
    by_cases hdigit : 48 ≤ c.toInt ∧ c.toInt ≤ 57
    · have hd := (isDigit_iff c).1 hdigit
      have hgc : ∀ x ∈ g ++ [c], IsDigit x := by
        intro x hx
        rcases List.mem_append.1 hx with hx | hx
        · exact hg x hx
        · exact List.mem_singleton.1 hx ▸ hd
      have hexact : exact32 (decimalValue g * 10 + (c.toNat - 48)) = some (decimalValue (g ++ [c])) := by
        have := c.isLt
        rw [decimalValue_concat, exact32, if_pos (by omega)]
      rw [if_pos hdigit, hexact, hread]
      by_cases hbig : decimalValue (g ++ [c]) > 255
      · rw [if_neg (not_completes_of_big hgc hbig r)]
        exact if_pos hbig
      · have hstep := @ih (i + 1) (g ++ [c]) octets hs hgc (by omega) fuel hlen
        rw [← hstep]
        have hdone : (!(g ++ [c]).isEmpty) = true := by simp
        rw [hdone]
        exact if_neg hbig
    · have hnd : ¬ IsDigit c := fun h => hdigit ((isDigit_iff c).2 h)
      rw [if_neg hdigit]
      by_cases hdot : c = 0x2E
      · subst hdot
        have hstop := parseIpLoop_stops octets hg hv
        rw [if_pos (.inl rfl), List.splitOn_append_cons_self_of_not_mem (not_dot_of_digits hg)]
        by_cases h : octets.length < 4 ∧ IsOctet g
        · have hstep := @ih (i + 1) [] (octets ++ [decimalValue g]) hs (by simp) (by decide) fuel hlen
          rw [if_neg (fun hn => hstop.1 hn h), if_neg hc]
          have hrest : Completes (octets ++ [decimalValue g]) (r.splitOn 0x2E) ↔
            Completes octets (g :: r.splitOn 0x2E) :=
            ⟨fun hc => completes_cons.2 ⟨h.1, h.2, hc⟩, fun hc => (completes_cons.1 hc).2.2⟩
          refine hstep.trans (congrArg some (if_congr hrest ?_ rfl))
          exact congrArg some (List.append_cons ..).symm
        · rw [if_pos (hstop.2 h), if_neg fun hcomp => h ⟨(completes_cons.1 hcomp).1, (completes_cons.1 hcomp).2.1⟩]
          rfl
      · rw [if_neg (by rintro (h | h) <;> contradiction), hread, if_neg (not_completes_of_other hg hnd hdot r)]
        rfl

/-! ## shell_parse_ip -/

/-- Four bytes are the digits of their address to base 256; what passes a byte in the first is lost in both. -/
theorem netMakeIp_eq {a b c d : Nat} (hb : b ≤ 255) (hc : c ≤ 255) (hd : d ≤ 255) :
    netMakeIp (BitVec.ofNat 8 a) (BitVec.ofNat 8 b) (BitVec.ofNat 8 c) (BitVec.ofNat 8 d) =
      BitVec.ofNat 32 (Nat.ofDigits 256 [a, b, c, d].reverse) := by
  have hval : Nat.ofDigits 256 [a, b, c, d].reverse = ((a * 256 + b) * 256 + c) * 256 + d := by
    simp [Nat.ofDigits_cons]
    ring
  rw [netMakeIp, or_shifts, hval]
  refine BitVec.eq_of_toNat_eq ?_
  have hshift : ∀ {w : Nat} (x : BitVec w) (y : Byte), (x ++ y).toNat = x.toNat * 256 + y.toNat := fun x y => by
    rw [BitVec.toNat_append, ← Nat.shiftLeft_add_eq_or_of_lt y.isLt, Nat.shiftLeft_eq]
  rw [hshift, hshift, hshift, BitVec.toNat_ofNat, BitVec.toNat_ofNat, BitVec.toNat_ofNat, BitVec.toNat_ofNat,
    BitVec.toNat_ofNat]
  omega

theorem shellParseIp_eq {s : List Byte} (hs : Spells text 0 s) {fuel : Nat} (hf : s.length < fuel) (outIp : BitVec 32) :
    shellParseIp fuel text outIp =
      some (if IsDottedQuad s then (true, BitVec.ofNat 32 (quadValue s)) else (false, outIp)) := by
  have hloop : parseIpLoop text fuel 0 [] 0 false =
      some (if Completes [] (s.splitOn 0x2E) then some ((s.splitOn 0x2E).map decimalValue) else none) :=
    parseIpLoop_eq (g := []) hs (by simp) (by decide) hf
  rw [shellParseIp, hloop]
  by_cases hquad : IsDottedQuad s
  · obtain ⟨hlen, hall⟩ := id hquad
    rw [if_pos hquad, if_pos ⟨(Nat.zero_add _).trans_le hlen.le, hall⟩, quadValue]
    obtain ⟨w, x, y, z, hsplit⟩ := List.length_eq_four.1 hlen
    rw [hsplit] at hall ⊢
    simp only [List.forall_mem_cons] at hall
    obtain ⟨-, hx, hy, hz, -⟩ := hall
    exact congrArg (fun ip => some (true, ip)) (netMakeIp_eq hx.2 hy.2 hz.2)
  · rw [if_neg hquad]
    by_cases hcomp : Completes [] (s.splitOn 0x2E)
    · have hlen : ((s.splitOn 0x2E).map decimalValue).length ≠ 4 := fun h =>
        hquad ⟨by rwa [List.length_map] at h, hcomp.2⟩
      rw [if_pos hcomp]
      generalize (s.splitOn 0x2E).map decimalValue = octets at hlen
      rcases octets with _ | ⟨a, _ | ⟨b, _ | ⟨c, _ | ⟨d, _ | ⟨e, rest⟩⟩⟩⟩⟩
      case cons.cons.cons.cons.nil => exact absurd rfl hlen
      all_goals rfl
    · rw [if_neg hcomp]
      rfl

/-- A string ends before the addresses do, so that the index of the loop does not wrap. -/
theorem Spells.length_lt {s : List Byte} (hs : Spells text i s) : s.length < 2 ^ 32 := by
  have hchars : ∀ (s : List Byte) (i : BitVec 32), Spells text i s →
      (∀ k < s.length, text (i + BitVec.ofNat 32 k) ≠ 0) ∧ text (i + BitVec.ofNat 32 s.length) = 0 := by
    intro s
    induction s with
    | nil =>
      intro i hs
      refine ⟨fun k hk => absurd hk (Nat.not_lt_zero k), ?_⟩
      rw [List.length_nil, BitVec.add_zero]
      exact hs
    | cons c s ih =>
      rintro i ⟨hc, htext, hs⟩
      obtain ⟨hbefore, hend⟩ := ih (i + 1) hs
      have hshift : ∀ k, i + BitVec.ofNat 32 (k + 1) = i + 1 + BitVec.ofNat 32 k := fun k => by
        rw [Nat.add_comm k 1, BitVec.ofNat_add, BitVec.add_assoc]
        rfl
      refine ⟨fun k hk => ?_, by rw [List.length_cons, hshift, hend]⟩
      cases k with
      | zero => rwa [BitVec.add_zero, htext]
      | succ k =>
        rw [hshift]
        exact hbefore k (by simpa using hk)
  obtain ⟨hbefore, hend⟩ := hchars s i hs
  by_contra hlen
  obtain ⟨k, hk⟩ := Nat.exists_eq_add_of_le (not_lt.1 hlen)
  have hwrap : BitVec.ofNat 32 s.length = BitVec.ofNat 32 k := by
    refine BitVec.eq_of_toNat_eq ?_
    rw [BitVec.toNat_ofNat, BitVec.toNat_ofNat, hk, Nat.add_mod_left]
  rw [hwrap] at hend
  exact hbefore k (by omega) hend

end Parse

/-! ## What is printed -/

theorem terminalUpdateCursor_serial (t : Terminal) : (terminalUpdateCursor t).serial = t.serial := rfl

theorem nextLine_serial (t : Terminal) : (nextLine t).serial = t.serial := by
  unfold nextLine
  dsimp only
  split <;> rfl

theorem terminalPutchar_serial (t : Terminal) (c : Byte) : (terminalPutchar t c).serial = t.serial ++ [c] := by
  unfold terminalPutchar
  dsimp only
  split
  · rw [terminalUpdateCursor_serial, nextLine_serial]
  · split
    · rfl
    · split
      · rw [terminalUpdateCursor_serial]
        split <;> rfl
      · rw [terminalUpdateCursor_serial]
        split
        · rw [nextLine_serial]
        · rfl

theorem foldl_terminalPutchar_serial (t : Terminal) (l : List Byte) :
    (l.foldl terminalPutchar t).serial = t.serial ++ l := by
  induction l generalizing t with
  | nil => exact (List.append_nil _).symm
  | cons c l ih => rw [List.foldl_cons, ih, terminalPutchar_serial, List.append_assoc, List.singleton_append]

/-- The buffer has room for the digits of any 32-bit number. -/
theorem fillDigits_eq {room value : Nat} (h : value < 10 ^ room) (buffer : List Byte) :
    fillDigits room value buffer = buffer ++ digitText value := by
  induction room generalizing value buffer with
  | zero =>
    obtain rfl : value = 0 := by simpa using h
    exact (List.append_nil _).symm
  | succ room ih =>
    rw [fillDigits]
    by_cases hpos : value > 0
    · rw [if_pos hpos, ih (by rw [pow_succ] at h; omega), digitText_step hpos, List.append_assoc, List.singleton_append]
    · obtain rfl : value = 0 := by omega
      rw [if_neg hpos]
      exact (List.append_nil _).symm

theorem shellWriteUint_serial (t : Terminal) (value : BitVec 32) :
    (shellWriteUint t value).serial = t.serial ++ decimalText value.toNat := by
  unfold shellWriteUint decimalText
  split
  · exact terminalPutchar_serial t 0x30
  · have hlt : value.toNat < 10 ^ 11 := by
      have := value.isLt
      omega
    rw [foldl_terminalPutchar_serial, fillDigits_eq hlt, List.nil_append]

/-- The octets of an address, the first the most significant. -/
def ipOctets (ip : BitVec 32) : List Nat :=
  [(ip >>> 24 &&& 0xFF).toNat, (ip >>> 16 &&& 0xFF).toNat, (ip >>> 8 &&& 0xFF).toNat, (ip &&& 0xFF).toNat]

def ipText (ip : BitVec 32) : List Byte := [0x2E].intercalate ((ipOctets ip).map decimalText)

theorem shellWriteIp_serial (t : Terminal) (ip : BitVec 32) : (shellWriteIp t ip).serial = t.serial ++ ipText ip := by
  have hdot : ∀ t : Terminal, (terminalWrite t [0x2E]).serial = t.serial ++ [0x2E] :=
    fun t => terminalPutchar_serial t 0x2E
  simp only [shellWriteIp, shellWriteUint_serial, hdot, List.append_assoc]
  simp only [ipText, ipOctets, List.map_cons, List.map_nil, List.intercalate_cons_cons, List.intercalate_singleton,
    List.append_assoc]

theorem ipText_octets (ip : BitVec 32) : (ipText ip).splitOn 0x2E = (ipOctets ip).map decimalText := by
  refine List.splitOn_intercalate _ (fun l hl => ?_) (by simp [ipOctets])
  obtain ⟨n, -, rfl⟩ := List.mem_map.1 hl
  exact not_dot_of_digits (isNumeral_decimalText n).2

theorem toNat_octet (ip : BitVec 32) (k : Nat) : (ip >>> k &&& 0xFF).toNat = ip.toNat / 2 ^ k % 256 := by
  rw [BitVec.toNat_and, BitVec.toNat_ushiftRight, Nat.shiftRight_eq_div_pow]
  exact Nat.and_two_pow_sub_one_eq_mod _ 8

theorem ipText_dottedQuad (ip : BitVec 32) : IsDottedQuad (ipText ip) ∧ quadValue (ipText ip) = ip.toNat := by
  have hlow : (ip &&& 0xFF).toNat = ip.toNat / 2 ^ 0 % 256 := toNat_octet ip 0
  unfold IsDottedQuad quadValue
  rw [ipText_octets]
  refine ⟨⟨rfl, fun g hg => ?_⟩, ?_⟩
  · obtain ⟨n, hn, rfl⟩ := List.mem_map.1 hg
    refine ⟨isNumeral_decimalText n, ?_⟩
    rw [decimalValue_decimalText]
    simp only [ipOctets, toNat_octet, hlow, List.mem_cons, List.not_mem_nil, or_false] at hn
    omega
  · have hval : ∀ a b c d : Nat, Nat.ofDigits 256 [d, c, b, a] = ((a * 256 + b) * 256 + c) * 256 + d :=
        fun a b c d => by
      simp [Nat.ofDigits_cons]
      ring
    have hlt := ip.isLt
    simp only [ipOctets, List.map_cons, List.map_nil, decimalValue_decimalText, toNat_octet, hlow, List.reverse_cons,
      List.reverse_nil, List.nil_append, List.cons_append, hval]
    omega

/-- `shell_parse_ip` ends on every string, and none of its sums passes 32 bits. It accepts the dotted
quads, each for its address, and those that the shell prints are read back. -/
theorem shellParseIp_exact :
    (∀ text s, Spells text 0 s → ∀ fuel, s.length < fuel → ∀ outIp, s.length < 2 ^ 32 ∧
      ∃ ok ip, shellParseIp fuel text outIp = some (ok, ip) ∧ (ok = true ↔ IsDottedQuad s) ∧
        (ok = true → ip = BitVec.ofNat 32 (quadValue s)) ∧ (ok = false → ip = outIp)) ∧
    ∀ t ip, ∃ printed, (shellWriteIp t ip).serial = t.serial ++ printed ∧
      ∀ text, Spells text 0 printed → ∀ fuel, printed.length < fuel → ∀ outIp,
        shellParseIp fuel text outIp = some (true, ip) := by
  refine ⟨fun text s hs fuel hf outIp => ⟨hs.length_lt, ?_⟩, fun t ip => ⟨ipText ip, shellWriteIp_serial t ip, ?_⟩⟩
  · rw [shellParseIp_eq hs hf]
    by_cases hquad : IsDottedQuad s
    · rw [if_pos hquad]
      exact ⟨true, _, rfl, by simp [hquad], fun _ => rfl, by simp⟩
    · rw [if_neg hquad]
      exact ⟨false, _, rfl, by simp [hquad], by simp, fun _ => rfl⟩
  · intro text hs fuel hf outIp
    obtain ⟨hquad, hval⟩ := ipText_dottedQuad ip
    rw [shellParseIp_eq hs hf, if_pos hquad, hval, BitVec.ofNat_toNat, BitVec.setWidth_eq]

/-- `10.0.0.1`. -/
def gatewayText : List Byte := [0x31, 0x30, 0x2E, 0x30, 0x2E, 0x30, 0x2E, 0x31]

theorem shellParseIp_exact_gateway :
    shellParseIp 9 (fun i => gatewayText.getD i.toNat 0) 0 = some (true, 0x0A000001) := by
  obtain ⟨-, ok, ip, hparse, hok, hip, -⟩ :=
    shellParseIp_exact.1 (fun i => gatewayText.getD i.toNat 0) gatewayText (by decide) 9 (by decide) 0
  have htrue : ok = true := hok.2 (by decide)
  have hvalue : BitVec.ofNat 32 (quadValue gatewayText) = 0x0A000001 := by decide
  rw [hparse, htrue, hip htrue, hvalue]

end SpectreOS
