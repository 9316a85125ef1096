/-
What is left of a password in the buffers of auth.c once Enter has been handled. `pending_password`
is wiped; the login line is only made empty, so its bytes from the second on stay. Two runs that
differ in the password alone are compared.
-/
import SpectreOS.Console.Gate
import SpectreOS.Console.Accounts

namespace SpectreOS

open BlockIO

/-! ## Keys of the line editor -/

inductive LineKey where
  | character (c : Byte)
  | backspace
  deriving DecidableEq, Repr

/-- The line after a key, as the visitor sees it. -/
def LineKey.edit (line : List Byte) : LineKey → List Byte
  | character c => if printable c ∧ line.length < authPasswordMax then line ++ [c] else line
  | backspace => line.dropLast

def Auth.press (a : Auth) : LineKey → Auth
  | .character c => a.authKeyboardCharacter c
  | .backspace => a.authKeyboardBackspace

def Auth.typeKeys (a : Auth) (keys : List LineKey) : Auth := keys.foldl Auth.press a

/-- Keys that differ in the character typed at most. -/
inductive LineKey.Twin : LineKey → LineKey → Prop
  | character (c₁ c₂ : Byte) : (printable c₁ ↔ printable c₂) → Twin (character c₁) (character c₂)
  | backspace : Twin backspace backspace

/-- As many keys, which differ in the characters typed at most. -/
abbrev Twins : List LineKey → List LineKey → Prop := List.Forall₂ LineKey.Twin

section

variable {a a₁ a₂ : Auth} {l l₁ l₂ : List Byte} {n : Nat}

/-- The login line holds `l`. -/
structure LineIs (a : Auth) (l : List Byte) : Prop where
  text : a.lineBuffer.text = l
  length : l.length = a.lineLength
  max : l.length ≤ authPasswordMax

theorem LineIs.reset (a : Auth) : LineIs a.authResetLine [] :=
  ⟨Block.text_setByte_zero _ (by omega), rfl, Nat.zero_le _⟩

/-- A character that is taken. -/
theorem LineIs.taken (h : LineIs a l) {c : Byte} (hc : printable c) (hroom : l.length < authPasswordMax) :
    (LineKey.character c).edit l = l ++ [c] ∧ a.press (.character c) =
      { a with
        lineBuffer := (a.lineBuffer.setByte l.length c).setByte (l.length + 1) 0
        lineLength := l.length + 1 } := by
  have hlen := h.length
  refine ⟨if_pos ⟨hc, hroom⟩, ?_⟩
  unfold printable at hc
  simp only [Auth.press, Auth.authKeyboardCharacter]
  rw [if_neg (by omega), if_neg (by omega), hlen]

/-- A character that is not. -/
theorem LineIs.ignored (h : LineIs a l) {c : Byte} (hno : ¬ (printable c ∧ l.length < authPasswordMax)) :
    (LineKey.character c).edit l = l ∧ a.press (.character c) = a := by
  have hlen := h.length
  refine ⟨if_neg hno, ?_⟩
  unfold printable at hno
  simp only [Auth.press, Auth.authKeyboardCharacter]
  by_cases hc : c.toInt < 32 ∨ 126 < c.toInt
  · rw [if_pos hc]
  · rw [if_neg hc, if_pos (by omega)]

theorem LineIs.erased (h : LineIs a l) (hne : l ≠ []) :
    a.press .backspace =
      { a with lineBuffer := a.lineBuffer.setByte (l.length - 1) 0, lineLength := l.length - 1 } := by
  have hpos := List.length_pos_iff.2 hne
  have hlen := h.length
  simp only [Auth.press, Auth.authKeyboardBackspace]
  rw [if_neg (by omega), hlen]

theorem LineIs.empty (h : LineIs a []) : a.press .backspace = a :=
  if_pos h.length.symm

theorem LineIs.press (h : LineIs a l) (key : LineKey) : LineIs (a.press key) (key.edit l) := by
  have htext := h.text
  have hmax := h.max
  cases key with
  | character c =>
    by_cases hc : printable c ∧ l.length < authPasswordMax
    · obtain ⟨hedit, hpress⟩ := h.taken hc.1 hc.2
      have h0 : c ≠ 0 := by
        rintro rfl
        exact absurd hc.1.1 (by decide)
      rw [hedit, hpress]
      refine ⟨?_, by simp, by simpa using hc.2⟩
      rw [← htext]
      exact Block.text_append _ h0 (by rw [htext]; omega)
    · obtain ⟨hedit, hpress⟩ := h.ignored hc
      rw [hedit, hpress]
      exact h
  | backspace =>
    by_cases hne : l = []
    · subst hne
      rw [h.empty]
      exact h
    · rw [h.erased hne]
      refine ⟨?_, by simp [LineKey.edit], by simp [LineKey.edit]; omega⟩
      simp only [LineKey.edit, ← htext]
      exact Block.text_dropLast _ (by rw [htext]; exact hne) (by rw [htext]; omega)

theorem LineIs.typeKeys (keys : List LineKey) (h : LineIs a l) :
    LineIs (a.typeKeys keys) (keys.foldl LineKey.edit l) := by
  induction keys generalizing a l with
  | nil => exact h
  | cons key keys ih => exact ih (h.press key)

/-- The two login lines agree from byte `n` on. -/
def AgreeFrom (n : Nat) (a₁ a₂ : Auth) : Prop :=
  ∀ k, n ≤ k → k ≤ authPasswordMax → a₁.lineBuffer.slice 0 k = a₂.lineBuffer.slice 0 k

/-- Typing the like leaves lines of one length, which agree behind their ends and behind `n`. -/
theorem AgreeFrom.press {k₁ k₂ : LineKey} (ht : LineKey.Twin k₁ k₂) (h₁ : LineIs a₁ l₁) (h₂ : LineIs a₂ l₂)
    (hlen : l₁.length = l₂.length) (h : AgreeFrom (max l₁.length n) a₁ a₂) :
    (k₁.edit l₁).length = (k₂.edit l₂).length ∧
      AgreeFrom (max (k₁.edit l₁).length n) (a₁.press k₁) (a₂.press k₂) := by
  have hmax := h₁.max
  cases ht with
  | character c₁ c₂ hp =>
    by_cases hc : printable c₁ ∧ l₁.length < authPasswordMax
    · obtain ⟨hedit₁, hpress₁⟩ := h₁.taken hc.1 hc.2
      obtain ⟨hedit₂, hpress₂⟩ := h₂.taken (hp.1 hc.1) (by rw [← hlen]; exact hc.2)
      rw [hedit₁, hedit₂, hpress₁, hpress₂]
      refine ⟨by simp [hlen], fun k hk hk' => ?_⟩
      rw [List.length_append, List.length_singleton] at hk
      simp only [← hlen, Block.slice_setByte _ _ _ (show k < authPasswordMax + 1 by omega)]
      -- the terminator, and the bytes behind it
      by_cases hend : k = l₁.length + 1
      · rw [if_pos hend, if_pos hend]
      · rw [if_neg hend, if_neg hend, if_neg (by omega), if_neg (by omega)]
        exact h k (by omega) hk'
    · obtain ⟨hedit₁, hpress₁⟩ := h₁.ignored hc
      obtain ⟨hedit₂, hpress₂⟩ := h₂.ignored (c := c₂) (by rw [← hp, ← hlen]; exact hc)
      rw [hedit₁, hedit₂, hpress₁, hpress₂]
      exact ⟨hlen, h⟩
  | backspace =>
    by_cases hne : l₁ = []
    · subst hne
      obtain rfl : l₂ = [] := List.length_eq_zero_iff.1 hlen.symm
      rw [h₁.empty, h₂.empty]
      exact ⟨rfl, h⟩
    · have hne' : l₂ ≠ [] := by
        rintro rfl
        exact hne (List.length_eq_zero_iff.1 hlen)
      rw [h₁.erased hne, h₂.erased hne']
      refine ⟨by simp [LineKey.edit, hlen], fun k hk hk' => ?_⟩
      simp only [LineKey.edit, List.length_dropLast] at hk
      simp only [← hlen, Block.slice_setByte _ _ _ (show k < authPasswordMax + 1 by omega)]
      by_cases hend : k = l₁.length - 1
      · rw [if_pos hend, if_pos hend]
      · rw [if_neg hend, if_neg hend]
        exact h k (by omega) hk'

theorem AgreeFrom.typeKeys {keys₁ keys₂ : List LineKey} (ht : Twins keys₁ keys₂) (h₁ : LineIs a₁ l₁) (h₂ : LineIs a₂ l₂)
    (hlen : l₁.length = l₂.length) (h : AgreeFrom (max l₁.length n) a₁ a₂) :
    (keys₁.foldl LineKey.edit l₁).length = (keys₂.foldl LineKey.edit l₂).length ∧
      AgreeFrom (max (keys₁.foldl LineKey.edit l₁).length n) (a₁.typeKeys keys₁) (a₂.typeKeys keys₂) := by
  induction ht generalizing a₁ a₂ l₁ l₂ with
  | nil => exact ⟨hlen, h⟩
  | cons hk _ ih =>
    obtain ⟨hlen', h'⟩ := AgreeFrom.press hk h₁ h₂ hlen h
    exact ih (h₁.press _) (h₂.press _) hlen' h'

variable {ω : Type} (S : Services ω)

theorem AgreeFrom.reset {b₁ b₂ : Auth} (h : AgreeFrom n a₁ a₂) (h₁ : b₁.lineBuffer = a₁.authResetLine.lineBuffer)
    (h₂ : b₂.lineBuffer = a₂.authResetLine.lineBuffer) : AgreeFrom (max ([] : List Byte).length n) b₁ b₂ := by
  intro k hk hk'
  rw [h₁, h₂]
  simp only [Auth.authResetLine, Block.slice_setByte _ _ _ (show k < authPasswordMax + 1 by omega)]
  split_ifs
  · rfl
  · exact h k (by simpa using hk) hk'

end

/-! ## At the first prompt -/

end SpectreOS
