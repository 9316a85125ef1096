/-
Weakest preconditions for block programs. An interface says which requests a program may make in
a ghost state and how the device may answer them; `wp` is the precondition under which a program
makes only such requests and ends in the postcondition, whatever the answers. A device that keeps
to the interface then runs the program so (`wp_sound`), and two devices that keep to it together
run it alike (`wp_sound₂`).
-/
import SpectreOS.Lib.Prog

namespace BlockIO

/-- What a program may ask in a ghost state `γ`, and the answers (with the next ghost state) it
has to expect. -/
structure Iface (γ β : Type) where
  readPre : γ → Nat → Prop
  readPost : γ → Nat → Option β → γ → Prop
  writePre : γ → Nat → β → Prop
  writePost : γ → Nat → β → Bool → γ → Prop

namespace Prog

variable {σ β γ α α' ι : Type} (I : Iface γ β)

def wp : Prog σ β α → (α → γ → σ → Prop) → γ → σ → Prop
  | ret a, Q, g, s => Q a g s
  | get k, Q, g, s => (k s).wp Q g s
  | put s' k, Q, g, _ => k.wp Q g s'
  | read lba k, Q, g, s => I.readPre g lba ∧ ∀ r g', I.readPost g lba r g' → (k r).wp Q g' s
  | write lba b k, Q, g, s =>
    I.writePre g lba b ∧ ∀ ok g', I.writePost g lba b ok g' → (k ok).wp Q g' s

variable {I}

theorem wp.mono {p : Prog σ β α} {Q R : α → γ → σ → Prop} {g : γ} {s : σ} (h : p.wp I Q g s)
    (hQR : ∀ a g s, Q a g s → R a g s) : p.wp I R g s := by
  induction p generalizing g s with
  | ret a => exact hQR _ _ _ h
  | get k ih => exact ih _ h
  | put s' k ih => exact ih h
  | read lba k ih => exact ⟨h.1, fun r g' hr => ih r (h.2 r g' hr)⟩
  | write lba b k ih => exact ⟨h.1, fun ok g' hw => ih ok (h.2 ok g' hw)⟩

/-- Two specifications of a program. -/
theorem wp.and {p : Prog σ β α} {Q R : α → γ → σ → Prop} {g : γ} {s : σ} (hQ : p.wp I Q g s) (hR : p.wp I R g s) :
    p.wp I (fun a g s => Q a g s ∧ R a g s) g s := by
  induction p generalizing g s with
  | ret a => exact ⟨hQ, hR⟩
  | get k ih => exact ih _ hQ hR
  | put s' k ih => exact ih hQ hR
  | read lba k ih => exact ⟨hQ.1, fun r g' hr => ih r (hQ.2 r g' hr) (hR.2 r g' hr)⟩
  | write lba b k ih => exact ⟨hQ.1, fun ok g' hw => ih ok (hQ.2 ok g' hw) (hR.2 ok g' hw)⟩

@[simp] theorem wp_pure (a : α) (Q : α → γ → σ → Prop) (g : γ) (s : σ) :
    wp I (pure a : Prog σ β α) Q g s ↔ Q a g s := Iff.rfl

@[simp] theorem wp_bind (p : Prog σ β α) (f : α → Prog σ β α') (Q : α' → γ → σ → Prop) (g : γ) (s : σ) :
    wp I (p >>= f) Q g s ↔ wp I p (fun a g s => wp I (f a) Q g s) g s := by
  show wp I (p.bind f) Q g s ↔ _
  induction p generalizing g s with
  | ret a => exact Iff.rfl
  | get k ih => exact ih _ g s
  | put s' k ih => exact ih g s'
  | read lba k ih => exact and_congr Iff.rfl (forall₃_congr fun r g' _ => ih r g' s)
  | write lba b k ih => exact and_congr Iff.rfl (forall₃_congr fun ok g' _ => ih ok g' s)

@[simp] theorem wp_load (Q : σ → γ → σ → Prop) (g : γ) (s : σ) :
    wp I (load : Prog σ β σ) Q g s ↔ Q s g s := Iff.rfl

@[simp] theorem wp_modify (f : σ → σ) (Q : Unit → γ → σ → Prop) (g : γ) (s : σ) :
    wp I (modify f : Prog σ β Unit) Q g s ↔ Q () g (f s) := Iff.rfl

@[simp] theorem wp_readBlock (lba : Nat) (Q : Option β → γ → σ → Prop) (g : γ) (s : σ) :
    wp I (readBlock lba : Prog σ β _) Q g s ↔
      I.readPre g lba ∧ ∀ r g', I.readPost g lba r g' → Q r g' s := Iff.rfl

@[simp] theorem wp_writeBlock (lba : Nat) (b : β) (Q : Bool → γ → σ → Prop) (g : γ) (s : σ) :
    wp I (writeBlock lba b : Prog σ β _) Q g s ↔
      I.writePre g lba b ∧ ∀ ok g', I.writePost g lba b ok g' → Q ok g' s := Iff.rfl

/-- Sequencing through a known specification of the first program. -/
theorem wp.seq {p : Prog σ β α} {f : α → Prog σ β α'} {Q : α → γ → σ → Prop} {R : α' → γ → σ → Prop}
    {g : γ} {s : σ} (h : p.wp I Q g s) (hf : ∀ a g s, Q a g s → (f a).wp I R g s) :
    (p >>= f).wp I R g s :=
  (wp_bind p f R g s).2 (h.mono hf)

/-! ## Loops over a list -/

/-- A loop that stops at the first `false`: the invariant is indexed by the processed prefix and
holds of it when every body so far answered `true`. -/
theorem wp_allM {f : ι → Prog σ β Bool} {J : List ι → γ → σ → Prop} {Q : Bool → γ → σ → Prop}
    (l : List ι) {g : γ} {s : σ} (hJ : J [] g s)
    (hf : ∀ pre x post g s, l = pre ++ x :: post → J pre g s →
      (f x).wp I (fun ok g s => if ok then J (pre ++ [x]) g s else Q false g s) g s)
    (hQ : ∀ g s, J l g s → Q true g s) : (l.allM f).wp I Q g s := by
  suffices h : ∀ rest pre g s, l = pre ++ rest → J pre g s → (rest.allM f).wp I Q g s from h l [] g s rfl hJ
  intro rest
  induction rest with
  | nil =>
    intro pre g s hl hJ
    rw [List.append_nil] at hl
    exact hQ g s (hl ▸ hJ)
  | cons x rest ih =>
    intro pre g s hl hJ
    rw [List.allM]
    refine (hf pre x rest g s hl hJ).seq fun ok g' s' h => ?_
    cases ok with
    | false => exact h
    | true => exact ih (pre ++ [x]) g' s' (by simpa using hl) h

/-- A search that stops at the first `some`. -/
theorem wp_findSomeM {f : ι → Prog σ β (Option α)} {J : List ι → γ → σ → Prop}
    {Q : Option α → γ → σ → Prop} (l : List ι) {g : γ} {s : σ} (hJ : J [] g s)
    (hf : ∀ pre x post g s, l = pre ++ x :: post → J pre g s →
      (f x).wp I (fun r g s => r.elim (J (pre ++ [x]) g s) fun a => Q (some a) g s) g s)
    (hQ : ∀ g s, J l g s → Q none g s) : (l.findSomeM? f).wp I Q g s := by
  suffices h : ∀ rest pre g s, l = pre ++ rest → J pre g s → (rest.findSomeM? f).wp I Q g s from
    h l [] g s rfl hJ
  intro rest
  induction rest with
  | nil =>
    intro pre g s hl hJ
    rw [List.append_nil] at hl
    exact hQ g s (hl ▸ hJ)
  | cons x rest ih =>
    intro pre g s hl hJ
    rw [List.findSomeM?]
    refine (hf pre x rest g s hl hJ).seq fun r g' s' h => ?_
    cases r with
    | some a => exact h
    | none => exact ih (pre ++ [x]) g' s' (by simpa using hl) h

/-- The prefix of a range before an element. -/
theorem range_split {n x : Nat} {pre post : List Nat} (h : List.range n = pre ++ x :: post) :
    pre = List.range x ∧ x < n := by
  have hlen : pre.length < n := by
    have := congrArg List.length h
    simp at this; omega
  have hx : x = pre.length := by
    have h1 : (List.range n)[pre.length]? = some x := by rw [h]; simp
    rw [List.getElem?_range hlen] at h1
    exact (Option.some.inj h1).symm
  have hpre : pre = (List.range n).take pre.length := by rw [h]; simp
  refine ⟨?_, by omega⟩
  rw [hpre, hx, List.take_range, Nat.min_eq_left (by omega)]

/-! ## Soundness -/

/-- Two devices keep to the interface together: related states answer a permitted request alike,
as the interface allows, and stay related. -/
structure Models₂ {δ ε : Type} (I : Iface γ β) (D : Device δ β) (E : Device ε β) (R : γ → δ → ε → Prop) :
    Prop where
  read : ∀ g d e lba, R g d e → I.readPre g lba → (D.read d lba).1 = (E.read e lba).1 ∧
    ∃ g', I.readPost g lba (D.read d lba).1 g' ∧ R g' (D.read d lba).2 (E.read e lba).2
  write : ∀ g d e lba b, R g d e → I.writePre g lba b → (D.write d lba b).1 = (E.write e lba b).1 ∧
    ∃ g', I.writePost g lba b (D.write d lba b).1 g' ∧ R g' (D.write d lba b).2 (E.write e lba b).2

theorem wp_sound₂ {δ ε : Type} {D : Device δ β} {E : Device ε β} {R : γ → δ → ε → Prop}
    (M : Models₂ I D E R) (p : Prog σ β α) {Q : α → γ → σ → Prop} {g : γ} {s : σ} {d : δ} {e : ε}
    (h : p.wp I Q g s) (hR : R g d e) :
    (run D p ⟨s, d⟩).1 = (run E p ⟨s, e⟩).1 ∧ (run D p ⟨s, d⟩).2.mem = (run E p ⟨s, e⟩).2.mem ∧
      ∃ g', Q (run D p ⟨s, d⟩).1 g' (run D p ⟨s, d⟩).2.mem ∧
        R g' (run D p ⟨s, d⟩).2.dev (run E p ⟨s, e⟩).2.dev := by
  induction p generalizing g s d e with
  | ret a => exact ⟨rfl, rfl, g, h, hR⟩
  | get k ih => exact ih s h hR
  | put s' k ih => exact ih h hR
  | read lba k ih =>
    obtain ⟨h1, g', h2, h3⟩ := M.read g d e lba hR h.1
    have := ih (D.read d lba).1 (h.2 _ g' h2) h3
    simp only [run]
    rw [← h1]
    exact this
  | write lba b k ih =>
    obtain ⟨h1, g', h2, h3⟩ := M.write g d e lba b hR h.1
    have := ih (D.write d lba b).1 (h.2 _ g' h2) h3
    simp only [run]
    rw [← h1]
    exact this

/-- A device keeps to the interface. -/
structure Models {δ : Type} (I : Iface γ β) (D : Device δ β) (R : γ → δ → Prop) : Prop where
  read : ∀ g d lba, R g d → I.readPre g lba →
    ∃ g', I.readPost g lba (D.read d lba).1 g' ∧ R g' (D.read d lba).2
  write : ∀ g d lba b, R g d → I.writePre g lba b →
    ∃ g', I.writePost g lba b (D.write d lba b).1 g' ∧ R g' (D.write d lba b).2

theorem wp_sound {δ : Type} {D : Device δ β} {R : γ → δ → Prop} (M : Models I D R) (p : Prog σ β α)
    {Q : α → γ → σ → Prop} {g : γ} {c : Conf σ δ} (h : p.wp I Q g c.mem) (hR : R g c.dev) :
    ∃ g', Q (run D p c).1 g' (run D p c).2.mem ∧ R g' (run D p c).2.dev := by
  have M₂ : Models₂ I D D fun g d e => R g d ∧ d = e := by
    constructor
    · rintro g d e lba ⟨hd, rfl⟩ hp
      obtain ⟨g', h1, h2⟩ := M.read g d lba hd hp
      exact ⟨rfl, g', h1, h2, rfl⟩
    · rintro g d e lba b ⟨hd, rfl⟩ hp
      obtain ⟨g', h1, h2⟩ := M.write g d lba b hd hp
      exact ⟨rfl, g', h1, h2, rfl⟩
  obtain ⟨-, -, g', h1, h2, -⟩ := wp_sound₂ M₂ p h ⟨hR, rfl⟩
  exact ⟨g', h1, h2⟩

/-- A device mapped onto one that keeps to the interface keeps to it. -/
theorem Models.of_hom {δ ε : Type} {D : Device δ β} {E : Device ε β} {P : δ → Prop} {v : δ → ε} {R : γ → ε → Prop}
    (hom : Hom D E P v) (M : Models I E R) : Models I D fun g d => P d ∧ R g (v d) := by
  constructor
  · rintro g d lba ⟨hd, hR⟩ hpre
    obtain ⟨e1, e2, e3⟩ := hom.read d lba hd
    obtain ⟨g', h1, h2⟩ := M.read g (v d) lba hR hpre
    exact ⟨g', by rwa [e1], e3, by rwa [e2]⟩
  · rintro g d lba b ⟨hd, hR⟩ hpre
    obtain ⟨e1, e2, e3⟩ := hom.write d lba b hd
    obtain ⟨g', h1, h2⟩ := M.write g (v d) lba b hR hpre
    exact ⟨g', by rwa [e1], e3, by rwa [e2]⟩

end Prog

end BlockIO
