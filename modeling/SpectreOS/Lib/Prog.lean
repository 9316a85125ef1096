/-
Programs that own a private memory and talk to a block device, as a free monad: the memory
accesses and the block requests are the operations, and a device interprets the requests. One
program can so be run on several devices (a raw disk, an encrypted one, one that fails), and two
devices that answer alike run every program alike (`run_hom`).
-/
import Mathlib.Tactic

namespace BlockIO

/-- A program over a memory `σ` and blocks `β`, with a value of type `α`. A failed read answers
`none`; a write answers whether it succeeded. -/
inductive Prog (σ β α : Type) where
  | ret (a : α)
  | get (k : σ → Prog σ β α)
  | put (s : σ) (k : Prog σ β α)
  | read (lba : Nat) (k : Option β → Prog σ β α)
  | write (lba : Nat) (b : β) (k : Bool → Prog σ β α)

/-- A block device with state `δ`. -/
structure Device (δ β : Type) where
  read : δ → Nat → Option β × δ
  write : δ → Nat → β → Bool × δ

/-- A program's memory beside the device it runs on. -/
@[ext]
structure Conf (σ δ : Type) where
  mem : σ
  dev : δ

namespace Prog

variable {σ β α α' : Type}

def bind : Prog σ β α → (α → Prog σ β α') → Prog σ β α'
  | ret a, f => f a
  | get k, f => get fun s => (k s).bind f
  | put s k, f => put s (k.bind f)
  | read lba k, f => read lba fun r => (k r).bind f
  | write lba b k, f => write lba b fun ok => (k ok).bind f

instance : Monad (Prog σ β) where
  pure := ret
  bind := bind

/-- The memory. -/
def load : Prog σ β σ := get ret

/-- Replace the memory by `f` of it. -/
def modify (f : σ → σ) : Prog σ β Unit := get fun s => put (f s) (ret ())

def readBlock (lba : Nat) : Prog σ β (Option β) := read lba ret

def writeBlock (lba : Nat) (b : β) : Prog σ β Bool := write lba b ret

/-! ## Running a program on a device -/

section Run

variable {δ : Type} (D : Device δ β)

def run : Prog σ β α → Conf σ δ → α × Conf σ δ
  | ret a, c => (a, c)
  | get k, c => (k c.mem).run c
  | put s k, c => k.run { c with mem := s }
  | read lba k, c => (k (D.read c.dev lba).1).run { c with dev := (D.read c.dev lba).2 }
  | write lba b k, c => (k (D.write c.dev lba b).1).run { c with dev := (D.write c.dev lba b).2 }

@[simp] theorem run_pure (a : α) (c : Conf σ δ) : run D (pure a : Prog σ β α) c = (a, c) := rfl

@[simp] theorem run_bind (p : Prog σ β α) (f : α → Prog σ β α') (c : Conf σ δ) :
    run D (p >>= f) c = run D (f (run D p c).1) (run D p c).2 := by
  show run D (p.bind f) c = _
  induction p generalizing c with
  | ret a => rfl
  | get k ih => exact ih _ c
  | put s k ih => exact ih _
  | read lba k ih => exact ih _ _
  | write lba b k ih => exact ih _ _

@[simp] theorem run_load (c : Conf σ δ) : run D (load : Prog σ β σ) c = (c.mem, c) := rfl

@[simp] theorem run_modify (f : σ → σ) (c : Conf σ δ) :
    run D (modify f : Prog σ β Unit) c = ((), { c with mem := f c.mem }) := rfl

@[simp] theorem run_readBlock (lba : Nat) (c : Conf σ δ) :
    run D (readBlock lba : Prog σ β _) c = ((D.read c.dev lba).1, { c with dev := (D.read c.dev lba).2 }) := rfl

@[simp] theorem run_writeBlock (lba : Nat) (b : β) (c : Conf σ δ) :
    run D (writeBlock lba b : Prog σ β _) c =
      ((D.write c.dev lba b).1, { c with dev := (D.write c.dev lba b).2 }) := rfl

end Run

/-! ## Two devices that answer alike -/

/-- `v` maps the states of `D` that satisfy `P` onto states of `E` that answer every request the
same way, and requests keep `P`. -/
structure Hom {δ ε : Type} (D : Device δ β) (E : Device ε β) (P : δ → Prop) (v : δ → ε) : Prop where
  read : ∀ d lba, P d → (D.read d lba).1 = (E.read (v d) lba).1 ∧
    v (D.read d lba).2 = (E.read (v d) lba).2 ∧ P (D.read d lba).2
  write : ∀ d lba b, P d → (D.write d lba b).1 = (E.write (v d) lba b).1 ∧
    v (D.write d lba b).2 = (E.write (v d) lba b).2 ∧ P (D.write d lba b).2

theorem Hom.comp {δ ε ζ : Type} {D : Device δ β} {E : Device ε β} {F : Device ζ β} {P : δ → Prop} {Q : ε → Prop}
    {v : δ → ε} {u : ε → ζ} (h : Hom D E P v) (h' : Hom E F Q u) :
    Hom D F (fun d => P d ∧ Q (v d)) fun d => u (v d) := by
  constructor
  · rintro d lba ⟨hd, hv⟩
    obtain ⟨e1, e2, e3⟩ := h.read d lba hd
    obtain ⟨f1, f2, f3⟩ := h'.read (v d) lba hv
    exact ⟨e1.trans f1, (congrArg u e2).trans f2, e3, by rw [e2]; exact f3⟩
  · rintro d lba b ⟨hd, hv⟩
    obtain ⟨e1, e2, e3⟩ := h.write d lba b hd
    obtain ⟨f1, f2, f3⟩ := h'.write (v d) lba b hv
    exact ⟨e1.trans f1, (congrArg u e2).trans f2, e3, by rw [e2]; exact f3⟩

/-- A run on `D` is a run on `E` of the mapped state. -/
theorem run_hom {δ ε : Type} {D : Device δ β} {E : Device ε β} {P : δ → Prop} {v : δ → ε}
    (h : Hom D E P v) (p : Prog σ β α) (c : Conf σ δ) (hc : P c.dev) :
    (run D p c).1 = (run E p ⟨c.mem, v c.dev⟩).1 ∧
      (run D p c).2.mem = (run E p ⟨c.mem, v c.dev⟩).2.mem ∧
      v (run D p c).2.dev = (run E p ⟨c.mem, v c.dev⟩).2.dev ∧ P (run D p c).2.dev := by
  induction p generalizing c with
  | ret a => exact ⟨rfl, rfl, rfl, hc⟩
  | get k ih => exact ih _ c hc
  | put s k ih => exact ih _ hc
  | read lba k ih =>
    obtain ⟨h1, h2, h3⟩ := h.read c.dev lba hc
    have := ih (D.read c.dev lba).1 { c with dev := (D.read c.dev lba).2 } h3
    simp only [run]
    rw [← h1, ← h2]
    exact this
  | write lba b k ih =>
    obtain ⟨h1, h2, h3⟩ := h.write c.dev lba b hc
    have := ih (D.write c.dev lba b).1 { c with dev := (D.write c.dev lba b).2 } h3
    simp only [run]
    rw [← h1, ← h2]
    exact this

/-! ## Requests that are numbered -/

/-- The device counts its requests; `g` changes how requests are answered, those apart whose numbers
satisfy `same`. -/
structure Numbered {δ : Type} (D : Device δ β) (count : δ → Nat) (P : δ → Prop) (g : δ → δ) (same : Nat → Prop) :
    Prop where
  read : ∀ d lba, P d → (count d < count (D.read d lba).2 → same (count d)) →
    D.read (g d) lba = ((D.read d lba).1, g (D.read d lba).2)
  write : ∀ d lba b, P d → (count d < count (D.write d lba b).2 → same (count d)) →
    D.write (g d) lba b = ((D.write d lba b).1, g (D.write d lba b).2)
  read_keeps : ∀ d lba, P d → P (D.read d lba).2 ∧ count d ≤ count (D.read d lba).2
  write_keeps : ∀ d lba b, P d → P (D.write d lba b).2 ∧ count d ≤ count (D.write d lba b).2

section Numbered

variable {δ : Type} {D : Device δ β} {count : δ → Nat} {P : δ → Prop} {g : δ → δ} {same : Nat → Prop}

theorem Numbered.run_keeps (h : Numbered D count P g same) (p : Prog σ β α) {c : Conf σ δ} (hc : P c.dev) :
    P (run D p c).2.dev ∧ count c.dev ≤ count (run D p c).2.dev := by
  induction p generalizing c with
  | ret a => exact ⟨hc, le_rfl⟩
  | get k ih => exact ih _ hc
  | put s k ih => exact ih (c := { c with mem := s }) hc
  | read lba k ih =>
    obtain ⟨h1, h2⟩ := h.read_keeps c.dev lba hc
    obtain ⟨h3, h4⟩ := ih _ (c := { c with dev := (D.read c.dev lba).2 }) h1
    exact ⟨h3, h2.trans h4⟩
  | write lba b k ih =>
    obtain ⟨h1, h2⟩ := h.write_keeps c.dev lba b hc
    obtain ⟨h3, h4⟩ := ih _ (c := { c with dev := (D.write c.dev lba b).2 }) h1
    exact ⟨h3, h2.trans h4⟩

/-- A run sees only the answers to its own requests. -/
theorem Numbered.run_eq (h : Numbered D count P g same) (p : Prog σ β α) {c : Conf σ δ} (hc : P c.dev)
    (hs : ∀ n, count c.dev ≤ n → n < count (run D p c).2.dev → same n) :
    run D p ⟨c.mem, g c.dev⟩ = ((run D p c).1, ⟨(run D p c).2.mem, g (run D p c).2.dev⟩) := by
  induction p generalizing c with
  | ret a => rfl
  | get k ih => exact ih _ hc hs
  | put s k ih => exact ih (c := { c with mem := s }) hc hs
  | read lba k ih =>
    obtain ⟨h1, h2⟩ := h.read_keeps c.dev lba hc
    have h3 := (h.run_keeps (k (D.read c.dev lba).1) (c := { c with dev := (D.read c.dev lba).2 }) h1).2
    have hread := h.read c.dev lba hc fun hlt => hs _ le_rfl (hlt.trans_le h3)
    have := ih _ (c := { c with dev := (D.read c.dev lba).2 }) h1 fun n hn hlt => hs n (h2.trans hn) hlt
    simp only [run, hread]
    exact this
  | write lba b k ih =>
    obtain ⟨h1, h2⟩ := h.write_keeps c.dev lba b hc
    have h3 := (h.run_keeps (k (D.write c.dev lba b).1) (c := { c with dev := (D.write c.dev lba b).2 }) h1).2
    have hwrite := h.write c.dev lba b hc fun hlt => hs _ le_rfl (hlt.trans_le h3)
    have := ih _ (c := { c with dev := (D.write c.dev lba b).2 }) h1 fun n hn hlt => hs n (h2.trans hn) hlt
    simp only [run, hwrite]
    exact this

end Numbered

end Prog

end BlockIO
