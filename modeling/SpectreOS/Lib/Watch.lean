/-
Programs that note events beside their memory. Such a program records another one when, the notes
apart, it does the same on every device (`Records`); what every note of it satisfies is put together
from its parts (`Notes`) and carried to its runs (`Notes.run`). Where notes have a property under a
condition only, the condition is put together in the same way, along one run (`NotedIff`).
-/
import SpectreOS.Lib.Wp

namespace BlockIO

namespace Prog

variable {σ β ε α α' ι : Type}

/-- Note some events. -/
def note (events : List ε) : Prog (σ × List ε) β Unit := modify fun w => (w.1, w.2 ++ events)

/-- The memory without the notes. -/
def peek : Prog (σ × List ε) β σ := get fun w => ret w.1

def alter (f : σ → σ) : Prog (σ × List ε) β Unit := modify fun w => (f w.1, w.2)

/-- A program of which nothing is noted. -/
def quiet : Prog σ β α → Prog (σ × List ε) β α
  | ret a => ret a
  | get k => get fun w => (k w.1).quiet
  | put s k => get fun w => put (s, w.2) k.quiet
  | read lba k => read lba fun r => (k r).quiet
  | write lba b k => write lba b fun ok => (k ok).quiet

/-- What a program notes in a run. -/
def notes {δ : Type} (D : Device δ β) (p : Prog (σ × List ε) β α) (c : Conf σ δ) : List ε :=
  (p.run D ⟨(c.mem, []), c.dev⟩).2.mem.2

/-! ## Recording -/

/-- The notes apart, the first program does what the second does. -/
structure Records (w : Prog (σ × List ε) β α) (p : Prog σ β α) : Prop where
  run : ∀ {δ : Type} (D : Device δ β) (c : Conf σ δ) (log : List ε), ∃ events,
    w.run D ⟨(c.mem, log), c.dev⟩ =
      ((p.run D c).1, ⟨((p.run D c).2.mem, log ++ events), (p.run D c).2.dev⟩)

namespace Records

variable {w : Prog (σ × List ε) β α} {p : Prog σ β α}

theorem pure (a : α) : Records (Pure.pure a : Prog (σ × List ε) β α) (Pure.pure a) :=
  ⟨fun _ _ log => ⟨[], by rw [List.append_nil]; rfl⟩⟩

theorem bind {f : α → Prog (σ × List ε) β α'} {g : α → Prog σ β α'} (h : Records w p) (hf : ∀ a, Records (f a) (g a)) :
    Records (w >>= f) (p >>= g) := by
  constructor
  intro δ D c log
  obtain ⟨events, hw⟩ := h.run D c log
  obtain ⟨events', hf⟩ := (hf (p.run D c).1).run D (p.run D c).2 (log ++ events)
  refine ⟨events ++ events', ?_⟩
  rw [run_bind, run_bind, hw, hf, List.append_assoc]

theorem note {f : Unit → Prog (σ × List ε) β α} (events : List ε) (h : Records (f ()) p) :
    Records (Prog.note events >>= f) p := by
  constructor
  intro δ D c log
  obtain ⟨events', hf⟩ := h.run D c (log ++ events)
  refine ⟨events ++ events', ?_⟩
  rw [← List.append_assoc]
  exact hf

theorem peek {f : σ → Prog (σ × List ε) β α} {g : σ → Prog σ β α} (h : ∀ s, Records (f s) (g s)) :
    Records (Prog.peek >>= f) (load >>= g) :=
  ⟨fun D c log => (h c.mem).run D c log⟩

theorem alter (f : σ → σ) : Records (Prog.alter f : Prog (σ × List ε) β Unit) (modify f) :=
  ⟨fun _ _ log => ⟨[], by rw [List.append_nil]; rfl⟩⟩

theorem readBlock (lba : Nat) : Records (Prog.readBlock lba : Prog (σ × List ε) β (Option β)) (Prog.readBlock lba) :=
  ⟨fun _ _ log => ⟨[], by rw [List.append_nil]; rfl⟩⟩

theorem writeBlock (lba : Nat) (b : β) :
    Records (Prog.writeBlock lba b : Prog (σ × List ε) β Bool) (Prog.writeBlock lba b) :=
  ⟨fun _ _ log => ⟨[], by rw [List.append_nil]; rfl⟩⟩

theorem quiet (p : Prog σ β α) : Records (p.quiet : Prog (σ × List ε) β α) p := by
  constructor
  intro δ D c log
  refine ⟨[], ?_⟩
  rw [List.append_nil]
  induction p generalizing c with
  | ret a => rfl
  | get k ih => exact ih _ c
  | put s k ih => exact ih { c with mem := s }
  | read lba k ih => exact ih _ { c with dev := (D.read c.dev lba).2 }
  | write lba b k ih => exact ih _ { c with dev := (D.write c.dev lba b).2 }

theorem ite {P : Prop} [Decidable P] {w' : Prog (σ × List ε) β α} {p' : Prog σ β α} (h : P → Records w p)
    (h' : ¬ P → Records w' p') : Records (if P then w else w') (if P then p else p') := by
  by_cases hP : P
  · rw [if_pos hP, if_pos hP]
    exact h hP
  · rw [if_neg hP, if_neg hP]
    exact h' hP

theorem findSomeM? {f : ι → Prog (σ × List ε) β (Option α)} {g : ι → Prog σ β (Option α)} (l : List ι)
    (h : ∀ i, Records (f i) (g i)) : Records (l.findSomeM? f) (l.findSomeM? g) := by
  induction l with
  | nil => exact .pure none
  | cons i l ih =>
    rw [List.findSomeM?, List.findSomeM?]
    refine (h i).bind fun r => ?_
    cases r with
    | none => exact ih
    | some a => exact .pure (some a)

/-- A recorded program's state after a run. -/
theorem run_eq (h : Records w p) {δ : Type} (D : Device δ β) (c : Conf σ δ) :
    w.run D ⟨(c.mem, []), c.dev⟩ = ((p.run D c).1, ⟨((p.run D c).2.mem, notes D w c), (p.run D c).2.dev⟩) := by
  obtain ⟨events, hw⟩ := h.run D c []
  rw [notes, hw]

end Records

/-! ## What is noted -/

/-- From memory `s` and ghost state `g` the program ends in `Q`, and all it notes has the property. -/
structure Notes {γ : Type} (I : Iface γ β) (P : ε → Prop) (w : Prog (σ × List ε) β α) (Q : α → γ → σ → Prop) (g : γ)
    (s : σ) : Prop where
  wp : ∀ log, (∀ e ∈ log, P e) → w.wp I (fun a g w => (∀ e ∈ w.2, P e) ∧ Q a g w.1) g (s, log)

namespace Notes

variable {γ : Type} {I : Iface γ β} {P : ε → Prop} {w : Prog (σ × List ε) β α} {Q R : α → γ → σ → Prop} {g : γ} {s : σ}

theorem pure {a : α} (h : Q a g s) : Notes I P (Pure.pure a) Q g s := ⟨fun _ hlog => ⟨hlog, h⟩⟩

theorem mono (h : Notes I P w Q g s) (hQR : ∀ a g s, Q a g s → R a g s) : Notes I P w R g s :=
  ⟨fun log hlog => (h.wp log hlog).mono fun a g _ hpost => ⟨hpost.1, hQR a g _ hpost.2⟩⟩

theorem bind {f : α → Prog (σ × List ε) β α'} {R : α' → γ → σ → Prop} (h : Notes I P w Q g s)
    (hf : ∀ a g s, Q a g s → Notes I P (f a) R g s) : Notes I P (w >>= f) R g s :=
  ⟨fun log hlog => (h.wp log hlog).seq fun a g _ hpost => (hf a g _ hpost.2).wp _ hpost.1⟩

theorem note {f : Unit → Prog (σ × List ε) β α} {events : List ε} (hP : ∀ e ∈ events, P e)
    (h : Notes I P (f ()) Q g s) : Notes I P (Prog.note events >>= f) Q g s := by
  constructor
  intro log hlog
  refine h.wp (log ++ events) fun e he => ?_
  rcases List.mem_append.1 he with hold | hnew
  · exact hlog e hold
  · exact hP e hnew

theorem peek {f : σ → Prog (σ × List ε) β α} (h : Notes I P (f s) Q g s) : Notes I P (Prog.peek >>= f) Q g s := ⟨h.wp⟩

theorem alter {f : σ → σ} {k : Unit → Prog (σ × List ε) β α} (h : Notes I P (k ()) Q g (f s)) :
    Notes I P (Prog.alter f >>= k) Q g s := ⟨h.wp⟩

theorem readBlock {lba : Nat} {f : Option β → Prog (σ × List ε) β α} (hpre : I.readPre g lba)
    (h : ∀ r g', I.readPost g lba r g' → Notes I P (f r) Q g' s) : Notes I P (Prog.readBlock lba >>= f) Q g s :=
  ⟨fun log hlog => ⟨hpre, fun r g' hr => (h r g' hr).wp log hlog⟩⟩

theorem writeBlock {lba : Nat} {b : β} {f : Bool → Prog (σ × List ε) β α} (hpre : I.writePre g lba b)
    (h : ∀ ok g', I.writePost g lba b ok g' → Notes I P (f ok) Q g' s) :
    Notes I P (Prog.writeBlock lba b >>= f) Q g s :=
  ⟨fun log hlog => ⟨hpre, fun ok g' hw => (h ok g' hw).wp log hlog⟩⟩

/-- A program that ends with a write. -/
theorem lastWrite {Q : Bool → γ → σ → Prop} {lba : Nat} {b : β} (hpre : I.writePre g lba b)
    (h : ∀ ok g', I.writePost g lba b ok g' → Q ok g' s) : Notes I P (Prog.writeBlock lba b) Q g s :=
  ⟨fun _ hlog => ⟨hpre, fun ok g' hw => ⟨hlog, h ok g' hw⟩⟩⟩

theorem quiet {p : Prog σ β α} (h : p.wp I Q g s) : Notes I P p.quiet Q g s := by
  constructor
  intro log hlog
  induction p generalizing g s with
  | ret a => exact ⟨hlog, h⟩
  | get k ih => exact ih _ h
  | put s' k ih => exact ih h
  | read lba k ih => exact ⟨h.1, fun r g' hr => ih r (h.2 r g' hr)⟩
  | write lba b k ih => exact ⟨h.1, fun ok g' hw => ih ok (h.2 ok g' hw)⟩

theorem ite {p : Prop} [Decidable p] {w' : Prog (σ × List ε) β α} (h : p → Notes I P w Q g s)
    (h' : ¬ p → Notes I P w' Q g s) : Notes I P (if p then w else w') Q g s := by
  by_cases hp : p
  · rw [if_pos hp]
    exact h hp
  · rw [if_neg hp]
    exact h' hp

/-- A search that stops at the first `some`, each of whose turns keeps the invariant. -/
theorem findSomeM? {f : ι → Prog (σ × List ε) β (Option α)} {J : γ → σ → Prop}
    {Q : Option α → γ → σ → Prop} {l : List ι} (hJ : J g s)
    (hf : ∀ i ∈ l, ∀ g s, J g s → Notes I P (f i) (fun r g s => r.elim (J g s) fun a => Q (some a) g s) g s)
    (hQ : ∀ g s, J g s → Q none g s) : Notes I P (l.findSomeM? f) Q g s := by
  induction l generalizing g s with
  | nil => exact .pure (hQ g s hJ)
  | cons i l ih =>
    rw [List.findSomeM?]
    refine (hf i List.mem_cons_self g s hJ).bind fun r g' s' hr => ?_
    cases r with
    | none => exact ih hr fun j hj => hf j (List.mem_cons_of_mem _ hj)
    | some a => exact .pure hr

/-- On a device that keeps to the interface all that is noted of a program has the property, and the
program ends as specified. -/
theorem run {δ : Type} {D : Device δ β} {V : γ → δ → Prop} (M : Models I D V) {p : Prog σ β α} (hp : Records w p)
    {c : Conf σ δ} (h : Notes I P w Q g c.mem) (hV : V g c.dev) :
    (∀ e ∈ notes D w c, P e) ∧ ∃ g', Q (p.run D c).1 g' (p.run D c).2.mem ∧ V g' (p.run D c).2.dev := by
  have hnil : ∀ e ∈ ([] : List ε), P e := by simp
  obtain ⟨g', ⟨hnotes, hpost⟩, hV'⟩ := wp_sound M w (c := ⟨(c.mem, []), c.dev⟩) (h.wp [] hnil) hV
  rw [hp.run_eq D c] at hnotes hpost hV'
  exact ⟨hnotes, g', hpost, hV'⟩

end Notes

/-! ## When what is noted has a property -/

section NotedIff

variable {δ : Type} {D : Device δ β} {P : ε → Prop} {w : Prog (σ × List ε) β α} {c : Conf σ δ} {X Y : Prop}

/-- Of a run from `c` all that is noted has the property exactly if `X`. -/
def NotedIff (D : Device δ β) (P : ε → Prop) (w : Prog (σ × List ε) β α) (c : Conf σ δ) (X : Prop) : Prop :=
  ∀ log, (∀ e ∈ (w.run D ⟨(c.mem, log), c.dev⟩).2.mem.2, P e) ↔ (∀ e ∈ log, P e) ∧ X

namespace NotedIff

theorem notes (h : NotedIff D P w c X) : (∀ e ∈ Prog.notes D w c, P e) ↔ X := by
  have hnil : ∀ e ∈ ([] : List ε), P e := by simp
  exact (h []).trans (and_iff_right hnil)

theorem congr (h : NotedIff D P w c X) (hXY : X ↔ Y) : NotedIff D P w c Y := by
  intro log
  rw [h log, hXY]

theorem pure (a : α) : NotedIff D P (Pure.pure a) c True := fun _ => (and_iff_left trivial).symm

theorem bind {p : Prog σ β α} {f : α → Prog (σ × List ε) β α'} (hp : Records w p) (h : NotedIff D P w c X)
    (hf : NotedIff D P (f (p.run D c).1) (p.run D c).2 Y) : NotedIff D P (w >>= f) c (X ∧ Y) := by
  intro log
  have hw := h log
  obtain ⟨events, hrun⟩ := hp.run D c log
  rw [hrun] at hw
  rw [run_bind, hrun, hf, hw, and_assoc]

/-- What comes first always has the property. -/
theorem after {p : Prog σ β α} {f : α → Prog (σ × List ε) β α'} (hp : Records w p) (h : NotedIff D P w c True)
    (hf : NotedIff D P (f (p.run D c).1) (p.run D c).2 Y) : NotedIff D P (w >>= f) c Y :=
  (bind hp h hf).congr (and_iff_right trivial)

/-- What comes last always has the property. -/
theorem before {p : Prog σ β α} {f : α → Prog (σ × List ε) β α'} (hp : Records w p) (h : NotedIff D P w c X)
    (hf : NotedIff D P (f (p.run D c).1) (p.run D c).2 True) : NotedIff D P (w >>= f) c X :=
  (bind hp h hf).congr (and_iff_left trivial)

theorem note {f : Unit → Prog (σ × List ε) β α} (events : List ε) (h : NotedIff D P (f ()) c X) :
    NotedIff D P (Prog.note events >>= f) c ((∀ e ∈ events, P e) ∧ X) := by
  intro log
  rw [← and_assoc, ← List.forall_mem_append]
  exact h (log ++ events)

theorem note_of {f : Unit → Prog (σ × List ε) β α} {events : List ε} (hP : ∀ e ∈ events, P e)
    (h : NotedIff D P (f ()) c X) : NotedIff D P (Prog.note events >>= f) c X :=
  (note events h).congr (and_iff_right hP)

/-- What is noted in between lacks the property. -/
theorem note_not {f : Unit → Prog (σ × List ε) β α} {p : Prog σ β α} {events : List ε} (hP : ¬ ∀ e ∈ events, P e)
    (hp : Records (f ()) p) : NotedIff D P (Prog.note events >>= f) c False := by
  intro log
  obtain ⟨events', hrun⟩ := hp.run D c (log ++ events)
  rw [and_false, iff_false]
  intro hall
  refine hP fun e he => hall e ?_
  have hfirst : (Prog.note events >>= f).run D ⟨(c.mem, log), c.dev⟩ = (f ()).run D ⟨(c.mem, log ++ events), c.dev⟩ :=
    rfl
  rw [hfirst, hrun]
  exact List.mem_append_left _ (List.mem_append_right _ he)

theorem bind_not {p : Prog σ β α} {f : α → Prog (σ × List ε) β α'} (hp : Records w p)
    (hf : NotedIff D P (f (p.run D c).1) (p.run D c).2 False) : NotedIff D P (w >>= f) c False := by
  intro log
  obtain ⟨events, hrun⟩ := hp.run D c log
  rw [run_bind, hrun, hf, and_false, and_false]

theorem peek {f : σ → Prog (σ × List ε) β α} (h : NotedIff D P (f c.mem) c X) : NotedIff D P (Prog.peek >>= f) c X := h

theorem alter {f : σ → σ} {k : Unit → Prog (σ × List ε) β α} (h : NotedIff D P (k ()) { c with mem := f c.mem } X) :
    NotedIff D P (Prog.alter f >>= k) c X := h

theorem readBlock {lba : Nat} {f : Option β → Prog (σ × List ε) β α}
    (h : NotedIff D P (f (D.read c.dev lba).1) { c with dev := (D.read c.dev lba).2 } X) :
    NotedIff D P (Prog.readBlock lba >>= f) c X := h

theorem writeBlock {lba : Nat} {b : β} {f : Bool → Prog (σ × List ε) β α}
    (h : NotedIff D P (f (D.write c.dev lba b).1) { c with dev := (D.write c.dev lba b).2 } X) :
    NotedIff D P (Prog.writeBlock lba b >>= f) c X := h

/-- A program that ends with a write. -/
theorem lastWrite {lba : Nat} {b : β} : NotedIff D P (Prog.writeBlock lba b) c True :=
  fun _ => (and_iff_left trivial).symm

theorem quiet (p : Prog σ β α) : NotedIff D P p.quiet c True := by
  intro log
  induction p generalizing c with
  | ret a => exact (and_iff_left trivial).symm
  | get k ih => exact ih c.mem
  | put s k ih => exact ih (c := { c with mem := s })
  | read lba k ih => exact ih _ (c := { c with dev := (D.read c.dev lba).2 })
  | write lba b k ih => exact ih _ (c := { c with dev := (D.write c.dev lba b).2 })

theorem ite {p : Prop} [Decidable p] {w' : Prog (σ × List ε) β α} (h : p → NotedIff D P w c X)
    (h' : ¬ p → NotedIff D P w' c X) : NotedIff D P (if p then w else w') c X := by
  by_cases hp : p
  · rw [if_pos hp]
    exact h hp
  · rw [if_neg hp]
    exact h' hp

end NotedIff

/-- Notes that have the property on every device. -/
theorem Notes.notedIff {γ : Type} {I : Iface γ β} {Q : α → γ → σ → Prop} {g : γ} {V : γ → δ → Prop}
    (h : Notes I P w Q g c.mem) (M : Models I D V) {p : Prog σ β α} (hp : Records w p) (hV : V g c.dev) :
    NotedIff D P w c True := by
  intro log
  rw [and_iff_left trivial]
  constructor
  · intro hall e he
    obtain ⟨events, hrun⟩ := hp.run D c log
    rw [hrun] at hall
    exact hall e (List.mem_append_left _ he)
  · intro hlog
    obtain ⟨-, ⟨hnotes, -⟩, -⟩ := wp_sound M w (c := ⟨(c.mem, log), c.dev⟩) (h.wp log hlog) hV
    exact hnotes

end NotedIff

end Prog

end BlockIO
