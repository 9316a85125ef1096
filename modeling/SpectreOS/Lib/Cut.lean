/-
A device that loses its power: `powerCut D` makes a given number of writes and, from the last of them on,
answers no request and changes no more. Which states of the device a program may leave between two
of its writes is put into the interface (`Iface.guarded`); the state a loss of power leaves is then
such a one (`powerCut_sound`).
-/
import SpectreOS.Lib.Wp

namespace BlockIO

/-- The device with power for so many writes. -/
def powerCut {δ β : Type} (D : Device δ β) : Device (Nat × δ) β where
  read p lba := if p.1 = 0 then (none, p) else ((D.read p.2 lba).1, p.1, (D.read p.2 lba).2)
  write p lba b := if p.1 = 0 then (false, p) else ((D.write p.2 lba b).1, p.1 - 1, (D.write p.2 lba b).2)

/-- The interface beside the number of writes; after each of them the state satisfies `J`. -/
def Iface.guarded {γ β : Type} (I : Iface γ β) (J : Nat → γ → Prop) : Iface (Nat × γ) β where
  readPre g lba := I.readPre g.2 lba
  readPost g lba r g' := g'.1 = g.1 ∧ I.readPost g.2 lba r g'.2
  writePre g lba b := I.writePre g.2 lba b ∧ ∀ ok g', I.writePost g.2 lba b ok g' → J (g.1 + 1) g'
  writePost g lba b ok g' := g'.1 = g.1 + 1 ∧ I.writePost g.2 lba b ok g'.2

namespace Prog

section Cut

variable {σ β α δ : Type} {D : Device δ β}

/-- Without power nothing changes. -/
theorem run_cut_zero (p : Prog σ β α) (s : σ) (d : δ) : (p.run (powerCut D) ⟨s, 0, d⟩).2.dev = (0, d) := by
  induction p generalizing s with
  | ret a => rfl
  | get k ih => exact ih _ s
  | put s' k ih => exact ih s'
  | read lba k ih => exact ih none s
  | write lba b k ih => exact ih false s

theorem run_cut_le (p : Prog σ β α) (c : Conf σ (Nat × δ)) : (p.run (powerCut D) c).2.dev.1 ≤ c.dev.1 := by
  induction p generalizing c with
  | ret a => exact le_rfl
  | get k ih => exact ih _ c
  | put s k ih => exact ih _
  | read lba k ih =>
    refine (ih _ _).trans ?_
    simp only [powerCut]
    split <;> exact le_rfl
  | write lba b k ih =>
    refine (ih _ _).trans ?_
    simp only [powerCut]
    split
    · exact le_rfl
    · exact Nat.sub_le _ _

/-- A program that ends with power left has run as on the device itself. -/
theorem run_cut_pos (p : Prog σ β α) {c : Conf σ (Nat × δ)} (h : 0 < (p.run (powerCut D) c).2.dev.1) :
    p.run D ⟨c.mem, c.dev.2⟩ = ((p.run (powerCut D) c).1,
      ⟨(p.run (powerCut D) c).2.mem, (p.run (powerCut D) c).2.dev.2⟩) := by
  have hpos : ∀ {α : Type} (p : Prog σ β α) (c : Conf σ (Nat × δ)), 0 < (p.run (powerCut D) c).2.dev.1 →
    c.dev.1 ≠ 0 := by
    intro α p c h
    have := run_cut_le (D := D) p c
    omega
  induction p generalizing c with
  | ret a => rfl
  | get k ih => exact ih _ h
  | put s k ih => exact ih (c := { c with mem := s }) h
  | read lba k ih =>
    have hc := hpos (.read lba k) c h
    have hread : (powerCut D).read c.dev lba = ((D.read c.dev.2 lba).1, c.dev.1, (D.read c.dev.2 lba).2) := if_neg hc
    simp only [run, hread] at h ⊢
    exact ih _ (c := ⟨c.mem, c.dev.1, (D.read c.dev.2 lba).2⟩) h
  | write lba b k ih =>
    have hc := hpos (.write lba b k) c h
    have hwrite : (powerCut D).write c.dev lba b = ((D.write c.dev.2 lba b).1, c.dev.1 - 1,
      (D.write c.dev.2 lba b).2) :=
      if_neg hc
    simp only [run, hwrite] at h ⊢
    exact ih _ (c := ⟨c.mem, c.dev.1 - 1, (D.write c.dev.2 lba b).2⟩) h

/-- Devices that answer alike do so until the power is lost. -/
theorem Hom.cut {ε : Type} {E : Device ε β} {P : δ → Prop} {v : δ → ε} (h : Hom D E P v) :
    Hom (powerCut D) (powerCut E) (fun p => P p.2) (fun p => (p.1, v p.2)) := by
  constructor
  · intro p lba hp
    obtain ⟨h1, h2, h3⟩ := h.read p.2 lba hp
    simp only [powerCut]
    split
    · exact ⟨rfl, rfl, hp⟩
    · exact ⟨h1, by rw [h2], h3⟩
  · intro p lba b hp
    obtain ⟨h1, h2, h3⟩ := h.write p.2 lba b hp
    simp only [powerCut]
    split
    · exact ⟨rfl, rfl, hp⟩
    · exact ⟨h1, by rw [h2], h3⟩

end Cut

/-! ## The states between two writes -/

section Guarded

variable {σ β γ α α' δ ι : Type} {I : Iface γ β} {J : Nat → γ → Prop}

/-- The state that is left satisfies what is to hold after as many writes, and the program has ended
as specified if power is left. -/
theorem powerCut_sound {D : Device δ β} {R : γ → δ → Prop} (M : Models I D R)
    (hread : ∀ n g lba r g', J n g → I.readPost g lba r g' → J n g') (p : Prog σ β α) {Q : α → Nat × γ → σ → Prop}
    {n : Nat} {g : γ} {c : Conf σ (Nat × δ)} (h : p.wp (I.guarded J) Q (n, g) c.mem) (hJ : J n g) (hR : R g c.dev.2) :
    ∃ n' g', n' + (p.run (powerCut D) c).2.dev.1 = n + c.dev.1 ∧ J n' g' ∧ R g' (p.run (powerCut D) c).2.dev.2 ∧
      (0 < (p.run (powerCut D) c).2.dev.1 → Q (p.run (powerCut D) c).1 (n', g') (p.run (powerCut D) c).2.mem) := by
  obtain ⟨s, left, d⟩ := c
  induction p generalizing n g s left d with
  | ret a => exact ⟨n, g, rfl, hJ, hR, fun _ => h⟩
  | get k ih => exact ih _ hJ s left d h hR
  | put s' k ih => exact ih hJ s' left d h hR
  | read lba k ih =>
    by_cases hleft : left = 0
    · subst hleft
      rw [run_cut_zero]
      exact ⟨n, g, rfl, hJ, hR, fun hpos => absurd hpos (lt_irrefl 0)⟩
    · obtain ⟨g', h1, h2⟩ := M.read g d lba hR h.1
      have hrun : (powerCut D).read (left, d) lba = ((D.read d lba).1, left, (D.read d lba).2) := if_neg hleft
      simp only [run, hrun]
      exact ih _ (hread n g lba _ g' hJ h1) s left _ (h.2 _ (n, g') ⟨rfl, h1⟩) h2
  | write lba b k ih =>
    by_cases hleft : left = 0
    · subst hleft
      rw [run_cut_zero]
      exact ⟨n, g, rfl, hJ, hR, fun hpos => absurd hpos (lt_irrefl 0)⟩
    · obtain ⟨g', h1, h2⟩ := M.write g d lba b hR h.1.1
      have hrun : (powerCut D).write (left, d) lba b = ((D.write d lba b).1, left - 1, (D.write d lba b).2) :=
        if_neg hleft
      simp only [run, hrun]
      obtain ⟨n', g'', hn, h3⟩ := ih _ (h.1.2 _ g' h1) s (left - 1) _ (h.2 _ (n + 1, g') ⟨rfl, h1⟩) h2
      exact ⟨n', g'', hn.trans (by dsimp only; omega), h3⟩

/-- An interface that allows requests to fail allows them to fail for want of power. -/
theorem Models.cut {D : Device δ β} {R : γ → δ → Prop} (M : Models I D R)
    (hr : ∀ g lba, I.readPre g lba → I.readPost g lba none g)
    (hw : ∀ g lba b, I.writePre g lba b → I.writePost g lba b false g) : Models I (powerCut D) fun g p => R g p.2 := by
  constructor
  · intro g p lba hR hpre
    simp only [powerCut]
    split
    · exact ⟨g, hr g lba hpre, hR⟩
    · exact M.read g p.2 lba hR hpre
  · intro g p lba b hR hpre
    simp only [powerCut]
    split
    · exact ⟨g, hw g lba b hpre, hR⟩
    · exact M.write g p.2 lba b hR hpre

/-- What the program does and what holds between its writes. -/
theorem wp.and_guarded {p : Prog σ β α} {Q : α → γ → σ → Prop} {R : α → Nat × γ → σ → Prop} {n : Nat} {g : γ} {s : σ}
    (hQ : p.wp I Q g s) (hR : p.wp (I.guarded J) R (n, g) s) :
    p.wp (I.guarded J) (fun a g s => Q a g.2 s ∧ R a g s) (n, g) s := by
  induction p generalizing n g s with
  | ret a => exact ⟨hQ, hR⟩
  | get k ih => exact ih _ hQ hR
  | put s' k ih => exact ih hQ hR
  | read lba k ih => exact ⟨hR.1, fun r g' hr => ih r (hQ.2 r g'.2 hr.2) (hR.2 r g' hr)⟩
  | write lba b k ih => exact ⟨hR.1, fun ok g' hw => ih ok (hQ.2 ok g'.2 hw.2) (hR.2 ok g' hw)⟩

/-! ## Programs that only read -/

def ReadsOnly : Prog σ β α → Prop
  | ret _ => True
  | get k => ∀ s, (k s).ReadsOnly
  | put _ k => k.ReadsOnly
  | read _ k => ∀ r, (k r).ReadsOnly
  | write _ _ _ => False

namespace ReadsOnly

theorem pure (a : α) : (Pure.pure a : Prog σ β α).ReadsOnly := trivial

theorem bind {p : Prog σ β α} {f : α → Prog σ β α'} (h : p.ReadsOnly) (hf : ∀ a, (f a).ReadsOnly) :
    (p >>= f).ReadsOnly := by
  show (p.bind f).ReadsOnly
  induction p with
  | ret a => exact hf a
  | get k ih => exact fun s => ih s (h s)
  | put s k ih => exact ih h
  | read lba k ih => exact fun r => ih r (h r)
  | write lba b k ih => exact h.elim

theorem load : (Prog.load : Prog σ β σ).ReadsOnly := fun _ => trivial

theorem modify (f : σ → σ) : (Prog.modify f : Prog σ β Unit).ReadsOnly := fun _ => trivial

theorem readBlock (lba : Nat) : (Prog.readBlock lba : Prog σ β (Option β)).ReadsOnly := fun _ => trivial

theorem findSomeM? {f : ι → Prog σ β (Option α)} (l : List ι) (h : ∀ i, (f i).ReadsOnly) :
    (l.findSomeM? f).ReadsOnly := by
  induction l with
  | nil => exact .pure none
  | cons i l ih =>
    rw [List.findSomeM?]
    refine (h i).bind fun r => ?_
    cases r with
    | none => exact ih
    | some a => exact .pure _

/-- Nothing has to hold between the writes of a program without any. -/
theorem guarded {p : Prog σ β α} (h : p.ReadsOnly) {Q : α → γ → σ → Prop} {n : Nat} {g : γ} {s : σ}
    (hQ : p.wp I Q g s) :
    p.wp (I.guarded J) (fun a g s => g.1 = n ∧ Q a g.2 s) (n, g) s := by
  induction p generalizing g s with
  | ret a => exact ⟨rfl, hQ⟩
  | get k ih => exact ih _ (h _) hQ
  | put s' k ih => exact ih h hQ
  | read lba k ih =>
    refine ⟨hQ.1, ?_⟩
    rintro r ⟨_, g'⟩ ⟨rfl, hr⟩
    exact ih r (h r) (hQ.2 r g' hr)
  | write lba b k ih => exact h.elim

end ReadsOnly

end Guarded

end Prog

end BlockIO
