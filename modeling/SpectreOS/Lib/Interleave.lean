/-
Two block programs that take turns on one memory and one device. A turn is one request, or the
memory accesses up to the next one, so a switch can come before and after every request. For
programs that first only look (`Scans`) and then act on what they found (`Takes`), a schedule on which
one returns while the other is still looking runs them one after the other, and on any other
schedule both act on what both found (`Strands.race`).
-/
import SpectreOS.Lib.Prog

namespace BlockIO

namespace Prog

variable {σ β α α' δ : Type}

theorem bind_assoc {α'' : Type} (p : Prog σ β α) (f : α → Prog σ β α') (g : α' → Prog σ β α'') :
    (p >>= f) >>= g = p >>= fun a => f a >>= g := by
  show (p.bind f).bind g = p.bind fun a => (f a).bind g
  induction p with
  | ret a => rfl
  | get k ih => exact congrArg get (funext ih)
  | put s k ih => exact congrArg (put s) ih
  | read lba k ih => exact congrArg (read lba) (funext ih)
  | write lba b k ih => exact congrArg (write lba b) (funext ih)

/-! ## Turns -/

/-- The memory accesses up to the next request. -/
def settle : Prog σ β α → σ → Prog σ β α × σ
  | ret a, s => (ret a, s)
  | get k, s => (k s).settle s
  | put s k, _ => k.settle s
  | read lba k, s => (read lba k, s)
  | write lba b k, s => (write lba b k, s)

/-- A request comes next. -/
def asks : Prog σ β α → Bool
  | ret _ => false
  | get _ => false
  | put _ _ => false
  | read _ _ => true
  | write _ _ _ => true

/-- What the program has returned. -/
def returned : Prog σ β α → Option α
  | ret a => some a
  | get _ => none
  | put _ _ => none
  | read _ _ => none
  | write _ _ _ => none

theorem returned_eq_some {p : Prog σ β α} {a : α} : p.returned = some a ↔ p = ret a := by
  cases p <;> simp [returned]

variable (D : Device δ β)

/-- One turn. -/
def advance : Prog σ β α → Conf σ δ → Prog σ β α × Conf σ δ
  | ret a, c => (ret a, c)
  | get k, c => (((k c.mem).settle c.mem).1, { c with mem := ((k c.mem).settle c.mem).2 })
  | put s k, c => ((k.settle s).1, { c with mem := (k.settle s).2 })
  | read lba k, c => (k (D.read c.dev lba).1, { c with dev := (D.read c.dev lba).2 })
  | write lba b k, c => (k (D.write c.dev lba b).1, { c with dev := (D.write c.dev lba b).2 })

variable {D}

theorem settle_of_asks {p : Prog σ β α} (h : p.asks = true) (s : σ) : p.settle s = (p, s) := by
  cases p <;> first | rfl | cases h

theorem advance_of_not_asks {p : Prog σ β α} (h : p.asks = false) (c : Conf σ δ) :
    advance D p c = ((p.settle c.mem).1, { c with mem := (p.settle c.mem).2 }) := by
  cases p <;> first | rfl | cases h

theorem advance_load (f : σ → Prog σ β α) (c : Conf σ δ) : advance D (load >>= f) c =
    (((f c.mem).settle c.mem).1, { c with mem := ((f c.mem).settle c.mem).2 }) := rfl

theorem settle_modify (f : σ → σ) (p : Prog σ β α) (s : σ) : (modify f >>= fun _ => p).settle s = p.settle (f s) := rfl

variable (D) in
/-- Turns of one program alone. -/
def solo : Nat → Prog σ β α → Conf σ δ → Prog σ β α × Conf σ δ
  | 0, p, c => (p, c)
  | n + 1, p, c => solo n (advance D p c).1 (advance D p c).2

theorem solo_add (m n : Nat) (p : Prog σ β α) (c : Conf σ δ) :
    solo D (m + n) p c = solo D n (solo D m p c).1 (solo D m p c).2 := by
  induction m generalizing p c with
  | zero => rw [Nat.zero_add]; rfl
  | succ m ih => rw [Nat.add_right_comm]; exact ih _ _

theorem run_settle (p : Prog σ β α) (c : Conf σ δ) :
    run D (p.settle c.mem).1 { c with mem := (p.settle c.mem).2 } = run D p c := by
  induction p generalizing c with
  | ret a => rfl
  | get k ih => exact ih _ c
  | put s k ih => exact ih { c with mem := s }
  | read lba k ih => rfl
  | write lba b k ih => rfl

/-- A turn is part of the run. -/
theorem run_advance (p : Prog σ β α) (c : Conf σ δ) : run D (advance D p c).1 (advance D p c).2 = run D p c := by
  cases p with
  | ret a => rfl
  | get k => exact run_settle (k c.mem) c
  | put s k => exact run_settle k { c with mem := s }
  | read lba k => rfl
  | write lba b k => rfl

/-- A turn on devices that answer alike. -/
theorem advance_hom {ε : Type} {E : Device ε β} {P : δ → Prop} {v : δ → ε} (h : Hom D E P v) (p : Prog σ β α)
    {c : Conf σ δ} (hc : P c.dev) :
    advance E p ⟨c.mem, v c.dev⟩ =
        ((advance D p c).1, ⟨(advance D p c).2.mem, v (advance D p c).2.dev⟩) ∧ P (advance D p c).2.dev := by
  cases p with
  | ret a => exact ⟨rfl, hc⟩
  | get k => exact ⟨rfl, hc⟩
  | put s k => exact ⟨rfl, hc⟩
  | read lba k =>
    obtain ⟨h1, h2, h3⟩ := h.read c.dev lba hc
    refine ⟨?_, h3⟩
    simp only [advance, h1, h2]
  | write lba b k =>
    obtain ⟨h1, h2, h3⟩ := h.write c.dev lba b hc
    refine ⟨?_, h3⟩
    simp only [advance, h1, h2]

/-! ## Looking first, then acting -/

section

variable (D) (J K F : Conf σ δ → Prop) (E : Prog σ β α → Prop)

/-- For `n` requests, in `k` turns, the program only looks: from all states of `J` its turns come out
alike, leave the state as it is and lead to `E`. -/
inductive Scans : Nat → Nat → Prog σ β α → Prop
  | done {p : Prog σ β α} : E p → Scans 0 0 p
  | access {n k : Nat} {p p' : Prog σ β α} : p.asks = false → p.returned = none →
      (∀ c, J c → advance D p c = (p', c)) → Scans n k p' → Scans n (k + 1) p
  | request {n k : Nat} {p p' : Prog σ β α} : p.asks = true → (∀ c, J c → advance D p c = (p', c)) → Scans n k p' →
      Scans (n + 1) (k + 1) p

/-- The program keeps `K` from now on, and `F` until it returns, whatever the other one does that
keeps `K`. -/
inductive Takes : Prog σ β α → Prop
  | ret (a : α) : Takes (ret a)
  | turn {p : Prog σ β α} : (∀ c, K c → K (advance D p c).2) →
      (∀ c, K c → F c → (advance D p c).1.returned = none → F (advance D p c).2) →
      (∀ c, K c → Takes (advance D p c).1) → Takes p

/-- The program asks for the block that decides, and takes what it has found free. -/
def Decides (p : Prog σ β α) : Prop :=
  p.asks = true ∧ ∀ c, K c → F c →
    (advance D p c).2 = c ∧ (advance D p c).1.returned = none ∧ Takes D K F (advance D p c).1

end

/-- A turn that only looks. -/
theorem Takes.look {K F : Conf σ δ → Prop} {p : Prog σ β α}
    (h : ∀ c, K c → (advance D p c).2 = c ∧ Takes D K F (advance D p c).1) : Takes D K F p := by
  refine .turn (fun c hK => ?_) (fun c hK hF _ => ?_) fun c hK => (h c hK).2
  · rw [(h c hK).1]; exact hK
  · rw [(h c hK).1]; exact hF

theorem returned_of_asks {p : Prog σ β α} (h : p.asks = true) : p.returned = none := by
  cases p <;> first | rfl | cases h

section

variable {J : Conf σ δ → Prop} {E E' : Prog σ β α → Prop} {n k : Nat} {p : Prog σ β α}

/-- One more memory access before the others. -/
theorem Scans.load {f : σ → Prog σ β α} (hf : ∀ c, J c → f c.mem = p) (hasks : p.asks = false) (hE : ¬ E p)
    (h : Scans D J E n k p) : Scans D J E n k (get f) := by
  cases h with
  | done h => exact absurd h hE
  | access _ _ hadv hrest =>
    refine .access rfl rfl (fun c hJ => ?_) hrest
    rw [← hadv c hJ, advance_of_not_asks hasks]
    simp only [advance, hf c hJ]
  | request h =>
    rw [hasks] at h
    cases h

theorem Scans.mono (h : Scans D J E n k p) (hE : ∀ p, E p → E' p) : Scans D J E' n k p := by
  induction h with
  | done h => exact .done (hE _ h)
  | access hasks hret hadv _ ih => exact .access hasks hret hadv ih
  | request hasks hadv _ ih => exact .request hasks hadv ih

theorem Scans.returned {K F : Conf σ δ → Prop} (h : Scans D J (Decides D K F) n k p) : p.returned = none := by
  cases h with
  | done h => exact returned_of_asks h.1
  | access _ h => exact h
  | request h => exact returned_of_asks h

theorem Takes.solo {K F : Conf σ δ → Prop} (h : Takes D K F p) (k : Nat) {c : Conf σ δ} (hK : K c) :
    K (solo D k p c).2 := by
  induction k generalizing p c with
  | zero => exact hK
  | succ k ih =>
    cases h with
    | ret a => exact ih (.ret a) hK
    | turn hkeeps _ hrest => exact ih (hrest c hK) (hkeeps c hK)

/-- Alone, the program looks to the end. -/
theorem Scans.solo (h : Scans D J E n k p) {c : Conf σ δ} (hJ : J c) : ∃ p', E p' ∧ solo D k p c = (p', c) := by
  induction h with
  | done h => exact ⟨_, h, rfl⟩
  | access _ _ hadv _ ih =>
    obtain ⟨p', hE, hsolo⟩ := ih
    exact ⟨p', hE, by rw [Prog.solo, hadv c hJ]; exact hsolo⟩
  | request _ hadv _ ih =>
    obtain ⟨p', hE, hsolo⟩ := ih
    exact ⟨p', hE, by rw [Prog.solo, hadv c hJ]; exact hsolo⟩

end

end Prog

open Prog

variable {σ β α δ : Type}

/-- A program under way, and how many requests it has made. -/
structure Strand (σ β α : Type) where
  prog : Prog σ β α
  made : Nat

/-- Two programs under way, and the state they share. -/
structure Strands (σ β α δ : Type) where
  strand : Bool → Strand σ β α
  conf : Conf σ δ

namespace Strands

/-- The programs before their first turn. -/
def start (p : Bool → Prog σ β α) (c : Conf σ δ) : Strands σ β α δ := ⟨fun b => ⟨p b, 0⟩, c⟩

section

variable (D : Device δ β)

/-- One turn of the program `b`. -/
def turn (x : Strands σ β α δ) (b : Bool) : Strands σ β α δ where
  strand := Function.update x.strand b
    ⟨(advance D (x.strand b).prog x.conf).1, (x.strand b).made + if (x.strand b).prog.asks then 1 else 0⟩
  conf := (advance D (x.strand b).prog x.conf).2

/-- The turns of a schedule. -/
def run (schedule : List Bool) (x : Strands σ β α δ) : Strands σ β α δ := schedule.foldl (turn D) x

/-- One program has returned, and the other one has made at most `n` requests. -/
def Ahead (n : Nat) (x : Strands σ β α δ) : Prop :=
  ∃ b, (x.strand b).prog.returned.isSome ∧ (x.strand !b).made ≤ n

/-- One program has returned at a moment of the schedule at which the other one has made at most `n`
requests. -/
def OneFirst (n : Nat) (schedule : List Bool) (x : Strands σ β α δ) : Prop :=
  ∃ pre, pre <+: schedule ∧ Ahead n (run D pre x)

end

variable {D : Device δ β} {x : Strands σ β α δ} {schedule : List Bool} {n : Nat}

@[simp] theorem turn_strand_self (x : Strands σ β α δ) (b : Bool) : (turn D x b).strand b =
    ⟨(advance D (x.strand b).prog x.conf).1, (x.strand b).made + if (x.strand b).prog.asks then 1 else 0⟩ :=
  Function.update_self ..

@[simp] theorem turn_strand_not (x : Strands σ β α δ) (b : Bool) : (turn D x b).strand (!b) = x.strand !b :=
  Function.update_of_ne (by simp) _ _

theorem turn_conf (x : Strands σ β α δ) (b : Bool) : (turn D x b).conf = (advance D (x.strand b).prog x.conf).2 := rfl

@[simp] theorem run_concat (schedule : List Bool) (b : Bool) (x : Strands σ β α δ) :
    run D (schedule ++ [b]) x = turn D (run D schedule x) b := by
  simp [run]

theorem run_append (schedule schedule' : List Bool) (x : Strands σ β α δ) :
    run D (schedule ++ schedule') x = run D schedule' (run D schedule x) := List.foldl_append

/-- Turns of the program `b` alone. -/
theorem run_replicate {b : Bool} {k : Nat} {p : Prog σ β α} {c : Conf σ δ}
    (h : solo D k (x.strand b).prog x.conf = (p, c)) :
    ((run D (List.replicate k b) x).strand b).prog = p ∧ (run D (List.replicate k b) x).conf = c ∧
      (run D (List.replicate k b) x).strand (!b) = x.strand !b := by
  induction k generalizing x with
  | zero =>
    cases h
    exact ⟨rfl, rfl, rfl⟩
  | succ k ih =>
    obtain ⟨h1, h2, h3⟩ := ih (x := turn D x b) (by rw [turn_strand_self, turn_conf]; exact h)
    exact ⟨h1, h2, h3.trans (turn_strand_not x b)⟩

/-- The strands with another device. -/
def onDevice {ε : Type} (v : δ → ε) (x : Strands σ β α δ) : Strands σ β α ε := ⟨x.strand, x.conf.mem, v x.conf.dev⟩

theorem start_onDevice {ε : Type} (v : δ → ε) (p : Bool → Prog σ β α) (c : Conf σ δ) :
    (start p c).onDevice v = start p ⟨c.mem, v c.dev⟩ := rfl

section

variable {ε : Type} {E : Device ε β} {P : δ → Prop} {v : δ → ε}

/-- The same schedule on devices that answer alike. -/
theorem run_hom (h : Hom D E P v) (schedule : List Bool) (hx : P x.conf.dev) :
    run E schedule (x.onDevice v) = (run D schedule x).onDevice v ∧ P (run D schedule x).conf.dev := by
  induction schedule generalizing x with
  | nil => exact ⟨rfl, hx⟩
  | cons b schedule ih =>
    obtain ⟨h1, h2⟩ := advance_hom h (x.strand b).prog hx
    obtain ⟨h3, h4⟩ := ih (x := turn D x b) h2
    refine ⟨?_, h4⟩
    show run E schedule (turn E _ b) = _
    unfold turn onDevice at h3 ⊢
    simp only [h1]
    exact h3

theorem oneFirst_hom (h : Hom D E P v) (hx : P x.conf.dev) : OneFirst E n schedule (x.onDevice v) ↔
    OneFirst D n schedule x := by
  unfold OneFirst
  refine exists_congr fun pre => and_congr_right fun _ => ?_
  rw [(run_hom h pre hx).1]
  exact Iff.rfl

end

theorem oneFirst_concat {b : Bool} : OneFirst D n (schedule ++ [b]) x ↔ OneFirst D n schedule x ∨
    Ahead n (run D (schedule ++ [b]) x) := by
  constructor
  · rintro ⟨pre, hpre, h⟩
    rcases List.prefix_concat_iff.1 hpre with rfl | hpre
    · exact .inr h
    · exact .inl ⟨pre, hpre, h⟩
  · rintro (⟨pre, hpre, h⟩ | h)
    · exact ⟨pre, hpre.trans (List.prefix_append _ _), h⟩
    · exact ⟨_, List.prefix_rfl, h⟩

/-! ## Two programs that look first -/

theorem forall_bool_not {P : Bool → Prop} (b : Bool) (h : P b) (h' : P !b) (b' : Bool) : P b' := by
  rcases Bool.eq_or_eq_not b' b with rfl | rfl
  · exact h
  · exact h'

section

variable (D) (J : Bool → Conf σ δ → Prop) (K F : Conf σ δ → Prop) (w : Nat) (p : Bool → Prog σ β α) (c : Conf σ δ)

/-- Two programs that look at `w` blocks and decide on the next one. The program `b` relies on `J b`
while it looks; `K` is what neither changes, and `F` says that nothing is taken yet. -/
structure Racing : Prop where
  scans : ∀ b, ∃ k, Scans D (J b) (Decides D K F) w k (p b)
  relies : ∀ b c, K c → F c → J b c
  keeps : K c
  free : F c
  after : ∀ b, J (!b) (Prog.run D (p b) c).2

/-- The program `b` is still looking. -/
def Looking (b : Bool) (t : Strand σ β α) : Prop :=
  ∃ n k, Scans D (J b) (Decides D K F) n k t.prog ∧ t.made + n = w ∧ ∀ c, J b c →
    Prog.run D t.prog c = Prog.run D (p b) c

/-- The program has decided. -/
def Acting (t : Strand σ β α) : Prop := Takes D K F t.prog ∧ w < t.made

/-- Nothing is taken yet. While a program is looking, the other one runs as if alone. -/
structure Open (x : Strands σ β α δ) : Prop where
  keeps : K x.conf
  free : F x.conf
  running : ∀ b, (x.strand b).prog.returned = none
  strand : ∀ b, Looking D J K F w p b (x.strand b) ∧ Prog.run D (x.strand !b).prog x.conf = Prog.run D (p !b) c ∨
    Acting D K F w (x.strand b)

/-- The program `b` has run to its end, and the other one goes on from there. -/
def Serial (b : Bool) (x : Strands σ β α δ) : Prop :=
  (x.strand b).prog = ret (Prog.run D (p b) c).1 ∧
    Prog.run D (x.strand !b).prog x.conf = Prog.run D (p !b) (Prog.run D (p b) c).2

/-- Both have decided. -/
def Clashing (x : Strands σ β α δ) : Prop := K x.conf ∧ ∀ b, Acting D K F w (x.strand b)

end

section

variable {J : Bool → Conf σ δ → Prop} {K F : Conf σ δ → Prop} {w : Nat} {p : Bool → Prog σ β α} {c : Conf σ δ}

/-- A turn of a program that is looking. -/
theorem Looking.step {b : Bool} {t : Strand σ β α} (h : Looking D J K F w p b t) {c : Conf σ δ} (hJ : J b c) (hK : K c)
    (hF : F c) :
    let t' : Strand σ β α := ⟨(advance D t.prog c).1, t.made + if t.prog.asks then 1 else 0⟩
    (advance D t.prog c).2 = c ∧ t'.prog.returned = none ∧ (Looking D J K F w p b t' ∨ Acting D K F w t') := by
  intro t'
  obtain ⟨n, k, hscan, hmade, hrun⟩ := h
  cases hscan with
  | done hdecides =>
    obtain ⟨hasks, htake⟩ := hdecides
    obtain ⟨h1, h2, h3⟩ := htake c hK hF
    refine ⟨h1, h2, .inr ⟨h3, ?_⟩⟩
    simp only [t', hasks, ↓reduceIte]
    omega
  | @access n k _ p' hasks _ hadv hrest =>
    refine ⟨congrArg Prod.snd (hadv c hJ), ?_, .inl ⟨n, k, ?_, ?_, ?_⟩⟩
    · simp only [t', hadv c hJ, hrest.returned]
    · simp only [t', hadv c hJ, hrest]
    · simp only [t', hasks, Bool.false_eq_true, ↓reduceIte]
      exact hmade
    · intro c' hJ'
      simp only [t', hadv c hJ]
      rw [← hrun c' hJ', ← run_advance t.prog c', hadv c' hJ']
  | @request n k _ p' hasks hadv hrest =>
    refine ⟨congrArg Prod.snd (hadv c hJ), ?_, .inl ⟨n, k, ?_, ?_, ?_⟩⟩
    · simp only [t', hadv c hJ, hrest.returned]
    · simp only [t', hadv c hJ, hrest]
    · simp only [t', hasks, ↓reduceIte]
      omega
    · intro c' hJ'
      simp only [t', hadv c hJ]
      rw [← hrun c' hJ', ← run_advance t.prog c', hadv c' hJ']

/-- A turn of a program that has decided. -/
theorem Acting.step {t : Strand σ β α} (h : Acting D K F w t) {c : Conf σ δ} (hK : K c) :
    let t' : Strand σ β α := ⟨(advance D t.prog c).1, t.made + if t.prog.asks then 1 else 0⟩
    K (advance D t.prog c).2 ∧ Acting D K F w t' ∧ (F c → t'.prog.returned = none → F (advance D t.prog c).2) := by
  intro t'
  obtain ⟨prog, made⟩ := t
  obtain ⟨htakes, hmade⟩ := h
  have hmade' : w < t'.made := hmade.trans_le (Nat.le_add_right _ _)
  cases htakes with
  | ret a => exact ⟨hK, ⟨.ret a, hmade'⟩, fun hF _ => hF⟩
  | turn hkeeps hfree hrest => exact ⟨hkeeps c hK, ⟨hrest c hK, hmade'⟩, hfree c hK⟩

/-- A turn while nothing is taken. -/
theorem Open.step (h : Racing D J K F w p c) {x : Strands σ β α δ} (hx : Open D J K F w p c x) (b : Bool) :
    Open D J K F w p c (turn D x b) ∨
      (Serial D p c b (turn D x b) ∧ ((turn D x b).strand !b).made ≤ w) ∨ Clashing D K F w (turn D x b) := by
  -- what is left of a run is the same before and after the turn
  have hrun : Prog.run D ((turn D x b).strand b).prog (turn D x b).conf = Prog.run D (x.strand b).prog x.conf := by
    rw [turn_strand_self, turn_conf]
    exact run_advance _ _
  rcases hx.strand b with ⟨hlook, hsolo⟩ | hact
  · obtain ⟨hconf, hrunning, hnext⟩ := hlook.step (h.relies b _ hx.keeps hx.free) hx.keeps hx.free
    have hconf' : (turn D x b).conf = x.conf := hconf
    refine .inl ⟨by rw [hconf']; exact hx.keeps, by rw [hconf']; exact hx.free, ?_, ?_⟩
    · refine forall_bool_not b ?_ ?_
      · rw [turn_strand_self]; exact hrunning
      · rw [turn_strand_not]; exact hx.running _
    · refine forall_bool_not b ?_ ?_
      · rw [turn_strand_not, turn_strand_self, hconf']
        exact hnext.imp_left fun hlook => ⟨hlook, hsolo⟩
      · rw [Bool.not_not, hrun, turn_strand_not]
        simpa only [Bool.not_not] using hx.strand !b
  · obtain ⟨hkeeps, hact', hfree⟩ := hact.step hx.keeps
    rcases hret : (advance D (x.strand b).prog x.conf).1.returned with _ | a
    · refine .inl ⟨hkeeps, hfree hx.free hret, ?_, ?_⟩
      · refine forall_bool_not b ?_ ?_
        · rw [turn_strand_self]; exact hret
        · rw [turn_strand_not]; exact hx.running _
      · refine forall_bool_not b ?_ ?_
        · rw [turn_strand_self]; exact .inr hact'
        · rw [Bool.not_not, hrun, turn_strand_not]
          simpa only [Bool.not_not] using hx.strand !b
    · rcases hx.strand !b with ⟨⟨n, -, -, hmade, hother⟩, hsolo⟩ | hother
      · -- the other one is still looking, so this one has run alone
        rw [Bool.not_not, ← hrun, turn_strand_self, returned_eq_some.1 hret] at hsolo
        refine .inr (.inl ⟨⟨?_, ?_⟩, ?_⟩)
        · rw [turn_strand_self, ← hsolo]
          exact returned_eq_some.1 hret
        · rw [turn_strand_not, ← hother _ (h.after b), ← hsolo]
          rfl
        · rw [turn_strand_not]; omega
      · refine .inr (.inr ⟨hkeeps, forall_bool_not b ?_ ?_⟩)
        · rw [turn_strand_self]; exact hact'
        · rw [turn_strand_not]; exact hother

theorem Serial.step {b : Bool} {x : Strands σ β α δ} (hx : Serial D p c b x) (b' : Bool) :
    Serial D p c b (turn D x b') := by
  obtain ⟨h1, h2⟩ := hx
  rcases Bool.eq_or_eq_not b' b with rfl | rfl
  · refine ⟨?_, ?_⟩
    · rw [turn_strand_self, h1]; rfl
    · rw [turn_strand_not, turn_conf, h1]; exact h2
  · have hkept : (turn D x !b).strand b = x.strand b := by simpa only [Bool.not_not] using turn_strand_not x !b
    refine ⟨by rw [hkept]; exact h1, ?_⟩
    · rw [turn_strand_self, turn_conf]
      exact (run_advance _ _).trans h2

theorem Clashing.step {x : Strands σ β α δ} (hx : Clashing D K F w x) (b : Bool) : Clashing D K F w (turn D x b) := by
  obtain ⟨hkeeps, hact⟩ := hx
  obtain ⟨hkeeps', hact', -⟩ := (hact b).step hkeeps
  refine ⟨hkeeps', forall_bool_not b ?_ ?_⟩
  · rw [turn_strand_self]; exact hact'
  · rw [turn_strand_not]; exact hact _

theorem Racing.open (h : Racing D J K F w p c) : Open D J K F w p c (start p c) := by
  refine ⟨h.keeps, h.free, fun b => ?_, fun b => .inl ⟨?_, rfl⟩⟩
  · obtain ⟨k, hscan⟩ := h.scans b
    exact hscan.returned
  · obtain ⟨k, hscan⟩ := h.scans b
    exact ⟨w, k, hscan, Nat.zero_add w, fun _ _ => rfl⟩

theorem Open.not_ahead {x : Strands σ β α δ} (hx : Open D J K F w p c x) : ¬ Ahead w x := by
  rintro ⟨b, h, -⟩
  rw [hx.running b] at h
  cases h

theorem Clashing.not_ahead {x : Strands σ β α δ} (hx : Clashing D K F w x) : ¬ Ahead w x := by
  rintro ⟨b, -, h⟩
  have := (hx.2 !b).2
  omega

/-- What a schedule has led to. -/
theorem Racing.phase (h : Racing D J K F w p c) (schedule : List Bool) :
    Open D J K F w p c (run D schedule (start p c)) ∧ ¬ OneFirst D w schedule (start p c) ∨
      (∃ b, Serial D p c b (run D schedule (start p c))) ∧ OneFirst D w schedule (start p c) ∨
      Clashing D K F w (run D schedule (start p c)) ∧ ¬ OneFirst D w schedule (start p c) := by
  induction schedule using List.reverseRecOn with
  | nil =>
    refine .inl ⟨h.open, ?_⟩
    rintro ⟨pre, hpre, hahead⟩
    obtain rfl := List.prefix_nil.1 hpre
    exact h.open.not_ahead hahead
  | append_singleton schedule b ih =>
    rw [run_concat, oneFirst_concat, run_concat]
    rcases ih with ⟨hx, hnot⟩ | ⟨⟨b', hx⟩, hfirst⟩ | ⟨hx, hnot⟩
    · rcases hx.step h b with hx | ⟨hx, hmade⟩ | hx
      · exact .inl ⟨hx, not_or.2 ⟨hnot, hx.not_ahead⟩⟩
      · exact .inr (.inl ⟨⟨b, hx⟩, .inr ⟨b, by rw [hx.1]; rfl, hmade⟩⟩)
      · exact .inr (.inr ⟨hx, not_or.2 ⟨hnot, hx.not_ahead⟩⟩)
    · exact .inr (.inl ⟨⟨b', hx.step b⟩, .inl hfirst⟩)
    · exact .inr (.inr ⟨hx.step b, not_or.2 ⟨hnot, (hx.step b).not_ahead⟩⟩)

/-- When both have returned: if one returned while the other was still looking, they ran one after
the other; else both have acted on what they found. -/
theorem Racing.outcome (h : Racing D J K F w p c) (schedule : List Bool) {a : Bool → α}
    (hboth : ∀ b, ((run D schedule (start p c)).strand b).prog.returned = some (a b)) :
    (OneFirst D w schedule (start p c) → ∃ b, Prog.run D (p b) c = (a b, (Prog.run D (p b) c).2) ∧
      Prog.run D (p !b) (Prog.run D (p b) c).2 = (a !b, (run D schedule (start p c)).conf)) ∧
    (¬ OneFirst D w schedule (start p c) → K (run D schedule (start p c)).conf) := by
  rcases h.phase schedule with ⟨hx, -⟩ | ⟨⟨b, hself, hother⟩, hfirst⟩ | ⟨hx, hnot⟩
  · have := (hx.running true).symm.trans (hboth true)
    cases this
  · refine ⟨fun _ => ⟨b, ?_, ?_⟩, fun hnot => absurd hfirst hnot⟩
    · have hret := hboth b
      rw [hself] at hret
      rw [← Option.some.inj hret]
    · rw [← hother, returned_eq_some.1 (hboth !b)]
      rfl
  · exact ⟨fun hfirst => absurd hfirst hnot, fun _ => hx.1⟩

end

end Strands

end BlockIO
