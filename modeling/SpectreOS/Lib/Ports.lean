/-
Programs that drive a device through I/O ports, bytes and words of sixteen bits. A bus answers the
reads and takes the writes; whatever it answers, a program can be held to a script of writes
(`Follows`), and then a run writes a first part of the script. Loops that poll a status give up after
a number of tries.
-/
import SpectreOS.Lib.Bytes

namespace BlockIO

/-- A write to a port. -/
inductive PortWrite where
  | byte (port : Nat) (value : Byte)
  | word (port : Nat) (value : BitVec 16)
  deriving DecidableEq

inductive PortM (α : Type) where
  | ret (a : α)
  | inb (port : Nat) (k : Byte → PortM α)
  | inw (port : Nat) (k : BitVec 16 → PortM α)
  | out (w : PortWrite) (k : PortM α)

/-- The devices at the ports, with state `σ`. -/
structure Bus (σ : Type) where
  inb : σ → Nat → Byte × σ
  inw : σ → Nat → BitVec 16 × σ
  out : σ → PortWrite → σ

namespace PortM

variable {α β σ : Type}

def bind : PortM α → (α → PortM β) → PortM β
  | ret a, f => f a
  | inb port k, f => inb port fun v => (k v).bind f
  | inw port k, f => inw port fun v => (k v).bind f
  | out w k, f => out w (k.bind f)

instance : Monad PortM where
  pure := ret
  bind := bind

def readByte (port : Nat) : PortM Byte := inb port ret

def writeByte (port : Nat) (value : Byte) : PortM Unit := out (.byte port value) (ret ())

/-- `rep insw`: that many words. -/
def readWords (port : Nat) : Nat → PortM (List (BitVec 16))
  | 0 => pure []
  | n + 1 => inw port fun w => readWords port n >>= fun ws => pure (w :: ws)

/-- `rep outsw`. -/
def writeWords (port : Nat) : List (BitVec 16) → PortM Unit
  | [] => pure ()
  | w :: ws => out (.word port w) (writeWords port ws)

/-- Try `step` until it has an answer, at most `n` times. -/
def poll (step : PortM (Option α)) (timeout : α) : Nat → PortM α
  | 0 => pure timeout
  | n + 1 => step >>= fun r => r.elim (poll step timeout n) pure

/-! ## Running a program on a bus -/

section Run

variable (B : Bus σ)

def run : PortM α → σ → α × σ
  | ret a, s => (a, s)
  | inb port k, s => (k (B.inb s port).1).run (B.inb s port).2
  | inw port k, s => (k (B.inw s port).1).run (B.inw s port).2
  | out w k, s => k.run (B.out s w)

/-- What a run writes, in order. -/
def writes : PortM α → σ → List PortWrite
  | ret _, _ => []
  | inb port k, s => (k (B.inb s port).1).writes (B.inb s port).2
  | inw port k, s => (k (B.inw s port).1).writes (B.inw s port).2
  | out w k, s => w :: k.writes (B.out s w)

@[simp] theorem run_pure (a : α) (s : σ) : run B (pure a : PortM α) s = (a, s) := rfl

@[simp] theorem run_bind (p : PortM α) (f : α → PortM β) (s : σ) :
    run B (p >>= f) s = run B (f (run B p s).1) (run B p s).2 := by
  show run B (p.bind f) s = _
  induction p generalizing s with
  | ret a => rfl
  | inb port k ih => exact ih _ _
  | inw port k ih => exact ih _ _
  | out w k ih => exact ih _

@[simp] theorem run_readByte (port : Nat) (s : σ) : run B (readByte port) s = B.inb s port := rfl

@[simp] theorem run_writeByte (port : Nat) (v : Byte) (s : σ) :
    run B (writeByte port v) s = ((), B.out s (.byte port v)) := rfl

theorem run_poll (step : PortM (Option α)) (timeout : α) (n : Nat) (s : σ) :
    run B (poll step timeout (n + 1)) s = match run B step s with
      | (some a, s') => (a, s')
      | (none, s') => run B (poll step timeout n) s' := by
  rw [poll, run_bind]
  rcases run B step s with ⟨_ | a, s'⟩ <;> rfl

end Run

/-! ## Scripts -/

/-- Whatever the bus answers, the program writes what `script` says from the front, and ends with `Q`
of its result and of the part of the script that is left. -/
def Follows : PortM α → (α → List PortWrite → Prop) → List PortWrite → Prop
  | ret a, Q, script => Q a script
  | inb _ k, Q, script => ∀ v, (k v).Follows Q script
  | inw _ k, Q, script => ∀ v, (k v).Follows Q script
  | out w k, Q, script => ∃ rest, script = w :: rest ∧ k.Follows Q rest

theorem Follows.mono {p : PortM α} {Q R : α → List PortWrite → Prop} {script : List PortWrite} (h : p.Follows Q script)
    (hQR : ∀ a rest, Q a rest → R a rest) : p.Follows R script := by
  induction p generalizing script with
  | ret a => exact hQR _ _ h
  | inb port k ih => exact fun v => ih v (h v)
  | inw port k ih => exact fun v => ih v (h v)
  | out w k ih =>
    obtain ⟨rest, he, h⟩ := h
    exact ⟨rest, he, ih h⟩

@[simp] theorem follows_pure (a : α) (Q : α → List PortWrite → Prop) (script : List PortWrite) :
    (pure a : PortM α).Follows Q script ↔ Q a script := Iff.rfl

@[simp] theorem follows_bind (p : PortM α) (f : α → PortM β) (Q : β → List PortWrite → Prop) (script : List PortWrite) :
    (p >>= f).Follows Q script ↔ p.Follows (fun a rest => (f a).Follows Q rest) script := by
  show (p.bind f).Follows Q script ↔ _
  induction p generalizing script with
  | ret a => exact Iff.rfl
  | inb port k ih => exact forall_congr' fun v => ih v script
  | inw port k ih => exact forall_congr' fun v => ih v script
  | out w k ih => exact exists_congr fun rest => and_congr_right fun _ => ih rest

@[simp] theorem follows_readByte (port : Nat) (Q : Byte → List PortWrite → Prop) (script : List PortWrite) :
    (readByte port).Follows Q script ↔ ∀ v, Q v script := Iff.rfl

@[simp] theorem follows_writeByte (port : Nat) (v : Byte) (Q : Unit → List PortWrite → Prop) (script : List PortWrite) :
    (writeByte port v).Follows Q script ↔ ∃ rest, script = .byte port v :: rest ∧ Q () rest := Iff.rfl

@[simp] theorem follows_writeByte_cons (port : Nat) (v : Byte) (Q : Unit → List PortWrite → Prop)
    (rest : List PortWrite) :
    (writeByte port v).Follows Q (.byte port v :: rest) ↔ Q () rest := by
  rw [follows_writeByte]
  exact ⟨fun ⟨_, he, h⟩ => (List.cons.inj he).2 ▸ h, fun h => ⟨rest, rfl, h⟩⟩

@[simp] theorem follows_readWords (port n : Nat) (Q : List (BitVec 16) → List PortWrite → Prop)
    (script : List PortWrite) :
    (readWords port n).Follows Q script ↔ ∀ ws, ws.length = n → Q ws script := by
  induction n generalizing Q with
  | zero => exact ⟨fun h ws hws => List.eq_nil_of_length_eq_zero hws ▸ h, fun h => h [] rfl⟩
  | succ n ih =>
    have hnext : (readWords port (n + 1)).Follows Q script ↔
        ∀ w, (readWords port n >>= fun ws => pure (w :: ws)).Follows Q script := Iff.rfl
    simp only [hnext, follows_bind, follows_pure, ih]
    constructor
    · intro h ws hws
      cases ws with
      | nil => cases hws
      | cons w ws => exact h w ws (Nat.succ.inj hws)
    · exact fun h w ws hws => h (w :: ws) (by rw [List.length_cons, hws])

@[simp] theorem follows_writeWords (port : Nat) (ws : List (BitVec 16)) (Q : Unit → List PortWrite → Prop)
    (rest : List PortWrite) : (writeWords port ws).Follows Q (ws.map (.word port) ++ rest) ↔ Q () rest := by
  induction ws with
  | nil => exact Iff.rfl
  | cons w ws ih =>
    constructor
    · rintro ⟨_, he, h⟩
      obtain ⟨-, rfl⟩ := List.cons.inj he
      exact ih.1 h
    · exact fun h => ⟨_, rfl, ih.2 h⟩

/-- A loop whose tries write nothing. -/
theorem follows_poll {step : PortM (Option α)} {timeout : α} {n : Nat} {Q : α → List PortWrite → Prop}
    {script : List PortWrite} (hstep : step.Follows (fun r rest => rest = script ∧ ∀ a ∈ r, Q a script) script)
    (htimeout : Q timeout script) : (poll step timeout n).Follows Q script := by
  induction n with
  | zero => exact htimeout
  | succ n ih =>
    rw [poll, follows_bind]
    refine hstep.mono fun r rest hr => ?_
    obtain ⟨rfl, hr⟩ := hr
    cases r with
    | none => exact ih
    | some a => exact hr a rfl

/-- On any bus, what the program has written and what is left make up the script. -/
theorem Follows.writes {p : PortM α} {Q : α → List PortWrite → Prop} {script : List PortWrite} (h : p.Follows Q script)
    (B : Bus σ) (s : σ) : ∃ rest, script = p.writes B s ++ rest ∧ Q (p.run B s).1 rest := by
  induction p generalizing script s with
  | ret a => exact ⟨script, rfl, h⟩
  | inb port k ih => exact ih _ (h _) _
  | inw port k ih => exact ih _ (h _) _
  | out w k ih =>
    obtain ⟨rest, rfl, h⟩ := h
    obtain ⟨rest', he, hQ⟩ := ih h (B.out s w)
    exact ⟨rest', congrArg (w :: ·) he, hQ⟩

end PortM

end BlockIO
