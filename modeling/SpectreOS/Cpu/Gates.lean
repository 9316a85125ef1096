/-
The interrupt descriptor table (idt.c) as bytes in memory: what `idt_init` writes, and what the processor
reads of it when it looks for the handler of a vector.
-/
import SpectreOS.Lib.Stack
import SpectreOS.Sched.Thread

namespace SpectreOS

open BlockIO

/-! ## idt.c -/

/-- The stubs of interrupts.asm. -/
inductive Stub where
  | isr (n : Fin 32)
  | irq (n : Fin 16)
  | isr80
  deriving DecidableEq

/-- What a descriptor says: where to go on, in which segment, and the type and privilege of the gate. -/
@[ext]
structure Gate where
  base : Word
  selector : BitVec 16
  flags : Byte
  deriving DecidableEq

/-- An `idt_entry` in memory. -/
def Gate.image (g : Gate) : List Byte :=
  [g.base.extractLsb' 0 8, g.base.extractLsb' 8 8, g.selector.extractLsb' 0 8, g.selector.extractLsb' 8 8, 0, g.flags,
    g.base.extractLsb' 16 8, g.base.extractLsb' 24 8]

/-- What the processor makes of the eight bytes at `a`. -/
def gateAt (r : Ram) (a : Address) : Gate where
  base := r.cell (a + 7) ++ r.cell (a + 6) ++ r.cell (a + 1) ++ r.cell a
  selector := r.cell (a + 3) ++ r.cell (a + 2)
  flags := r.cell (a + 5)

/-- The address of an entry of a table at `idt`. -/
def gateAddress (idt : Address) (number : Nat) : Address := idt + BitVec.ofNat 32 (8 * number)

def idtSetGate (idt : Address) (r : Ram) (number : Nat) (base : Word) (selector : BitVec 16) (flags : Byte) : Ram :=
  r.storeBytes (gateAddress idt number) (Gate.image ⟨base, selector, flags⟩)

/-- `idt_init`; `entry` has the addresses of the stubs. -/
def idtInit (idt : Address) (entry : Stub → Word) (r : Ram) : Ram :=
  let r := (List.range 256).foldl (fun r i => idtSetGate idt r i 0 0x08 0x8E) r
  let r := (List.finRange 32).foldl (fun r (i : Fin 32) => idtSetGate idt r i (entry (.isr i)) 0x08 0x8E) r
  let r := (List.finRange 16).foldl (fun r (i : Fin 16) => idtSetGate idt r (32 + i) (entry (.irq i)) 0x08 0x8E) r
  idtSetGate idt r 0x80 (entry .isr80) 0x08 0xEE

/-! ## What the processor finds -/

/-- The stub of a vector. -/
def vectorStub (v : Nat) : Option Stub :=
  if h : v < 32 then some (.isr ⟨v, h⟩)
  else if h : v - 32 < 16 then some (.irq ⟨v - 32, h⟩)
  else if v = 0x80 then some .isr80 else none

/-- The gate of a vector: only that of the system calls can be used from ring 3, and where there is no
stub it leads to address 0. -/
def vectorGate (entry : Stub → Word) (v : Nat) : Gate where
  base := (vectorStub v).elim 0 entry
  selector := 0x08
  flags := if v = 0x80 then 0xEE else 0x8E

section

variable {r r' : Ram} {a idt : Address} {g : Gate} {n v : Nat}

theorem span_eight (a : Address) :
    Memory.span a 8 = [a, a + 1, a + 2, a + 3, a + 4, a + 5, a + 6, a + 7] := by
  simp [Memory.span, List.range_succ]

/-- A gate depends on its eight bytes. -/
theorem gateAt_congr (h : ∀ x ∈ Memory.span a 8, r'.cell x = r.cell x) : gateAt r' a = gateAt r a := by
  simp only [span_eight, List.mem_cons, List.not_mem_nil, or_false, forall_eq_or_imp, forall_eq] at h
  obtain ⟨h0, h1, h2, h3, -, h5, h6, h7⟩ := h
  rw [gateAt, gateAt, h0, h1, h2, h3, h5, h6, h7]

theorem Gate.length_image (g : Gate) : g.image.length = 8 := rfl

end

end SpectreOS
