/-
Interrupts at the level of registers and stacks: the processor pushes the interrupted context and goes on
where the gate of the vector says, the stub of interrupts.asm completes the frame and calls the C handler,
and its end pops a frame again, that of another thread if the timer has switched. Between the two any code
may run, with further interrupts in it, that keeps off the frames still to be popped.
-/
import SpectreOS.Cpu.Gates
import SpectreOS.Sched.Switch

namespace SpectreOS

open BlockIO

/-! ## Registers and stubs -/

/-- The registers an interrupt saves and restores. -/
@[ext]
structure Context where
  eax : Word
  ecx : Word
  edx : Word
  ebx : Word
  esp : Word
  ebp : Word
  esi : Word
  edi : Word
  eip : Word
  cs : BitVec 16
  eflags : Word
  deriving DecidableEq

/-- The instructions the stubs are made of. -/
inductive Instr where
  | pushDword (w : Word)
  | pusha
  | pushEsp
  | call (target ret : Word)
  | addEsp (n : Word)
  | movEspEax
  | popa
  | iretd

/-- `push`. -/
def Context.push (x : Context × Ram) (w : Word) : Context × Ram :=
  ({ x.1 with esp := x.1.esp - 4 }, x.2.storeWord (x.1.esp - 4) w)

/-- `popa` discards the stack pointer on the stack. -/
def exec (x : Context × Ram) : Instr → Context × Ram
  | .pushDword w => Context.push x w
  | .pusha => [x.1.eax, x.1.ecx, x.1.edx, x.1.ebx, x.1.esp, x.1.ebp, x.1.esi, x.1.edi].foldl Context.push x
  | .pushEsp => Context.push x x.1.esp
  | .call target ret =>
    let (c, r) := Context.push x ret
    ({ c with eip := target }, r)
  | .addEsp n => ({ x.1 with esp := x.1.esp + n }, x.2)
  | .movEspEax => ({ x.1 with esp := x.1.eax }, x.2)
  | .popa =>
    let (c, r) := x
    ({ c with
      edi := r.loadWord c.esp
      esi := r.loadWord (c.esp + 4)
      ebp := r.loadWord (c.esp + 8)
      ebx := r.loadWord (c.esp + 16)
      edx := r.loadWord (c.esp + 20)
      ecx := r.loadWord (c.esp + 24)
      eax := r.loadWord (c.esp + 28)
      esp := c.esp + 32 }, r)
  | .iretd =>
    let (c, r) := x
    ({ c with
      eip := r.loadWord c.esp
      cs := (r.loadWord (c.esp + 4)).setWidth 16
      eflags := r.loadWord (c.esp + 8)
      esp := c.esp + 12 }, r)

/-- The flags that an interrupt gate clears: TF, IF, NT, RF and VM. -/
abbrev gateClears : Word := 0x34300

/-- The processor takes an interrupt through a gate, without a change of ring. -/
def takeInterrupt (gate : Gate) (x : Context × Ram) : Context × Ram :=
  let (c, r) := [x.1.eflags, x.1.cs.setWidth 32, x.1.eip].foldl Context.push x
  ({ c with eip := gate.base, cs := gate.selector, eflags := c.eflags &&& ~~~gateClears }, r)

/-! ## The machine -/

/-- Where the linker has put things, and that they do not overlap. -/
structure Layout where
  entry : Stub → Word
  handler : Stub → Word
  ret : Stub → Word
  idt : Address
  threads : Address
  stackBottom : Address
  entry_injective : Function.Injective entry
  entry_ne : ∀ stub, entry stub ≠ 0
  idt_fits : idt.toNat + 2048 < 2 ^ 32
  threads_fits : threads.toNat + 32 * 4124 < 2 ^ 32
  stack_fits : stackBottom.toNat + 16384 < 2 ^ 32
  idt_threads : idt.toNat + 2048 ≤ threads.toNat ∨ threads.toNat + 32 * 4124 ≤ idt.toNat
  idt_stack : idt.toNat + 2048 ≤ stackBottom.toNat ∨ stackBottom.toNat + 16384 ≤ idt.toNat
  threads_stack : threads.toNat + 32 * 4124 ≤ stackBottom.toNat ∨ stackBottom.toNat + 16384 ≤ threads.toNat

namespace Layout

variable (L : Layout)

/-- The lowest address of a thread's stack; the bootstrap thread has that of boot.asm. -/
def low (t : Fin threadMax) : Nat := if t = 0 then L.stackBottom.toNat else L.threads.toNat + (4124 * t + 28)

/-- The end of a thread's stack. -/
def high (t : Fin threadMax) : Nat := L.low t + if t = 0 then 16384 else 4096

def stubs : List Stub := (List.finRange 32).map .isr ++ (List.finRange 16).map .irq ++ [.isr80]

/-- The stub that begins at an address. -/
def stubAt (a : Word) : Option Stub := stubs.find? fun stub => L.entry stub == a

/-- A stub as far as its call. -/
def entryCode : Stub → List Instr
  | .isr _ => []
  | .irq n =>
    [.pushDword 0, .pushDword (BitVec.ofNat 32 (32 + n)), .pusha, .pushEsp, .call (L.handler (.irq n)) (L.ret (.irq n))]
  | .isr80 => [.pusha, .pushEsp, .call (L.handler .isr80) (L.ret .isr80)]

end Layout

/-- `irq_common_stub` after the call. -/
def irqReturnCode : List Instr := [.addEsp 4, .movEspEax, .popa, .addEsp 8, .iretd]

/-- `isr80` after the call. -/
def trapReturnCode : List Instr := [.addEsp 4, .popa, .iretd]

instance neZero_vectors : NeZero 256 := ⟨by decide⟩

/-- A frame that is still to be popped: where it is, and its vector. -/
structure Frame where
  address : Address
  vector : Fin 256
  deriving DecidableEq

/-- The frame of a system call has neither interrupt number nor error code. -/
def Frame.size (f : Frame) : Nat := if f.vector = 0x80 then 44 else 52

/-- The processor, memory and the tables of the scheduler; `frames` are the frames on the stack of each
thread, the innermost first, to say what code has to keep off. -/
structure Core where
  cpu : Context
  ram : Ram
  sched : Scheduler
  timerTicks : BitVec 64
  pitTicks : Word
  frames : Fin threadMax → List Frame

/-- Frames one above the other between two addresses. -/
def Stacked : Nat → List Frame → Nat → Prop
  | low, [], high => low ≤ high
  | low, f :: fs, high => low ≤ f.address.toNat ∧ Stacked (f.address.toNat + f.size) fs high

/-- What all code leaves alone: the descriptor table, and the frames on the stacks. -/
def Core.keeps (L : Layout) (m : Core) (a : Address) : Prop :=
  L.idt.toNat ≤ a.toNat ∧ a.toNat < L.idt.toNat + 2048 ∨
    ∃ t, ∃ f ∈ m.frames t, f.address.toNat ≤ a.toNat ∧ a.toNat < f.address.toNat + f.size

instance Stacked.decidable : (low : Nat) → (fs : List Frame) → (high : Nat) → Decidable (Stacked low fs high)
  | low, [], high => inferInstanceAs (Decidable (low ≤ high))
  | low, f :: fs, high =>
    have := Stacked.decidable (f.address.toNat + f.size) fs high
    inferInstanceAs (Decidable (low ≤ f.address.toNat ∧ Stacked (f.address.toNat + f.size) fs high))

instance Core.decidableKeeps (L : Layout) (m : Core) : DecidablePred (m.keeps L) := fun _ =>
  inferInstanceAs (Decidable (_ ∨ ∃ t, ∃ f ∈ m.frames t, _ ∧ _))

/-- Decided store by store: as a statement about pairs of 40 bits it is decidable as well. -/
instance Core.decidableSpares (L : Layout) (m : Core) (stores : List (Address × Byte)) :
    Decidable (∀ x ∈ stores, ¬m.keeps L x.1) := List.decidableBAll _ stores

/-- What happens next. -/
inductive CoreEvent where
  /-- The running thread computes: the registers it comes to, and the bytes it stores. -/
  | code (cpu : Context) (stores : List (Address × Byte))
  /-- It calls a function of thread.c or scheduler.c. -/
  | call (act : SchedAct)
  /-- A device interrupts it, or it executes `int`. -/
  | interrupt (vector : Fin 256)
  /-- The C handler of its innermost frame returns, that of a system call with a result. -/
  | leave (result : Word)

/-- The end of `irq_handler`, with a pointer to the frame: the stack pointer to go on with. On the other
lines it has done its work before, as code. `pic_send_eoi` writes to ports only. -/
def irqHandler (m : Core) (regs : Address) : Word × Core :=
  if m.ram.loadWord (regs + 32) - 32 = 0 then
    let (esp, sched) := schedulerTick regs m.sched
    (esp, { m with sched, timerTicks := m.timerTicks + 1, pitTicks := m.pitTicks + 1 })
  else (regs, m)

/-- `thread_create` builds its frame in memory, at the end of the new thread's stack. -/
def Core.create (L : Layout) (m : Core) (entry : Word) : Core :=
  let sched := schedStep L.threads m.sched (.create entry)
  match firstUnused m.sched.toThreads with
  | none => { m with sched }
  | some i =>
    if entry = 0 then { m with sched }
    else
      { m with
        sched
        ram := m.ram.pushWords (stackAddress L.threads i 1024) (initialFrame entry)
        frames := Function.update m.frames i [⟨initialEsp L.threads i, 32⟩] }

/-- One event; `none` where it cannot come next. Of code it is assumed that it stores neither to the frames
that are saved nor to the descriptor table and keeps the stack pointer on its own stack, below its frames;
of an interrupt, that the stack has room for what the stub pushes. No stack overflows in a run. -/
def Core.step (L : Layout) (m : Core) (event : CoreEvent) : Option Core := do
  let t ← m.sched.currentThread
  match event with
  | .code cpu stores =>
    if L.low t ≤ cpu.esp.toNat ∧ Stacked cpu.esp.toNat (m.frames t) (L.high t) ∧ ∀ x ∈ stores, ¬m.keeps L x.1 then
      some { m with cpu, ram := stores.foldl (fun r x => r.store x.1 x.2) m.ram }
    else none
  | .call (.tick _) => none
  | .call (.create entry) => some (m.create L entry)
  | .call act => some { m with sched := schedStep L.threads m.sched act }
  | .interrupt vector =>
    let gate := gateAt m.ram (gateAddress L.idt vector)
    match L.stubAt gate.base with
    -- an exception never returns, and without a stub there is a fault
    | none | some (.isr _) => none
    | some stub =>
      if m.cpu.esp.toNat < L.low t + 60 then none
      else
        let (cpu, ram) := (L.entryCode stub).foldl exec (takeInterrupt gate (m.cpu, m.ram))
        some { m with cpu, ram, frames := Function.update m.frames t (⟨cpu.esp + 8, vector⟩ :: m.frames t) }
  | .leave result =>
    let f ← (m.frames t).head?
    if m.cpu.esp ≠ f.address - 8 then none
    else if f.vector = 0x80 then
      -- `syscall_handler` puts its result where `popa` finds EAX
      let (cpu, ram) := trapReturnCode.foldl exec
        ({ m.cpu with esp := m.cpu.esp + 4 }, m.ram.storeWord (f.address + 28) result)
      some { m with cpu, ram, frames := Function.update m.frames t (m.frames t).tail }
    else
      let (esp, m) := irqHandler m f.address
      let (cpu, ram) := irqReturnCode.foldl exec ({ m.cpu with esp := m.cpu.esp + 4, eax := esp }, m.ram)
      let next ← m.sched.currentThread
      some { m with cpu, ram, frames := Function.update m.frames next (m.frames next).tail }

def Core.run (L : Layout) (m : Core) (events : List CoreEvent) : Option Core := events.foldlM (Core.step L) m

/-- The machine once boot has set up its tables: the bootstrap thread runs, on its stack. -/
def Core.boot (L : Layout) (cpu : Context) (ram : Ram) (threads : Threads) : Core where
  cpu := cpu
  ram := idtInit L.idt L.entry ram
  sched := schedBoot threads
  timerTicks := 0
  pitTicks := 0
  frames _ := []

end SpectreOS
