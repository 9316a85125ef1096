/-
What interrupts and context switches amount to: a bank of register files. Each thread has the contexts it
was interrupted in, the innermost first; an interrupt puts the registers there, and when a handler returns
the thread that the scheduler has made current takes its innermost context back. The machine with its one
memory full of stacks follows the bank in every run.
-/
import SpectreOS.Cpu.Interrupt

namespace SpectreOS

open BlockIO

/-! ## The bank -/

/-- The running thread's registers, and what each thread has suspended, with the vectors that did it. -/
structure Bank where
  cpu : Context
  suspended : Fin threadMax → List (Fin 256 × Context)

/-- The registers with which a handler starts. -/
def handlerContext (L : Layout) (stub : Stub) (c : Context) : Context :=
  { c with
    esp := c.esp - (if stub = .isr80 then 52 else 60)
    eip := L.handler stub
    cs := 0x08
    eflags := c.eflags &&& ~~~gateClears }

/-- The registers with which a thread starts, at the end of its stack. -/
def freshContext (L : Layout) (t : Fin threadMax) (entry : Word) : Context where
  eax := 0
  ecx := 0
  edx := 0
  ebx := 0
  esp := stackAddress L.threads t 1024
  ebp := 0
  esi := 0
  edi := 0
  eip := entry
  cs := 0x08
  eflags := initialEflags

/-- What an event does to the bank, given the scheduler's tables before and after it. -/
def Bank.step (L : Layout) (before after : Threads) (b : Bank) : CoreEvent → Option Bank
  | .code cpu _ => some { b with cpu }
  | .call (.create entry) =>
    match firstUnused before with
    | none => some b
    | some i =>
      if entry = 0 then some b
      else some { b with suspended := Function.update b.suspended i [(32, freshContext L i entry)] }
  | .call _ => some b
  | .interrupt vector => do
    let t ← before.currentThread
    let stub ← vectorStub vector
    some ⟨handlerContext L stub b.cpu, Function.update b.suspended t ((vector, b.cpu) :: b.suspended t)⟩
  | .leave result => do
    let t ← after.currentThread
    let (vector, c) ← (b.suspended t).head?
    some ⟨if vector = 0x80 then { c with eax := result } else c, Function.update b.suspended t (b.suspended t).tail⟩

/-- The bank beside the machine. -/
def Bank.run (L : Layout) : Core → List CoreEvent → Bank → Option Bank
  | _, [], b => some b
  | m, event :: events, b => do
    let m' ← m.step L event
    Bank.run L m' events (← b.step L m.sched.toThreads m'.sched.toThreads event)

/-! ## Frames in memory -/

/-- The words of a frame, from its address upwards; POPA skips the fourth. -/
def frameImage (vector : Fin 256) (c : Context) (skipped : Word) : List Word :=
  [c.edi, c.esi, c.ebp, skipped, c.ebx, c.edx, c.ecx, c.eax] ++
    ((if vector = 0x80 then [] else [BitVec.ofNat 32 vector, 0]) ++ [c.eip, c.cs.setWidth 32, c.eflags])

/-- The frame in memory is that of the context. -/
structure FrameHolds (r : Ram) (f : Frame) (e : Fin 256 × Context) : Prop where
  vector : f.vector = e.1
  esp : e.2.esp = f.address + BitVec.ofNat 32 f.size
  image : ∃ skipped, r.words f.address (f.size / 4) = frameImage e.1 e.2 skipped

/-- The registers that the end of a stub pops at `a`; what IRET takes begins `above` it. -/
def popFrame (r : Ram) (a : Address) (above : Word) : Context where
  edi := r.loadWord a
  esi := r.loadWord (a + 4)
  ebp := r.loadWord (a + 8)
  ebx := r.loadWord (a + 16)
  edx := r.loadWord (a + 20)
  ecx := r.loadWord (a + 24)
  eax := r.loadWord (a + 28)
  eip := r.loadWord (a + above)
  cs := (r.loadWord (a + (above + 4))).setWidth 16
  eflags := r.loadWord (a + (above + 8))
  esp := a + (above + 12)

section Code

variable (L : Layout) (c : Context) (r : Ram) (gate : Gate)

/-- The stub of a hardware interrupt has a whole frame on the stack when it calls, and two words more. -/
theorem irq_entry (n : Fin 16) : (L.entryCode (.irq n)).foldl exec (takeInterrupt gate (c, r)) =
    ({ c with
        esp := c.esp - 60
        eip := L.handler (.irq n)
        cs := gate.selector
        eflags := c.eflags &&& ~~~gateClears },
      (r.pushWords c.esp [c.eflags, c.cs.setWidth 32, c.eip, 0, BitVec.ofNat 32 (32 + n), c.eax, c.ecx, c.edx, c.ebx,
        c.esp - 20, c.ebp, c.esi, c.edi]).pushWords (c.esp - 52) [c.esp - 52, L.ret (.irq n)]) := by
  simp only [Layout.entryCode, takeInterrupt, List.foldl, exec, Context.push, Memory.pushWords, BitVec.sub_sub,
    BitVec.reduceAdd]
  rfl

/-- That of a system call leaves out two words. -/
theorem trap_entry : (L.entryCode .isr80).foldl exec (takeInterrupt gate (c, r)) =
    ({ c with
        esp := c.esp - 52
        eip := L.handler .isr80
        cs := gate.selector
        eflags := c.eflags &&& ~~~gateClears },
      (r.pushWords c.esp [c.eflags, c.cs.setWidth 32, c.eip, c.eax, c.ecx, c.edx, c.ebx, c.esp - 12, c.ebp, c.esi,
        c.edi]).pushWords (c.esp - 44) [c.esp - 44, L.ret .isr80]) := by
  simp only [Layout.entryCode, takeInterrupt, List.foldl, exec, Context.push, Memory.pushWords, BitVec.sub_sub,
    BitVec.reduceAdd]
  rfl

theorem irq_return : irqReturnCode.foldl exec (c, r) = (popFrame r c.eax 40, r) := by
  simp only [irqReturnCode, List.foldl, exec, popFrame, BitVec.add_assoc, BitVec.reduceAdd]
  rfl

theorem trap_return : trapReturnCode.foldl exec (c, r) = (popFrame r (c.esp + 4) 32, r) := by
  simp only [trapReturnCode, List.foldl, exec, popFrame, BitVec.add_assoc, BitVec.reduceAdd]

end Code

section Frames

variable {r r' : Ram} {f : Frame} {v : Fin 256} {c : Context}

theorem loadWord_of_words {a : Address} {n k : Nat} {ws : List Word} {w : Word} (h : r.words a n = ws)
    (hk : ws[k]? = some w) :
    r.loadWord (a + BitVec.ofNat 32 (4 * k)) = w := by
  rw [← h, Memory.words, List.getElem?_map] at hk
  obtain ⟨j, hj, rfl⟩ := Option.map_eq_some_iff.1 hk
  obtain ⟨-, rfl⟩ := List.getElem?_eq_some_iff.1 hj
  rw [List.getElem_range]

/-- The end of a stub brings back the context whose frame it pops. -/
theorem FrameHolds.pop (h : FrameHolds r f (v, c)) : popFrame r f.address (if v = 0x80 then 32 else 40) = c := by
  obtain ⟨hvector, hesp, skipped, himage⟩ := h
  simp only at hvector hesp himage
  have h0 : r.loadWord (f.address + 0) = c.edi := loadWord_of_words himage (k := 0) rfl
  rw [show f.address + 0 = f.address from BitVec.add_zero _] at h0
  have hcs : (c.cs.setWidth 32).setWidth 16 = c.cs := by simp
  by_cases hv : v = 0x80
  · rw [if_pos hv]
    have hsize : f.size = 44 := if_pos (hvector.trans hv)
    rw [frameImage, if_pos hv] at himage
    rw [hsize] at hesp
    refine Context.ext (loadWord_of_words himage (k := 7) rfl) (loadWord_of_words himage (k := 6) rfl)
      (loadWord_of_words himage (k := 5) rfl) (loadWord_of_words himage (k := 4) rfl) hesp.symm
      (loadWord_of_words himage (k := 2) rfl) (loadWord_of_words himage (k := 1) rfl) h0
      (loadWord_of_words himage (k := 8) rfl) ?_ (loadWord_of_words himage (k := 10) rfl)
    exact (congrArg _ (loadWord_of_words himage (k := 9) rfl)).trans hcs
  · rw [if_neg hv]
    have hsize : f.size = 52 := if_neg (hvector ▸ hv)
    rw [frameImage, if_neg hv] at himage
    rw [hsize] at hesp
    refine Context.ext (loadWord_of_words himage (k := 7) rfl) (loadWord_of_words himage (k := 6) rfl)
      (loadWord_of_words himage (k := 5) rfl) (loadWord_of_words himage (k := 4) rfl) hesp.symm
      (loadWord_of_words himage (k := 2) rfl) (loadWord_of_words himage (k := 1) rfl) h0
      (loadWord_of_words himage (k := 10) rfl) ?_ (loadWord_of_words himage (k := 12) rfl)
    exact (congrArg _ (loadWord_of_words himage (k := 11) rfl)).trans hcs

theorem length_frameImage (v : Fin 256) (c : Context) (skipped : Word) :
    (frameImage v c skipped).length = if v = 0x80 then 11 else 13 := by
  unfold frameImage
  split <;> rfl

theorem Frame.size_le (f : Frame) : f.size ≤ 52 := by
  unfold Frame.size
  split <;> decide

/-- The addresses of a frame. -/
def Frame.covers (f : Frame) (a : Address) : Prop :=
  f.address.toNat ≤ a.toNat ∧ a.toNat < f.address.toNat + f.size

/-- A frame depends on its own bytes. -/
theorem FrameHolds.congr (h : FrameHolds r f (v, c)) (hfits : f.address.toNat + f.size ≤ 2 ^ 32)
    (hsame : ∀ a, f.covers a → r'.cell a = r.cell a) : FrameHolds r' f (v, c) := by
  obtain ⟨hvector, hesp, skipped, himage⟩ := h
  refine ⟨hvector, hesp, skipped, ?_⟩
  rw [← himage]
  have hsize : 4 * (f.size / 4) = f.size := by
    unfold Frame.size
    split <;> rfl
  refine Memory.words_congr (fun a ha => hsame a ?_) (by rw [hsize]; omega)
  rw [hsize] at ha
  exact (Memory.mem_span_iff _ hfits).1 ha

/-! ## Frames on one stack -/

variable {low low' high : Nat} {fs : List Frame} {es : List (Fin 256 × Context)}

theorem Stacked.le (h : Stacked low fs high) : low ≤ high := by
  induction fs generalizing low with
  | nil => exact h
  | cons f fs ih =>
    have := h.1
    have := ih h.2
    omega

theorem Stacked.mono (h : Stacked low fs high) (hle : low' ≤ low) : Stacked low' fs high := by
  cases fs with
  | nil => exact hle.trans h
  | cons f fs => exact ⟨hle.trans h.1, h.2⟩

theorem Stacked.inside (h : Stacked low fs high) (hf : f ∈ fs) : low ≤ f.address.toNat ∧
    f.address.toNat + f.size ≤ high := by
  induction fs generalizing low with
  | nil => cases hf
  | cons g fs ih =>
    rcases List.mem_cons.1 hf with rfl | hf
    · exact ⟨h.1, h.2.le⟩
    · have := ih h.2 hf
      have := h.1
      omega

theorem held_congr (hfits : ∀ f ∈ fs, f.address.toNat + f.size ≤ 2 ^ 32)
    (hsame : ∀ f ∈ fs, ∀ a, f.covers a → r'.cell a = r.cell a) (h : List.Forall₂ (FrameHolds r) fs es) :
    List.Forall₂ (FrameHolds r') fs es := by
  induction h with
  | nil => exact .nil
  | cons hhead _ ih =>
    rw [List.forall_mem_cons] at hfits hsame
    exact .cons (hhead.congr hfits.1 hsame.1) (ih hfits.2 hsame.2)

theorem forall₂_update {frames : Fin threadMax → List Frame} {suspended : Fin threadMax → List (Fin 256 × Context)}
    {t : Fin threadMax} (hrest : List.Forall₂ (FrameHolds r) fs es)
    (hheld : ∀ u, u ≠ t → List.Forall₂ (FrameHolds r) (frames u) (suspended u)) (u : Fin threadMax) :
    List.Forall₂ (FrameHolds r) (Function.update frames t fs u) (Function.update suspended t es u) := by
  by_cases hut : u = t
  · subst hut
    rwa [Function.update_self, Function.update_self]
  · rw [Function.update_of_ne hut, Function.update_of_ne hut]
    exact hheld u hut

theorem stacked_update {L : Layout} {frames : Fin threadMax → List Frame} {t : Fin threadMax}
    (hfs : Stacked (L.low t) fs (L.high t)) (hstacked : ∀ u, Stacked (L.low u) (frames u) (L.high u))
    (u : Fin threadMax) :
    Stacked (L.low u) (Function.update frames t fs u) (L.high u) := by
  by_cases hut : u = t
  · subst hut
    rwa [Function.update_self]
  · rw [Function.update_of_ne hut]
    exact hstacked u

end Frames

section Layout

variable (L : Layout)

theorem Layout.high_lt (t : Fin threadMax) : L.high t < 2 ^ 32 := by
  have := L.threads_fits
  have := L.stack_fits
  have : t.val < 32 := t.isLt
  unfold Layout.high Layout.low
  split <;> omega

/-- Two threads' stacks do not meet, and none of them meets the descriptor table. -/
theorem Layout.apart {t u : Fin threadMax} (h : t ≠ u) : L.high t ≤ L.low u ∨ L.high u ≤ L.low t := by
  have := L.threads_stack
  have ht : t.val < 32 := t.isLt
  have hu : u.val < 32 := u.isLt
  have hne : t.val ≠ u.val := fun e => h (Fin.ext e)
  unfold Layout.high Layout.low
  by_cases h0 : t = 0
  · rw [if_pos h0, if_pos h0, if_neg (h0 ▸ h.symm), if_neg (h0 ▸ h.symm)]
    omega
  · by_cases h1 : u = 0
    · rw [if_pos h1, if_pos h1, if_neg h0, if_neg h0]
      omega
    · rw [if_neg h0, if_neg h0, if_neg h1, if_neg h1]
      omega

theorem Layout.apart_idt (t : Fin threadMax) : L.idt.toNat + 2048 ≤ L.low t ∨ L.high t ≤ L.idt.toNat := by
  have := L.idt_threads
  have := L.idt_stack
  have : t.val < 32 := t.isLt
  unfold Layout.high Layout.low
  split <;> omega

end Layout

/-! ## The machine follows the bank -/

/-- The bank has the registers of the machine, and on its stacks the machine has the frames of the contexts
that the bank has suspended. -/
structure Core.Follows (L : Layout) (m : Core) (b : Bank) : Prop where
  cpu : b.cpu = m.cpu
  coherent : Coherent m.sched.toThreads
  gates : ∀ v < 256, gateAt m.ram (gateAddress L.idt v) = vectorGate L.entry v
  held : ∀ t, List.Forall₂ (FrameHolds m.ram) (m.frames t) (b.suspended t)
  stacked : ∀ t, Stacked (L.low t) (m.frames t) (L.high t)
  running : ∀ t, m.sched.currentThread = some t →
    L.low t ≤ m.cpu.esp.toNat ∧ Stacked m.cpu.esp.toNat (m.frames t) (L.high t)
  waiting : ∀ t, m.sched.currentThread ≠ some t → m.sched.states t ≠ .unused →
    ∃ f fs, m.frames t = f :: fs ∧ f.address = m.sched.esps t ∧ f.vector ≠ 0x80
  unused : ∀ t, m.sched.states t = .unused → m.frames t = []

section Follows

variable {L : Layout} {m : Core} {b : Bank}

/-- Below the frames of a stack nothing is kept. -/
theorem Core.Follows.free (h : m.Follows L b) {t : Fin threadMax} {limit : Nat} {a : Address}
    (hst : Stacked limit (m.frames t) (L.high t)) (hlow : L.low t ≤ a.toNat) (hlimit : a.toNat < limit) :
    ¬m.keeps L a := by
  have hhigh := hst.le
  rintro (⟨h1, h2⟩ | ⟨u, f, hf, h1, h2⟩)
  · have := L.apart_idt t
    omega
  · by_cases hu : u = t
    · have := hst.inside (hu ▸ hf)
      omega
    · have := (h.stacked u).inside hf
      have := L.apart hu
      omega

theorem Core.Follows.fits (h : m.Follows L b) {t : Fin threadMax} {f : Frame} (hf : f ∈ m.frames t) :
    f.address.toNat + f.size ≤ 2 ^ 32 := by
  have := (h.stacked t).inside hf
  have := L.high_lt t
  omega

theorem mem_span_gate {v : Nat} (hv : v < 256) {a : Address} (ha : a ∈ Memory.span (gateAddress L.idt v) 8) :
    L.idt.toNat ≤ a.toNat ∧ a.toNat < L.idt.toNat + 2048 := by
  have hfits := L.idt_fits
  have hstart : (gateAddress L.idt v).toNat = L.idt.toNat + 8 * v := by
    unfold gateAddress
    rw [BitVec.toNat_add, BitVec.toNat_ofNat]
    omega
  rw [Memory.mem_span_iff _ (by omega)] at ha
  omega

/-- What leaves the kept addresses alone leaves the gates and all frames alone. -/
theorem Core.Follows.undisturbed (h : m.Follows L b) {r : Ram} (hr : ∀ a, m.keeps L a → r.cell a = m.ram.cell a) :
    (∀ v < 256, gateAt r (gateAddress L.idt v) = vectorGate L.entry v) ∧
      ∀ t, List.Forall₂ (FrameHolds r) (m.frames t) (b.suspended t) := by
  refine ⟨fun v hv => ?_, fun t => ?_⟩
  · rw [← h.gates v hv]
    exact gateAt_congr fun a ha => hr a (.inl (mem_span_gate hv ha))
  · exact held_congr (fun f hf => h.fits hf) (fun f hf a ha => hr a (.inr ⟨t, f, hf, ha⟩)) (h.held t)

theorem stores_outside {stores : List (Address × Byte)} {r : Ram} {a : Address} (h : ∀ x ∈ stores, x.1 ≠ a) :
    (stores.foldl (fun r x => r.store x.1 x.2) r).cell a = r.cell a := by
  induction stores generalizing r with
  | nil => rfl
  | cons x stores ih =>
    rw [List.forall_mem_cons] at h
    rw [List.foldl_cons, ih h.2, Memory.store_cell_of_ne _ _ (Ne.symm h.1)]

/-! ### Code and calls -/

theorem Core.Follows.code (h : m.Follows L b) {cpu : Context} {stores : List (Address × Byte)} {m' : Core}
    (hstep : m.step L (.code cpu stores) = some m') :
    ∃ b', b.step L m.sched.toThreads m'.sched.toThreads (.code cpu stores) = some b' ∧ m'.Follows L b' := by
  obtain ⟨t, ht, hstep⟩ := Option.bind_eq_some_iff.1 hstep
  simp only at hstep
  split at hstep
  · rename_i hok
    obtain ⟨hlow, hstacked, hstores⟩ := hok
    obtain rfl := Option.some_inj.1 hstep
    obtain ⟨hgates, hheld⟩ := h.undisturbed (r := stores.foldl (fun r x => r.store x.1 x.2) m.ram)
      fun a ha => stores_outside fun x hx e => hstores x hx (e ▸ ha)
    refine ⟨_, rfl, rfl, h.coherent, hgates, hheld, h.stacked, fun u hu => ?_, h.waiting, h.unused⟩
    obtain rfl := Option.some_inj.1 (ht.symm.trans hu)
    exact ⟨hlow, hstacked⟩
  · cases hstep

theorem Coherent.used {s : Threads} (h : Coherent s) {t : Fin threadMax} (ht : s.currentThread = some t) :
    s.states t ≠ .unused := by
  obtain ⟨c, hc, hused⟩ := h.current
  obtain rfl := Option.some_inj.1 (hc.symm.trans ht)
  exact hused

/-- Only the timer takes the processor from a thread. -/
theorem Moves.current {base : Word} {s s' : Threads} {act : SchedAct} (h : Coherent s) (hm : Moves base s s' act)
    (hact : ∀ esp, act ≠ .tick esp) : s'.currentThread = s.currentThread := by
  obtain ⟨c, hc, -⟩ := h.current
  by_contra hne
  exact hact _ (hm.preempted hc fun e => hne (e.trans hc.symm))

/-- Calls that neither create a thread nor switch leave stacks and contexts alone. -/
theorem Core.Follows.act (h : m.Follows L b) {act : SchedAct} (htick : ∀ esp, act ≠ .tick esp)
    (hcreate : ∀ entry, act ≠ .create entry) :
    Core.Follows L { m with sched := schedStep L.threads m.sched act } b := by
  have hmoves := @schedStep_moves L.threads _ h.coherent act
  have hcurrent := hmoves.current h.coherent htick
  have hkept : ∀ t, m.sched.currentThread ≠ some t →
      (schedStep L.threads m.sched act).esps t = m.sched.esps t ∧
        (m.sched.states t = .unused → (schedStep L.threads m.sched act).states t = .unused) := by
    intro t ht
    rcases hmoves.esps_of_ne ht with hsame | ⟨⟨entry, hentry⟩, -⟩
    · exact hsame
    · exact absurd hentry (hcreate entry)
  refine ⟨h.cpu, h.coherent.moves hmoves, h.gates, h.held, h.stacked, fun t ht => ?_,
    fun t ht hused => ?_, fun t ht => ?_⟩
  · exact h.running t (hcurrent ▸ ht)
  · rw [hcurrent] at ht
    obtain ⟨hesp, hunused⟩ := hkept t ht
    obtain ⟨f, fs, hframes, hf, hvector⟩ := h.waiting t ht fun e => hused (hunused e)
    exact ⟨f, fs, hframes, hf.trans hesp.symm, hvector⟩
  · exact h.unused t (h.coherent.unused hmoves ht).1

theorem pushed_initialFrame (L : Layout) (t : Fin threadMax) :
    Memory.pushed (stackAddress L.threads t 1024) 13 = initialEsp L.threads t := by
  unfold Memory.pushed initialEsp stackAddress
  bv_omega

theorem toNat_initialEsp (L : Layout) {t : Fin threadMax} (ht : t ≠ 0) :
    (initialEsp L.threads t).toNat + 52 = L.high t ∧ L.low t ≤ (initialEsp L.threads t).toNat := by
  have := L.threads_fits
  have : t.val < 32 := t.isLt
  unfold initialEsp stackAddress Layout.high Layout.low
  rw [if_neg ht, if_neg ht, BitVec.toNat_add, BitVec.toNat_ofNat]
  omega

/-- The first frame of a thread leads to its entry, with all registers zero. -/
theorem initialFrame_holds (L : Layout) (r : Ram) (t : Fin threadMax) (entry : Word) :
    FrameHolds (r.pushWords (stackAddress L.threads t 1024) (initialFrame entry)) ⟨initialEsp L.threads t, 32⟩
      (32, freshContext L t entry) := by
  refine ⟨rfl, ?_, 0, ?_⟩
  · show stackAddress L.threads t 1024 = initialEsp L.threads t + 52#32
    rw [← pushed_initialFrame]
    unfold Memory.pushed
    bv_omega
  · have hwords := @Memory.words_pushWords r (stackAddress L.threads t 1024) (initialFrame entry)
      (show 4 * 13 ≤ _ by decide)
    have himage : (initialFrame entry).reverse = frameImage 32 (freshContext L t entry) 0 := by
      simp [initialFrame, frameImage, freshContext]
    rw [show (initialFrame entry).length = 13 from rfl, pushed_initialFrame] at hwords
    have hsize : (Frame.mk (initialEsp L.threads t) 32).size = 52 := rfl
    rw [hsize]
    exact hwords.trans himage

theorem firstUnused_spec {s : Threads} {i : Fin threadMax} (h : firstUnused s = some i) :
    i ≠ 0 ∧ s.states i = .unused := by
  have hunused := List.find?_some h
  refine ⟨?_, by simpa [Threads.states] using hunused⟩
  rintro rfl
  have hmem := List.mem_of_find?_eq_some h
  revert hmem
  decide

/-- What creating a thread changes in the scheduler's table. -/
theorem schedStep_create {L : Layout} {s : Scheduler} {entry : Word} {i : Fin threadMax} (hentry : entry ≠ 0)
    (hi : firstUnused s.toThreads = some i) :
    (schedStep L.threads s (.create entry)).states = Function.update s.states i .ready ∧
      (schedStep L.threads s (.create entry)).esps = Function.update s.esps i (initialEsp L.threads i) ∧
      (schedStep L.threads s (.create entry)).currentThread = s.currentThread := by
  have hcreated : (threadCreate L.threads entry s.toThreads).2 =
      { s.toThreads.setThread i (buildInitialStack L.threads i
          { s.threads i with id := i + 1, state := .ready, switches := 0, runs := 0 } entry) with
        threadCount := s.threadCount + 1 } := by
    unfold threadCreate
    rw [if_neg hentry, hi]
  refine ⟨?_, ?_, ?_⟩
  · show Threads.states (threadCreate L.threads entry s.toThreads).2 = _
    rw [hcreated]
    exact Threads.states_setThread ..
  · show Threads.esps (threadCreate L.threads entry s.toThreads).2 = _
    rw [hcreated]
    exact Threads.esps_setThread ..
  · show (threadCreate L.threads entry s.toThreads).2.currentThread = _
    rw [hcreated]
    rfl

/-- The new thread's stack is empty, so its frame disturbs nothing. -/
theorem Core.Follows.keeps_create (h : m.Follows L b) {entry : Word} {i : Fin threadMax}
    (hi : firstUnused m.sched.toThreads = some i) {a : Address} (ha : m.keeps L a) :
    (m.ram.pushWords (stackAddress L.threads i 1024) (initialFrame entry)).cell a = m.ram.cell a := by
  obtain ⟨hi0, hunused⟩ := firstUnused_spec hi
  obtain ⟨hend, hlow⟩ := toNat_initialEsp L hi0
  refine Memory.pushWords_outside (show 4 * 13 ≤ _ by decide) fun hmem => ?_
  have hhigh := L.high_lt i
  rw [show (initialFrame entry).length = 13 from rfl, pushed_initialFrame, Memory.mem_span_iff _ (by omega)] at hmem
  have hempty : Stacked (L.high i) (m.frames i) (L.high i) := by
    rw [h.unused i hunused]
    exact Nat.le_refl _
  exact h.free hempty (by omega) (by omega) ha

theorem Core.Follows.create (h : m.Follows L b) (entry : Word) :
    ∃ b', b.step L m.sched.toThreads (m.create L entry).sched.toThreads (.call (.create entry)) = some b' ∧
      (m.create L entry).Follows L b' := by
  have hnone : (threadCreate L.threads entry m.sched.toThreads).2 = m.sched.toThreads →
      Core.Follows L { m with sched := schedStep L.threads m.sched (.create entry) } b := by
    intro hsame
    have hsched : schedStep L.threads m.sched (.create entry) = m.sched := by
      show ({ m.sched with toThreads := (threadCreate L.threads entry m.sched.toThreads).2 } : Scheduler) = _
      rw [hsame]
    rw [hsched]
    exact h
  unfold Bank.step Core.create
  cases hi : firstUnused m.sched.toThreads with
  | none =>
    refine ⟨b, rfl, hnone ?_⟩
    unfold threadCreate
    rw [hi]
    split <;> rfl
  | some i =>
    by_cases hentry : entry = 0
    · simp only [hentry, if_true]
      refine ⟨b, rfl, hentry ▸ hnone ?_⟩
      unfold threadCreate
      rw [if_pos hentry]
    · simp only [hentry, if_false]
      refine ⟨_, rfl, ?_⟩
      obtain ⟨hi0, hunused⟩ := firstUnused_spec hi
      obtain ⟨hend, hlow⟩ := toNat_initialEsp L hi0
      obtain ⟨c, hc, hcused⟩ := h.coherent.current
      have hci : c ≠ i := fun e => hcused (e ▸ hunused)
      obtain ⟨hgates, hheld⟩ := h.undisturbed fun a => h.keeps_create hi
      obtain ⟨hstates, hesps, hcurrent⟩ := schedStep_create (L := L) hentry hi
      refine ⟨h.cpu, h.coherent.moves (schedStep_moves h.coherent _), hgates,
        forall₂_update (.cons (initialFrame_holds L m.ram i entry) .nil) fun u _ => hheld u,
        stacked_update ⟨hlow, hend.le⟩ h.stacked, fun t ht => ?_, fun t ht hused => ?_, fun t ht => ?_⟩
      · simp only at ht
        rw [hcurrent] at ht
        have hti : t ≠ i := fun e => hci ((Option.some_inj.1 (hc.symm.trans ht)).trans e)
        simp only [Function.update_of_ne hti]
        exact h.running t ht
      · simp only at ht hused
        rw [hcurrent] at ht
        rw [hstates] at hused
        simp only [hesps]
        by_cases hti : t = i
        · subst hti
          simp only [Function.update_self]
          exact ⟨_, _, rfl, rfl, show (32 : Fin 256) ≠ 0x80 by decide⟩
        · simp only [Function.update_of_ne hti] at hused ⊢
          exact h.waiting t ht hused
      · simp only at ht
        rw [hstates] at ht
        by_cases hti : t = i
        · rw [hti, Function.update_self] at ht
          cases ht
        · rw [Function.update_of_ne hti] at ht
          simp only [Function.update_of_ne hti]
          exact h.unused t ht

/-! ### Interrupts -/

theorem Layout.stubAt_entry (L : Layout) (stub : Stub) : L.stubAt (L.entry stub) = some stub := by
  unfold Layout.stubAt
  have hmem : stub ∈ Layout.stubs := by
    cases stub with
    | isr n => simp [Layout.stubs]
    | irq n => simp [Layout.stubs]
    | isr80 => simp [Layout.stubs]
  cases hfind : Layout.stubs.find? fun s => L.entry s == L.entry stub with
  | none =>
    have := List.find?_eq_none.1 hfind stub hmem
    simp at this
  | some s =>
    have hs := List.find?_some hfind
    rw [L.entry_injective (eq_of_beq hs)]

/-- Through the gate of a vector the processor comes to its stub. -/
theorem Layout.stubAt_vectorGate (L : Layout) (v : Nat) : L.stubAt (vectorGate L.entry v).base = vectorStub v := by
  unfold vectorGate
  cases vectorStub v with
  | some stub => exact L.stubAt_entry stub
  | none =>
    exact List.find?_eq_none.2 fun stub _ h => L.entry_ne stub (eq_of_beq h)

section Entering

variable {r : Ram} {c : Context} {ws : List Word} {x y skipped : Word} {address : Address} {vector : Fin 256}

theorem size_pushed (address : Address) (hws : ws.reverse = frameImage vector c skipped) :
    (Frame.mk address vector).size = 4 * ws.length ∧ ws.length ≤ 13 := by
  rw [← List.length_reverse, hws, length_frameImage]
  unfold Frame.size
  split <;> exact ⟨rfl, by decide⟩

/-- The two words below a frame. -/
theorem pushed_below (hbottom : 8 ≤ address.toNat) {a : Address}
    (ha : ¬(address.toNat - 8 ≤ a.toNat ∧ a.toNat < address.toNat)) :
    (r.pushWords address [x, y]).cell a = r.cell a := by
  refine Memory.pushWords_outside (show 4 * 2 ≤ _ by decide) ?_
  show a ∉ Memory.span (Memory.pushed address 2) 8
  have hlower : (Memory.pushed address 2).toNat + 8 = address.toNat := by
    unfold Memory.pushed
    bv_omega
  rw [Memory.mem_span_iff _ (by omega)]
  omega

/-- The frame stays as it was pushed. -/
theorem pushed_holds (hws : ws.reverse = frameImage vector c skipped)
    (haddress : address = Memory.pushed c.esp ws.length) (hbottom : 8 ≤ address.toNat)
    (hnat : address.toNat + 4 * ws.length = c.esp.toNat) :
    FrameHolds ((r.pushWords c.esp ws).pushWords address [x, y]) ⟨address, vector⟩ (vector, c) := by
  obtain ⟨hsize, hshort⟩ := size_pushed address hws
  refine ⟨rfl, ?_, skipped, ?_⟩
  · show c.esp = address + _
    rw [hsize, haddress]
    unfold Memory.pushed
    exact (BitVec.sub_add_cancel _ _).symm
  · show Memory.words _ address _ = _
    rw [hsize, Nat.mul_div_cancel_left _ (by decide), ← hws]
    rw [← @Memory.words_pushWords r c.esp ws (by omega), ← haddress]
    refine Memory.words_congr (fun a ha => pushed_below hbottom ?_) (by omega)
    rw [Memory.mem_span_iff _ (by omega)] at ha
    omega

end Entering

/-- A frame of `n` words and two more words are pushed, and the handler starts below them. -/
theorem Core.Follows.enter (h : m.Follows L b) {t : Fin threadMax} (ht : m.sched.currentThread = some t)
    (hroom : L.low t + 60 ≤ m.cpu.esp.toNat) {cpu : Context} {ws : List Word} {x y : Word} {vector : Fin 256}
    (hws : ∃ skipped, ws.reverse = frameImage vector m.cpu skipped)
    (hesp : cpu.esp = Memory.pushed m.cpu.esp ws.length - 8) :
    Core.Follows L
      { m with
        cpu
        ram := (m.ram.pushWords m.cpu.esp ws).pushWords (Memory.pushed m.cpu.esp ws.length) [x, y]
        frames := Function.update m.frames t (⟨cpu.esp + 8, vector⟩ :: m.frames t) }
      ⟨cpu, Function.update b.suspended t ((vector, m.cpu) :: b.suspended t)⟩ := by
  obtain ⟨skipped, hws⟩ := hws
  obtain ⟨-, hstacked⟩ := h.running t ht
  have hhigh := L.high_lt t
  have hbelow := hstacked.le
  obtain ⟨hsize, hshort⟩ := size_pushed (Memory.pushed m.cpu.esp ws.length) hws
  -- the frame reaches from `address` to the interrupted stack pointer
  obtain ⟨address, haddress⟩ : ∃ address, address = Memory.pushed m.cpu.esp ws.length := ⟨_, rfl⟩
  have hframe : cpu.esp + 8 = address := by
    rw [hesp, haddress]
    exact BitVec.sub_add_cancel _ _
  have hnat : address.toNat + 4 * ws.length = m.cpu.esp.toNat := by
    rw [haddress]
    unfold Memory.pushed
    bv_omega
  rw [← haddress] at hsize ⊢
  rw [hframe]
  have hbottom : 8 ≤ address.toNat := by omega
  have hkept : ∀ a, m.keeps L a → ((m.ram.pushWords m.cpu.esp ws).pushWords address [x, y]).cell a = m.ram.cell a := by
    intro a ha
    have hfree : ¬(L.low t ≤ a.toNat ∧ a.toNat < m.cpu.esp.toNat) := fun hin => h.free hstacked hin.1 hin.2 ha
    rw [pushed_below hbottom (by omega), Memory.pushWords_outside (by omega)]
    rw [← haddress, Memory.mem_span_iff _ (by omega)]
    omega
  obtain ⟨hgates, hheld⟩ := h.undisturbed hkept
  have hholds := pushed_holds (r := m.ram) (x := x) (y := y) hws haddress hbottom hnat
  have habove : Stacked (address.toNat + (Frame.mk address vector).size) (m.frames t) (L.high t) := by
    rw [hsize, hnat]
    exact hstacked
  refine ⟨rfl, h.coherent, hgates, forall₂_update (.cons hholds (hheld t)) fun u _ => hheld u,
    stacked_update ⟨show L.low t ≤ address.toNat by omega, habove⟩ h.stacked,
    fun u hu => ?_, fun u hu hused => ?_, fun u hu => ?_⟩
  · obtain rfl := Option.some_inj.1 (ht.symm.trans hu)
    simp only [Function.update_self]
    have hlower : cpu.esp.toNat + 8 = address.toNat := by
      rw [hesp, ← haddress]
      bv_omega
    exact ⟨by omega, show cpu.esp.toNat ≤ address.toNat by omega, habove⟩
  · have hut : u ≠ t := fun e => hu (e ▸ ht)
    simp only [Function.update_of_ne hut]
    exact h.waiting u hu hused
  · have hut : u ≠ t := by
      rintro rfl
      exact h.coherent.used ht hu
    simp only [Function.update_of_ne hut]
    exact h.unused u hu

theorem vectorStub_irq {v : Nat} {n : Fin 16} (h : vectorStub v = some (.irq n)) : v = 32 + n := by
  unfold vectorStub at h
  split at h
  · cases h
  · split at h
    · cases h
      show v = 32 + (v - 32)
      omega
    · split at h <;> cases h

theorem vectorStub_isr80 {v : Nat} (h : vectorStub v = some .isr80) : v = 0x80 := by
  unfold vectorStub at h
  split at h
  · cases h
  · split at h
    · cases h
    · split at h
      · assumption
      · cases h

theorem Core.Follows.interrupt (h : m.Follows L b) {vector : Fin 256} {m' : Core}
    (hstep : m.step L (.interrupt vector) = some m') :
    ∃ b', b.step L m.sched.toThreads m'.sched.toThreads (.interrupt vector) = some b' ∧ m'.Follows L b' := by
  obtain ⟨t, ht, hstep⟩ := Option.bind_eq_some_iff.1 hstep
  simp only [h.gates vector vector.isLt, L.stubAt_vectorGate] at hstep
  cases hstub : vectorStub vector with
  | none =>
    rw [hstub] at hstep
    cases hstep
  | some stub =>
    rw [hstub] at hstep
    cases stub with
    | isr n => cases hstep
    | irq n =>
      simp only [irq_entry] at hstep
      split at hstep
      · cases hstep
      · rename_i hroom
        obtain rfl := Option.some_inj.1 hstep
        have hv := vectorStub_irq hstub
        have htrap : vector ≠ 0x80 := by
          rintro rfl
          have : n.val < 16 := n.isLt
          have : (0x80 : Fin 256).val = 128 := rfl
          omega
        refine ⟨_, ?_, h.enter ht (by omega) ⟨m.cpu.esp - 20, ?_⟩ ?_⟩
        · refine Option.bind_eq_some_iff.2 ⟨t, ht, Option.bind_eq_some_iff.2 ⟨_, hstub, ?_⟩⟩
          rw [h.cpu]
          rfl
        · rw [frameImage, if_neg htrap, hv]
          rfl
        · show m.cpu.esp - 60 = m.cpu.esp - 52 - 8
          bv_omega
    | isr80 =>
      simp only [trap_entry] at hstep
      split at hstep
      · cases hstep
      · rename_i hroom
        obtain rfl := Option.some_inj.1 hstep
        have hv : vector = 0x80 := Fin.ext (vectorStub_isr80 hstub)
        refine ⟨_, ?_, h.enter ht (by omega) ⟨m.cpu.esp - 12, ?_⟩ ?_⟩
        · refine Option.bind_eq_some_iff.2 ⟨t, ht, Option.bind_eq_some_iff.2 ⟨_, hstub, ?_⟩⟩
          rw [h.cpu]
          rfl
        · rw [frameImage, if_pos hv]
          rfl
        · show m.cpu.esp - 52 = m.cpu.esp - 44 - 8
          bv_omega

/-! ### Returns -/

/-- The thread that is current now takes its innermost context back. -/
theorem Core.Follows.resume {sched : Scheduler} {r : Ram} {ticks : BitVec 64} {pit : Word}
    {t : Fin threadMax} {f : Frame} {fs : List Frame} {v : Fin 256} {c : Context} (hcoherent : Coherent sched.toThreads)
    (ht : sched.currentThread = some t) (hframes : m.frames t = f :: fs) (hholds : FrameHolds r f (v, c))
    (hgates : ∀ v < 256, gateAt r (gateAddress L.idt v) = vectorGate L.entry v)
    (hheld : ∀ u, u ≠ t → List.Forall₂ (FrameHolds r) (m.frames u) (b.suspended u))
    (hrest : List.Forall₂ (FrameHolds r) fs (b.suspended t).tail)
    (hstacked : ∀ u, Stacked (L.low u) (m.frames u) (L.high u))
    (hwaiting : ∀ u, u ≠ t → sched.states u ≠ .unused →
      ∃ g gs, m.frames u = g :: gs ∧ g.address = sched.esps u ∧ g.vector ≠ 0x80)
    (hunused : ∀ u, sched.states u = .unused → m.frames u = []) :
    Core.Follows L ⟨c, r, sched, ticks, pit, Function.update m.frames t (m.frames t).tail⟩
      ⟨c, Function.update b.suspended t (b.suspended t).tail⟩ := by
  have hst := hstacked t
  rw [hframes] at hst
  have hhigh := L.high_lt t
  have hle := hst.2.le
  have hesp : c.esp.toNat = f.address.toNat + f.size := by
    have hsize := f.size_le
    rw [hholds.esp, BitVec.toNat_add, BitVec.toNat_ofNat]
    omega
  have hlow := hst.1
  rw [hframes, List.tail_cons]
  refine ⟨rfl, hcoherent, hgates, forall₂_update hrest hheld, stacked_update (hst.2.mono (by omega)) hstacked,
    fun u hu => ?_, fun u hu hused => ?_, fun u hu => ?_⟩
  · obtain rfl := Option.some_inj.1 (ht.symm.trans hu)
    simp only [Function.update_self]
    rw [hesp]
    exact ⟨by omega, hst.2⟩
  · have hut : u ≠ t := fun e => hu (e ▸ ht)
    simp only [Function.update_of_ne hut]
    exact hwaiting u hut hused
  · have hut : u ≠ t := by
      rintro rfl
      have := hunused u hu
      rw [hframes] at this
      cases this
    simp only [Function.update_of_ne hut]
    exact hunused u hu

/-- What a frame says of its vector. -/
theorem FrameHolds.intNo {r : Ram} {f : Frame} {v : Fin 256} {c : Context} (h : FrameHolds r f (v, c)) (hv : v ≠ 0x80) :
    r.loadWord (f.address + 32) = BitVec.ofNat 32 v := by
  obtain ⟨-, -, skipped, himage⟩ := h
  rw [frameImage, if_neg hv] at himage
  exact loadWord_of_words (k := 8) himage rfl

/-- The result of a system call replaces EAX in its frame. -/
theorem FrameHolds.setResult {r : Ram} {f : Frame} {v : Fin 256} {c : Context}
    (h : FrameHolds r f (v, c)) (hv : v = 0x80) (result : Word) :
    FrameHolds (r.storeWord (f.address + 28) result) f (v, { c with eax := result }) := by
  obtain ⟨hvector, hesp, skipped, himage⟩ := h
  refine ⟨hvector, hesp, skipped, ?_⟩
  have hsize : f.size / 4 = 11 := by rw [Frame.size, if_pos (hvector.trans hv)]
  have hset := @Memory.words_storeWord r f.address result 11 7 (by decide) (by decide)
  rw [hsize] at himage ⊢
  rw [himage, frameImage, if_pos hv] at hset
  rw [frameImage, if_pos hv]
  exact hset

/-- A store into the innermost frame of a stack leaves the gates and all other frames alone. -/
theorem Core.Follows.intoFrame (h : m.Follows L b) {t : Fin threadMax} {f : Frame} {fs : List Frame}
    (hframes : m.frames t = f :: fs) {r : Ram} (hr : ∀ a, ¬f.covers a → r.cell a = m.ram.cell a) :
    (∀ v < 256, gateAt r (gateAddress L.idt v) = vectorGate L.entry v) ∧
      (∀ u, u ≠ t → List.Forall₂ (FrameHolds r) (m.frames u) (b.suspended u)) ∧
      List.Forall₂ (FrameHolds r) fs (b.suspended t).tail := by
  have hst := h.stacked t
  rw [hframes] at hst
  have hin := hst.inside List.mem_cons_self
  refine ⟨fun v hv => ?_, fun u hu => ?_, ?_⟩
  · rw [← h.gates v hv]
    refine gateAt_congr fun a ha => hr a fun hcovers => ?_
    have := mem_span_gate hv ha
    have := L.apart_idt t
    unfold Frame.covers at hcovers
    omega
  · refine held_congr (fun g hg => h.fits hg) (fun g hg a ha => hr a fun hcovers => ?_) (h.held u)
    have := (h.stacked u).inside hg
    have := L.apart hu
    unfold Frame.covers at ha hcovers
    omega
  · have hheld := h.held t
    rw [hframes] at hheld
    cases hsuspended : b.suspended t with
    | nil =>
      rw [hsuspended] at hheld
      cases hheld
    | cons e es =>
      rw [hsuspended] at hheld
      cases hheld with
      | cons _ hrest =>
        refine held_congr (fun g hg => h.fits (hframes ▸ List.mem_cons_of_mem _ hg))
          (fun g hg a ha => hr a fun hcovers => ?_) hrest
        have := hst.2.inside hg
        unfold Frame.covers at ha hcovers
        omega

/-- The contexts beside the frames of a stack. -/
theorem Core.Follows.innermost (h : m.Follows L b) {t : Fin threadMax} {f : Frame} {fs : List Frame}
    (hframes : m.frames t = f :: fs) :
    ∃ c es, b.suspended t = (f.vector, c) :: es ∧ FrameHolds m.ram f (f.vector, c) ∧
    List.Forall₂ (FrameHolds m.ram) fs es := by
  have hheld := h.held t
  rw [hframes] at hheld
  cases hsuspended : b.suspended t with
  | nil =>
    rw [hsuspended] at hheld
    cases hheld
  | cons e es =>
    obtain ⟨v, c⟩ := e
    rw [hsuspended] at hheld
    cases hheld with
    | cons hhead hrest =>
      obtain rfl := hhead.vector
      exact ⟨c, es, rfl, hhead, hrest⟩

/-- The cells of a result lie in the frame of its call. -/
theorem Core.Follows.result_outside (h : m.Follows L b) {t : Fin threadMax} {f : Frame} (hf : f ∈ m.frames t)
    (hv : f.vector = 0x80) (result : Word) {a : Address} (ha : ¬f.covers a) :
    (m.ram.storeWord (f.address + 28) result).cell a = m.ram.cell a := by
  refine Memory.storeWord_outside fun hmem => ha ?_
  have hfits := h.fits hf
  have hsize : f.size = 44 := if_pos hv
  rw [Memory.mem_span _ (by decide)] at hmem
  unfold Frame.covers
  rw [hsize] at hfits ⊢
  bv_omega

/-- The handler of a hardware interrupt reads the vector in the frame: the timer's goes to the scheduler. -/
theorem FrameHolds.irqHandler_eq {f : Frame} {v : Fin 256} {c : Context}
    (h : FrameHolds m.ram f (v, c)) (hv : v ≠ 0x80) :
    irqHandler m f.address = if BitVec.ofNat 32 v - 32 = 0 then
      ((schedulerTick f.address m.sched).1, { m with
        sched := (schedulerTick f.address m.sched).2
        timerTicks := m.timerTicks + 1
        pitTicks := m.pitTicks + 1 }) else (f.address, m) := by
  unfold irqHandler
  rw [h.intNo hv]

/-- The thread that goes on after a tick has its innermost frame where the scheduler says. -/
theorem Core.Follows.selected (h : m.Follows L b) {t next : Fin threadMax} (ht : m.sched.currentThread = some t)
    {f : Frame} {fs : List Frame} (hframes : m.frames t = f :: fs) (hv : f.vector ≠ 0x80)
    (hnext : (schedulerTick f.address m.sched).2.currentThread = some next) :
    ∃ g gs, m.frames next = g :: gs ∧ (schedulerTick f.address m.sched).1 = g.address ∧ g.vector ≠ 0x80 := by
  rcases (schedulerTick_spec ht (h.coherent.used ht) f.address).1 with
    ⟨-, hret, -, hcurrent⟩ | ⟨next', -, hready, hret, -, hcurrent⟩
  · obtain rfl := Option.some_inj.1 (hcurrent.symm.trans hnext)
    exact ⟨f, fs, hframes, hret, hv⟩
  · obtain rfl := Option.some_inj.1 (hcurrent.symm.trans hnext)
    by_cases hsame : next' = t
    · subst hsame
      rw [Function.update_self] at hret
      exact ⟨f, fs, hframes, hret, hv⟩
    · rw [Function.update_of_ne hsame] at hret
      rw [demoted_of_ne hsame] at hready
      have hother : m.sched.currentThread ≠ some next' := fun e => hsame (Option.some_inj.1 (e.symm.trans ht))
      have hused : m.sched.states next' ≠ .unused := by
        rw [hready]
        decide
      obtain ⟨g, gs, hgs, hg, hgv⟩ := h.waiting next' hother hused
      exact ⟨g, gs, hgs, hret.trans hg.symm, hgv⟩

/-- After a tick every thread waits with its innermost frame where its stack pointer was saved. -/
theorem Core.Follows.waiting_tick (h : m.Follows L b) {t u : Fin threadMax} (ht : m.sched.currentThread = some t)
    {f : Frame} {fs : List Frame} (hframes : m.frames t = f :: fs) (hv : f.vector ≠ 0x80)
    (hused : (schedulerTick f.address m.sched).2.states u ≠ .unused) :
    ∃ g gs, m.frames u = g :: gs ∧ g.address = (schedulerTick f.address m.sched).2.esps u ∧ g.vector ≠ 0x80 := by
  have hmoves := @schedStep_moves L.threads _ h.coherent (.tick f.address)
  by_cases hut : u = t
  · rw [hut]
    refine ⟨f, fs, hframes, ?_, hv⟩
    rw [(schedulerTick_spec ht (h.coherent.used ht) f.address).2, Function.update_self]
  · have hother : m.sched.currentThread ≠ some u := fun e => hut (Option.some_inj.1 (e.symm.trans ht))
    rcases hmoves.esps_of_ne hother with ⟨hesp, hkept⟩ | ⟨⟨entry, hentry⟩, -⟩
    · obtain ⟨g, gs, hgs, hg, hgv⟩ := h.waiting u hother fun e => hused (hkept e)
      exact ⟨g, gs, hgs, hg.trans hesp.symm, hgv⟩
    · cases hentry

theorem Core.Follows.leave (h : m.Follows L b) {result : Word} {m' : Core}
    (hstep : m.step L (.leave result) = some m') :
    ∃ b', b.step L m.sched.toThreads m'.sched.toThreads (.leave result) = some b' ∧ m'.Follows L b' := by
  obtain ⟨t, ht, hstep⟩ := Option.bind_eq_some_iff.1 hstep
  obtain ⟨f, hf, hstep⟩ := Option.bind_eq_some_iff.1 hstep
  obtain ⟨fs, hframes⟩ : ∃ fs, m.frames t = f :: fs := List.head?_eq_some_iff.1 hf
  obtain ⟨c, es, hsuspended, hholds, hrest⟩ := h.innermost hframes
  have hwaiting : ∀ u, u ≠ t → m.sched.states u ≠ .unused →
      ∃ g gs, m.frames u = g :: gs ∧ g.address = m.sched.esps u ∧ g.vector ≠ 0x80 :=
    fun u hu => h.waiting u fun e => hu (Option.some_inj.1 (e.symm.trans ht))
  split at hstep
  · cases hstep
  · rename_i hesp
    rw [not_not] at hesp
    split at hstep
    · rename_i hv
      simp only [trap_return] at hstep
      obtain rfl := Option.some_inj.1 hstep
      have hpop : m.cpu.esp + 4 + 4 = f.address := by
        rw [hesp]
        bv_omega
      have hresult := hholds.setResult hv result
      have hcontext := hresult.pop
      rw [if_pos hv] at hcontext
      obtain ⟨hgates, hheld, hrest'⟩ := h.intoFrame hframes fun a ha =>
        h.result_outside (hframes ▸ List.mem_cons_self : f ∈ m.frames t) hv result ha
      rw [hpop, hcontext]
      refine ⟨_, Option.bind_eq_some_iff.2 ⟨t, ht, Option.bind_eq_some_iff.2 ⟨(f.vector, c), ?_, rfl⟩⟩, ?_⟩
      · rw [hsuspended]
        rfl
      · rw [if_pos hv]
        exact Core.Follows.resume h.coherent ht hframes hresult hgates hheld hrest' h.stacked hwaiting h.unused
    · rename_i hv
      have hcontext := hholds.pop
      rw [if_neg hv] at hcontext
      rw [hholds.irqHandler_eq hv] at hstep
      by_cases htimer : BitVec.ofNat 32 f.vector - 32 = 0
      · -- the timer: the scheduler decides who goes on
        rw [if_pos htimer] at hstep
        simp only [irq_return] at hstep
        obtain ⟨next, hnext, hstep⟩ := Option.bind_eq_some_iff.1 hstep
        obtain rfl := Option.some_inj.1 hstep
        have hmoves := @schedStep_moves L.threads _ h.coherent (.tick f.address)
        obtain ⟨g, gs, hnextframes, hg, hgv⟩ := h.selected ht hframes hv hnext
        obtain ⟨d, ds, hds, hdholds, hdrest⟩ := h.innermost hnextframes
        have hdcontext := hdholds.pop
        rw [if_neg hgv] at hdcontext
        simp only [hg, hdcontext]
        refine ⟨_, Option.bind_eq_some_iff.2 ⟨next, hnext, Option.bind_eq_some_iff.2 ⟨(g.vector, d), ?_, rfl⟩⟩, ?_⟩
        · rw [hds]
          rfl
        · rw [if_neg hgv]
          refine Core.Follows.resume (h.coherent.moves hmoves) hnext hnextframes hdholds h.gates
            (fun u _ => h.held u) ?_
            h.stacked (fun u _ hused => h.waiting_tick ht hframes hv hused)
            fun u hu => h.unused u (h.coherent.unused hmoves hu).1
          rw [hds]
          exact hdrest
      · rw [if_neg htimer] at hstep
        simp only [irq_return] at hstep
        obtain ⟨next, hnext, hstep⟩ := Option.bind_eq_some_iff.1 hstep
        obtain rfl := Option.some_inj.1 hstep
        obtain rfl := Option.some_inj.1 (ht.symm.trans hnext)
        simp only [hcontext]
        refine ⟨_, Option.bind_eq_some_iff.2 ⟨t, ht, Option.bind_eq_some_iff.2 ⟨(f.vector, c), ?_, rfl⟩⟩, ?_⟩
        · rw [hsuspended]
          rfl
        · rw [if_neg hv]
          refine Core.Follows.resume h.coherent ht hframes hholds h.gates
            (fun u _ => h.held u) ?_ h.stacked hwaiting h.unused
          rw [hsuspended]
          exact hrest

/-! ### Runs -/

theorem Core.Follows.step (h : m.Follows L b) {event : CoreEvent} {m' : Core} (hstep : m.step L event = some m') :
    ∃ b', b.step L m.sched.toThreads m'.sched.toThreads event = some b' ∧ m'.Follows L b' := by
  cases event with
  | code cpu stores => exact h.code hstep
  | interrupt vector => exact h.interrupt hstep
  | leave result => exact h.leave hstep
  | call act =>
    obtain ⟨t, ht, hstep⟩ := Option.bind_eq_some_iff.1 hstep
    cases act with
    | tick esp => cases hstep
    | create entry =>
      obtain rfl := Option.some_inj.1 hstep
      exact h.create entry
    | blockCurrent | exit | unblock | wake | wakeOne | setPolicy =>
      obtain rfl := Option.some_inj.1 hstep
      exact ⟨b, rfl, h.act nofun nofun⟩

theorem Core.Follows.run (h : m.Follows L b) {events : List CoreEvent} {m' : Core} (hrun : m.run L events = some m') :
    ∃ b', Bank.run L m events b = some b' ∧ m'.Follows L b' := by
  induction events generalizing m b with
  | nil =>
    obtain rfl := Option.some_inj.1 hrun
    exact ⟨b, rfl, h⟩
  | cons event events ih =>
    obtain ⟨m₁, hstep, hrun⟩ := Option.bind_eq_some_iff.1 hrun
    obtain ⟨b₁, hb₁, h₁⟩ := h.step hstep
    obtain ⟨b', hb', h'⟩ := ih h₁ hrun
    refine ⟨b', ?_, h'⟩
    exact Option.bind_eq_some_iff.2 ⟨m₁, hstep, Option.bind_eq_some_iff.2 ⟨b₁, hb₁, hb'⟩⟩

end Follows

end SpectreOS
