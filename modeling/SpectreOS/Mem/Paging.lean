/-
Paging (paging.c): the page directory and the page table as words in memory, what `paging_init` writes
there, and the processor's walk over both at every access, which marks the entries it used. All accesses that
keep off the two tables go as in a flat memory that ends at 4 MiB and whose first page, like everything to
ring 3, is missing.
-/
import SpectreOS.Lib.Lockstep
import SpectreOS.Lib.Stack

namespace SpectreOS

open BlockIO

/-! ## paging.c -/

/-- Where the linker has put `page_directory` and `first_page_table`. -/
structure PageTables where
  directory : Address
  table : Address
  directory_aligned : directory &&& 0xFFF = 0
  table_aligned : table &&& 0xFFF = 0
  apart : directory ≠ table

abbrev pagePresent : BitVec 32 := 0x001
abbrev pageWrite : BitVec 32 := 0x002

/-- The processor: CR0, CR3 and memory. -/
structure Mmu where
  cr0 : BitVec 32
  cr3 : BitVec 32
  ram : Ram

/-- The address of an entry of a directory or table. -/
def entryAddress (base : Address) (i : Nat) : Address := base + BitVec.ofNat 32 (4 * i)

/-- The entries of a table, one after the other. -/
def storeEntries (base : Address) (entry : Nat → BitVec 32) (n : Nat) (r : Ram) : Ram :=
  (List.range n).foldl (fun r i => r.storeWord (entryAddress base i) (entry i)) r

def pagingEnable (P : PageTables) (m : Mmu) : Mmu :=
  { m with cr3 := P.directory, cr0 := m.cr0 ||| 0x80000000 }

def pagingInit (P : PageTables) (m : Mmu) : Mmu :=
  let r := storeEntries P.directory (fun _ => 0) 1024 m.ram
  let r := storeEntries P.table (fun i => BitVec.ofNat 32 (i * 4096) ||| pagePresent ||| pageWrite) 1024 r
  -- page 0 stays unmapped
  let r := r.storeWord (entryAddress P.table 0) 0
  let r := r.storeWord (entryAddress P.directory 0) (P.table ||| pagePresent ||| pageWrite)
  pagingEnable P { m with ram := r }

/-! ## The processor -/

/-- Whether an entry lets an access pass: it is present, open to ring 3 for ring 3, and writable for a write,
which ring 0 observes only with CR0.WP. -/
def Mmu.passes (m : Mmu) (entry : BitVec 32) (user write : Bool) : Bool :=
  entry.getLsbD 0 && (!user || entry.getLsbD 2) && (!(write && (user || m.cr0.getLsbD 16)) || entry.getLsbD 1)

/-- The walk from a linear to a physical address. It marks both entries as accessed, the second one as dirty
too at a write; with CR4 clear all pages have 4 KiB. -/
def Mmu.translate (m : Mmu) (user write : Bool) (a : Address) : Option (Address × Mmu) :=
  if !m.cr0.getLsbD 31 then some (a, m)
  else
    let directoryEntry := entryAddress (m.cr3 &&& 0xFFFFF000) (a.toNat / 2 ^ 22)
    let pde := m.ram.loadWord directoryEntry
    if !m.passes pde user write then none
    else
      let tableEntry := entryAddress (pde &&& 0xFFFFF000) (a.toNat / 2 ^ 12 % 1024)
      let pte := m.ram.loadWord tableEntry
      if !m.passes pte user write then none
      else
        let r := m.ram.storeWord directoryEntry (pde ||| 0x20)
        let r := r.storeWord tableEntry (pte ||| if write then 0x60 else 0x20)
        some ((pte &&& 0xFFFFF000) ||| (a &&& 0xFFF), { m with ram := r })

/-- An access of one byte, from ring 3 or ring 0. -/
inductive PagedAccess where
  | load (user : Bool) (a : Address)
  | store (user : Bool) (a : Address) (v : Byte)

def PagedAccess.address : PagedAccess → Address
  | load _ a | store _ a _ => a

/-- What an access answers, and the state after it; none, if the page faults. -/
def Mmu.access (m : Mmu) : PagedAccess → Option (List Byte × Mmu)
  | .load user a => (m.translate user false a).map fun (p, m) => ([m.ram.cell p], m)
  | .store user a v => (m.translate user true a).map fun (p, m) => ([], { m with ram := m.ram.store p v })

/-- The bytes that a program's accesses read one after the other. -/
def Mmu.run (m : Mmu) (xs : List PagedAccess) : Option (List Byte × Mmu) := Lockstep.run access m xs

/-! ## The flat memory -/

/-- What can be accessed: the first 4 MiB but for their first page, from ring 0. -/
def flatMapped (user : Bool) (a : Address) : Bool := !user && 4096 ≤ a.toNat && a.toNat < 2 ^ 22

def flatAccess (f : Address → Byte) : PagedAccess → Option (List Byte × (Address → Byte))
  | .load user a => if flatMapped user a then some ([f a], f) else none
  | .store user a v => if flatMapped user a then some ([], Function.update f a v) else none

def flatRun (f : Address → Byte) (xs : List PagedAccess) : Option (List Byte × (Address → Byte)) :=
  Lockstep.run flatAccess f xs

/-! ## Entries -/

section Words

variable {w : BitVec 32} {i j : Nat}

theorem toNat_low (w : BitVec 32) : (w &&& 0xFFF).toNat = w.toNat % 4096 := by
  rw [BitVec.toNat_and]
  exact Nat.and_two_pow_sub_one_eq_mod w.toNat 12

theorem high_or_low (w : BitVec 32) : (w &&& 0xFFFFF000) ||| (w &&& 0xFFF) = w := by
  rw [← BitVec.and_or_distrib_left]
  exact BitVec.and_allOnes

theorem high_of_aligned (h : w &&& 0xFFF = 0) : w &&& 0xFFFFF000 = w := by
  have hw := high_or_low w
  rw [h] at hw
  simpa using hw

theorem toNat_of_aligned (h : w &&& 0xFFF = 0) : w.toNat % 4096 = 0 := by
  rw [← toNat_low, h]
  rfl

theorem aligned_ofNat (i : Nat) : BitVec.ofNat 32 (i * 4096) &&& 0xFFF = 0 := by
  refine BitVec.eq_of_toNat_eq ?_
  rw [toNat_low, BitVec.toNat_ofNat]
  show i * 4096 % 4294967296 % 4096 = 0
  omega

/-- A frame and the offset in it are the address. -/
theorem frame_or_offset {a : Address} (ha : a.toNat < 2 ^ 22) :
    BitVec.ofNat 32 (a.toNat / 2 ^ 12 % 1024 * 4096) ||| (a &&& 0xFFF) = a := by
  have hdisjoint : BitVec.ofNat 32 (a.toNat / 2 ^ 12 % 1024 * 4096) &&& (a &&& 0xFFF) = 0 := by
    rw [BitVec.and_comm a, ← BitVec.and_assoc, aligned_ofNat]
    exact BitVec.zero_and
  rw [← BitVec.add_eq_or_of_and_eq_zero _ _ hdisjoint]
  refine BitVec.eq_of_toNat_eq ?_
  rw [BitVec.toNat_add, toNat_low, BitVec.toNat_ofNat]
  omega

/-- The bits that the processor sets. -/
abbrev pageMarks : BitVec 32 := 0x60

theorem getLsbD_of_unmarked {e x : BitVec 32} (h : e &&& ~~~pageMarks = x) {k : Nat} (hk : k < 3) :
    e.getLsbD k = x.getLsbD k := by
  have hbit : (~~~pageMarks).getLsbD k = true := by
    obtain rfl | rfl | rfl : k = 0 ∨ k = 1 ∨ k = 2 := by omega
    all_goals rfl
  rw [← h, BitVec.getLsbD_and, hbit, Bool.and_true]

theorem high_of_unmarked {e x : BitVec 32} (h : e &&& ~~~pageMarks = x) : e &&& 0xFFFFF000 = x &&& 0xFFFFF000 := by
  rw [← h, BitVec.and_assoc]
  rfl

theorem unmarked_or (e : BitVec 32) {c : BitVec 32} (hc : c &&& ~~~pageMarks = 0) :
    (e ||| c) &&& ~~~pageMarks = e &&& ~~~pageMarks := by
  rw [BitVec.and_or_distrib_right, hc]
  exact BitVec.or_zero

theorem high_present (h : w &&& 0xFFF = 0) : (w ||| pagePresent ||| pageWrite) &&& 0xFFFFF000 = w := by
  rw [BitVec.and_or_distrib_right, BitVec.and_or_distrib_right, high_of_aligned h]
  show w ||| 0#32 ||| 0#32 = w
  rw [BitVec.or_zero, BitVec.or_zero]

/-- An entry that is present lets ring 0 pass. -/
theorem Mmu.passes_present (m : Mmu) (user write : Bool) {e : BitVec 32} (hw : w &&& 0xFFF = 0)
    (he : e &&& ~~~pageMarks = w ||| pagePresent ||| pageWrite) : m.passes e user write = !user := by
  have hlow : ∀ k < 3, w.getLsbD k = false := by
    intro k hk
    have hbit := congrArg (fun v : BitVec 32 => v.getLsbD k) hw
    have hmask : (0xFFF#32).getLsbD k = true := by
      obtain rfl | rfl | rfl : k = 0 ∨ k = 1 ∨ k = 2 := by omega
      all_goals rfl
    simpa [hmask] using hbit
  have hbits : ∀ k < 3, e.getLsbD k = (pagePresent.getLsbD k || pageWrite.getLsbD k) := by
    intro k hk
    rw [getLsbD_of_unmarked he hk, BitVec.getLsbD_or, BitVec.getLsbD_or, hlow k hk, Bool.false_or]
  have h0 : e.getLsbD 0 = true := hbits 0 (by decide)
  have h1 : e.getLsbD 1 = true := hbits 1 (by decide)
  have h2 : e.getLsbD 2 = false := hbits 2 (by decide)
  rw [Mmu.passes, h0, h1, h2]
  cases user <;> simp

theorem Mmu.passes_absent (m : Mmu) (user write : Bool) {e : BitVec 32} (he : e &&& ~~~pageMarks = 0) :
    m.passes e user write = false := by
  have h0 : e.getLsbD 0 = false := getLsbD_of_unmarked he (by decide)
  rw [Mmu.passes, h0]
  rfl

end Words

/-! ## Tables in memory -/

/-- The addresses of the two tables. -/
def PageTables.Holds (P : PageTables) (a : Address) : Prop :=
  P.directory.toNat ≤ a.toNat ∧ a.toNat < P.directory.toNat + 4096 ∨
    P.table.toNat ≤ a.toNat ∧ a.toNat < P.table.toNat + 4096

section Tables

variable {base base' : Address} {i j n : Nat} {r : Ram} {w : BitVec 32} {entry : Nat → BitVec 32}

theorem mem_span_entry (hbase : base &&& 0xFFF = 0) (hi : i < 1024) {x : Address} :
    x ∈ Memory.span (entryAddress base i) 4 ↔ base.toNat + 4 * i ≤ x.toNat ∧ x.toNat < base.toNat + 4 * i + 4 := by
  have haligned := toNat_of_aligned hbase
  have hlt := base.isLt
  have hstart : (entryAddress base i).toNat = base.toNat + 4 * i := by
    unfold entryAddress
    rw [BitVec.toNat_add, BitVec.toNat_ofNat]
    omega
  rw [Memory.mem_span_iff _ (by omega), hstart]

theorem loadWord_entry_of_ne (hbase : base &&& 0xFFF = 0) (hbase' : base' &&& 0xFFF = 0) (hi : i < 1024) (hj : j < 1024)
    (hne : base ≠ base' ∨ i ≠ j) :
    (r.storeWord (entryAddress base i) w).loadWord (entryAddress base' j) = r.loadWord (entryAddress base' j) := by
  refine Memory.loadWord_congr fun x hx => Memory.storeWord_outside fun hmem => ?_
  rw [mem_span_entry hbase' hj] at hx
  rw [mem_span_entry hbase hi] at hmem
  have h := toNat_of_aligned hbase
  have h' := toNat_of_aligned hbase'
  rcases hne with hne | hne
  · have : base.toNat ≠ base'.toNat := fun e => hne (BitVec.eq_of_toNat_eq e)
    omega
  · omega

theorem storeEntries_succ : storeEntries base entry (n + 1) r =
    (storeEntries base entry n r).storeWord (entryAddress base n) (entry n) := by
  rw [storeEntries, List.range_succ, List.foldl_append]
  rfl

/-- All entries are there after the loop. -/
theorem loadWord_storeEntries (hbase : base &&& 0xFFF = 0) (hn : n ≤ 1024) (hj : j < n) :
    (storeEntries base entry n r).loadWord (entryAddress base j) = entry j := by
  induction n with
  | zero => cases hj
  | succ n ih =>
    rw [storeEntries_succ]
    by_cases h : j = n
    · rw [h, Memory.loadWord_storeWord]
    · rw [loadWord_entry_of_ne hbase hbase (by omega) (by omega) (.inr (Ne.symm h)), ih (by omega) (by omega)]

theorem loadWord_storeEntries_of_ne (hbase : base &&& 0xFFF = 0) (hbase' : base' &&& 0xFFF = 0) (hne : base ≠ base')
    (hn : n ≤ 1024) (hj : j < 1024) :
    (storeEntries base entry n r).loadWord (entryAddress base' j) = r.loadWord (entryAddress base' j) := by
  induction n with
  | zero => rfl
  | succ n ih => rw [storeEntries_succ, loadWord_entry_of_ne hbase hbase' (by omega) hj (.inl hne), ih (by omega)]

theorem storeEntry_outside (hbase : base &&& 0xFFF = 0) (hi : i < 1024) {a : Address}
    (ha : ¬(base.toNat ≤ a.toNat ∧ a.toNat < base.toNat + 4096)) :
    (r.storeWord (entryAddress base i) w).cell a = r.cell a := by
  refine Memory.storeWord_outside fun hmem => ha ?_
  rw [mem_span_entry hbase hi] at hmem
  omega

theorem storeEntries_outside (hbase : base &&& 0xFFF = 0) (hn : n ≤ 1024) {a : Address}
    (ha : ¬(base.toNat ≤ a.toNat ∧ a.toNat < base.toNat + 4096)) : (storeEntries base entry n r).cell a = r.cell a := by
  induction n with
  | zero => rfl
  | succ n ih => rw [storeEntries_succ, storeEntry_outside hbase (by omega) ha, ih (by omega)]

end Tables

/-- Paging is on, and but for the processor's marks the tables are those of `paging_init`. -/
structure Mapped (P : PageTables) (m : Mmu) : Prop where
  paging : m.cr0.getLsbD 31 = true
  cr3 : m.cr3 = P.directory
  directory : ∀ i < 1024, m.ram.loadWord (entryAddress P.directory i) &&& ~~~pageMarks =
    if i = 0 then P.table ||| pagePresent ||| pageWrite else 0
  table : ∀ i < 1024, m.ram.loadWord (entryAddress P.table i) &&& ~~~pageMarks =
    if i = 0 then 0 else BitVec.ofNat 32 (i * 4096) ||| pagePresent ||| pageWrite

section Mapped

variable {P : PageTables} {m : Mmu} {f : Address → Byte}

theorem unmarked_present {w : BitVec 32} (h : w &&& 0xFFF = 0) :
    (w ||| pagePresent ||| pageWrite) &&& ~~~pageMarks = w ||| pagePresent ||| pageWrite := by
  have hw : w &&& ~~~pageMarks = w := by
    have hhigh := high_of_aligned h
    calc w &&& ~~~pageMarks = w &&& 0xFFFFF000 &&& ~~~pageMarks := by rw [hhigh]
      _ = w &&& 0xFFFFF000 := by rw [BitVec.and_assoc]; rfl
      _ = w := hhigh
  rw [BitVec.and_or_distrib_right, BitVec.and_or_distrib_right, hw]
  rfl

theorem mapped_pagingInit (P : PageTables) (m : Mmu) : Mapped P (pagingInit P m) where
  paging := by simp [pagingInit, pagingEnable]
  cr3 := rfl
  directory i hi := by
    have hD := P.directory_aligned
    have hT := P.table_aligned
    show Memory.loadWord (Memory.storeWord _ _ _) _ &&& _ = _
    by_cases h : i = 0
    · rw [if_pos h, h, Memory.loadWord_storeWord, unmarked_present hT]
    · rw [if_neg h, loadWord_entry_of_ne hD hD (by decide) hi (.inr (Ne.symm h)),
        loadWord_entry_of_ne hT hD (by decide) hi (.inl P.apart.symm),
        loadWord_storeEntries_of_ne hT hD P.apart.symm le_rfl hi, loadWord_storeEntries hD le_rfl hi]
      rfl
  table i hi := by
    have hD := P.directory_aligned
    have hT := P.table_aligned
    show Memory.loadWord (Memory.storeWord _ _ _) _ &&& _ = _
    rw [loadWord_entry_of_ne hD hT (by decide) hi (.inl P.apart)]
    by_cases h : i = 0
    · rw [if_pos h, h, Memory.loadWord_storeWord]
      rfl
    · rw [if_neg h, loadWord_entry_of_ne hT hT (by decide) hi (.inr (Ne.symm h)), loadWord_storeEntries hT le_rfl hi,
        unmarked_present (aligned_ofNat i)]

theorem pagingInit_outside (P : PageTables) (m : Mmu) {a : Address} (ha : ¬P.Holds a) :
    (pagingInit P m).ram.cell a = m.ram.cell a := by
  obtain ⟨hdir, htable⟩ := not_or.1 ha
  show Memory.cell (Memory.storeWord _ _ _) a = _
  rw [storeEntry_outside P.directory_aligned (by decide) hdir, storeEntry_outside P.table_aligned (by decide) htable,
    storeEntries_outside P.table_aligned le_rfl htable, storeEntries_outside P.directory_aligned le_rfl hdir]

/-! ## The walk -/

/-- Marking an entry changes no mapping. -/
theorem Mapped.mark (h : Mapped P m) {base : Address} (hbase : base = P.directory ∨ base = P.table)
    {i : Nat} (hi : i < 1024) {c : BitVec 32} (hc : c &&& ~~~pageMarks = 0) :
    Mapped P { m with ram := m.ram.storeWord (entryAddress base i) (m.ram.loadWord (entryAddress base i) ||| c) } := by
  have haligned : base &&& 0xFFF = 0 := by
    rcases hbase with rfl | rfl
    · exact P.directory_aligned
    · exact P.table_aligned
  have hkept : ∀ {base' : Address}, base' &&& 0xFFF = 0 → ∀ j < 1024,
      (m.ram.storeWord (entryAddress base i) (m.ram.loadWord (entryAddress base i) ||| c)).loadWord
        (entryAddress base' j) &&&
        ~~~pageMarks = m.ram.loadWord (entryAddress base' j) &&& ~~~pageMarks := by
    intro base' hbase' j hj
    by_cases hsame : base = base' ∧ i = j
    · rw [← hsame.1, ← hsame.2, Memory.loadWord_storeWord, unmarked_or _ hc]
    · rw [loadWord_entry_of_ne haligned hbase' hi hj (not_and_or.1 hsame)]
  exact ⟨h.paging, h.cr3, fun j hj => (hkept P.directory_aligned j hj).trans (h.directory j hj),
    fun j hj => (hkept P.table_aligned j hj).trans (h.table j hj)⟩

/-- A mapped address leads to itself. -/
theorem Mapped.translate_mapped (h : Mapped P m) {user : Bool} (write : Bool) {a : Address}
    (ha : flatMapped user a = true) :
    ∃ m', m.translate user write a = some (a, m') ∧ Mapped P m' ∧ ∀ x, ¬P.Holds x → m'.ram.cell x = m.ram.cell x := by
  simp only [flatMapped, Bool.and_eq_true, Bool.not_eq_true', decide_eq_true_eq] at ha
  obtain ⟨⟨rfl, hlow⟩, hhigh⟩ := ha
  have hindex : a.toNat / 2 ^ 22 = 0 := by omega
  have hpage : a.toNat / 2 ^ 12 % 1024 ≠ 0 := by omega
  have hlt : a.toNat / 2 ^ 12 % 1024 < 1024 := Nat.mod_lt _ (by decide)
  have hpde := h.directory 0 (by decide)
  rw [if_pos rfl] at hpde
  have hpte := h.table _ hlt
  rw [if_neg hpage] at hpte
  have hmark : (if write then 0x60 else 0x20 : BitVec 32) &&& ~~~pageMarks = 0 := by
    cases write <;> rfl
  have h₁ := h.mark (.inl rfl) (i := 0) (by decide) (c := 0x20) rfl
  have h₂ := h₁.mark (.inr rfl) hlt hmark
  simp only at h₂
  rw [loadWord_entry_of_ne P.directory_aligned P.table_aligned (by decide) hlt (.inl P.apart)] at h₂
  refine ⟨_, ?_, h₂, fun x hx => ?_⟩
  · simp only [Mmu.translate, h.paging, h.cr3, high_of_aligned P.directory_aligned, hindex,
      m.passes_present false write P.table_aligned hpde, (high_of_unmarked hpde).trans (high_present P.table_aligned),
      m.passes_present false write (aligned_ofNat _) hpte,
      (high_of_unmarked hpte).trans (high_present (aligned_ofNat _)), frame_or_offset hhigh]
    rfl
  · obtain ⟨hdir, htable⟩ := not_or.1 hx
    exact (storeEntry_outside P.table_aligned hlt htable).trans
      (storeEntry_outside P.directory_aligned (by decide) hdir)

/-- Everything else faults. -/
theorem Mapped.translate_unmapped (h : Mapped P m) {user : Bool} (write : Bool) {a : Address}
    (ha : flatMapped user a = false) :
    m.translate user write a = none := by
  have hindex : a.toNat / 2 ^ 22 < 1024 := by omega
  have hlt : a.toNat / 2 ^ 12 % 1024 < 1024 := Nat.mod_lt _ (by decide)
  simp only [Mmu.translate, h.paging, h.cr3, high_of_aligned P.directory_aligned]
  have hpde := h.directory _ hindex
  by_cases hzero : a.toNat / 2 ^ 22 = 0
  · rw [if_pos hzero] at hpde
    rw [m.passes_present user write P.table_aligned hpde, (high_of_unmarked hpde).trans (high_present P.table_aligned)]
    cases user with
    | true => rfl
    | false =>
      have hpage : a.toNat / 2 ^ 12 % 1024 = 0 := by
        simp only [flatMapped, Bool.not_false, Bool.true_and, Bool.and_eq_false_iff, decide_eq_false_iff_not] at ha
        omega
      have hpte := h.table _ hlt
      rw [if_pos hpage] at hpte
      rw [m.passes_absent false write hpte]
      rfl
  · rw [if_neg hzero] at hpde
    rw [m.passes_absent user write hpde]
    rfl

/-! ## Runs -/

/-- The paged memory is the flat one, off the tables. -/
structure Flattens (P : PageTables) (m : Mmu) (f : Address → Byte) : Prop where
  mapped : Mapped P m
  cells : ∀ a, ¬P.Holds a → m.ram.cell a = f a

/-- A store off the tables changes no mapping. -/
theorem Mapped.store (h : Mapped P m) {a : Address} (ha : ¬P.Holds a) (v : Byte) :
    Mapped P { m with ram := m.ram.store a v } := by
  have hword : ∀ {base : Address}, base &&& 0xFFF = 0 → base = P.directory ∨ base = P.table → ∀ i < 1024,
      (m.ram.store a v).loadWord (entryAddress base i) = m.ram.loadWord (entryAddress base i) := by
    intro base haligned hbase i hi
    refine Memory.loadWord_congr fun y hy => Memory.store_cell_of_ne _ _ fun e => ha ?_
    rw [mem_span_entry haligned hi, e] at hy
    rcases hbase with rfl | rfl
    · exact .inl ⟨by omega, by omega⟩
    · exact .inr ⟨by omega, by omega⟩
  refine ⟨h.paging, h.cr3, fun i hi => ?_, fun i hi => ?_⟩
  · rw [hword P.directory_aligned (.inl rfl) i hi, h.directory i hi]
  · rw [hword P.table_aligned (.inr rfl) i hi, h.table i hi]

/-- Each access goes as in the flat memory, or faults in both. -/
theorem Flattens.access (h : Flattens P m f) {x : PagedAccess} (hx : ¬P.Holds x.address) :
    Lockstep.Alike (Flattens P) (m.access x) (flatAccess f x) := by
  cases x with
  | load user a =>
    simp only [Mmu.access, flatAccess]
    by_cases ha : flatMapped user a = true
    · obtain ⟨m', hm', hmapped, hcells⟩ := h.mapped.translate_mapped false ha
      have hsame : ∀ y, ¬P.Holds y → m'.ram.cell y = f y := fun y hy => (hcells y hy).trans (h.cells y hy)
      rw [hm', if_pos ha]
      exact .some ⟨congrArg (fun v => [v]) (hsame a hx), hmapped, hsame⟩
    · rw [h.mapped.translate_unmapped false (Bool.eq_false_iff.2 ha), if_neg ha]
      exact .none
  | store user a v =>
    simp only [Mmu.access, flatAccess]
    by_cases ha : flatMapped user a = true
    · obtain ⟨m', hm', hmapped, hcells⟩ := h.mapped.translate_mapped true ha
      rw [hm', if_pos ha]
      refine .some ⟨rfl, hmapped.store hx v, fun y hy => ?_⟩
      show (m'.ram.store a v).cell y = Function.update f a v y
      by_cases hya : y = a
      · rw [hya, Function.update_self, Memory.store_cell_self]
      · rw [Function.update_of_ne hya, Memory.store_cell_of_ne _ _ hya, hcells y hy, h.cells y hy]
    · rw [h.mapped.translate_unmapped true (Bool.eq_false_iff.2 ha), if_neg ha]
      exact .none

end Mapped

/-- From `paging_init` on, in every run of accesses that keep off the two tables, each access answers what it
answers in the flat memory or faults with it: below 0x1000, from 4 MiB on and from ring 3 all fault. -/
theorem paged_run (P : PageTables) (m : Mmu) {xs : List PagedAccess} (hxs : ∀ x ∈ xs, ¬P.Holds x.address) :
    Lockstep.Alike (fun m' f => ∀ a, ¬P.Holds a → m'.ram.cell a = f a)
      ((pagingInit P m).run xs) (flatRun m.ram.cell xs) := by
  have hflat : Flattens P (pagingInit P m) m.ram.cell :=
    ⟨mapped_pagingInit P m, fun a ha => pagingInit_outside P m ha⟩
  exact (Lockstep.run_alike (fun h hx => h.access hx) hflat hxs).mono fun _ _ h => h.cells

/-- Tables in the third and fourth page from 0x10000 on. -/
def lowTables : PageTables where
  directory := 0x12000
  table := 0x13000
  directory_aligned := rfl
  table_aligned := rfl
  apart := by decide

/-- A byte is kept; a null pointer then faults. -/
def keepAndFault : List PagedAccess := [.store false 0x5000 0x41, .load false 0x5000, .load false 0]

theorem paged_run_kept :
    (∃ m', (pagingInit lowTables ⟨0x11, 0, ⟨fun _ => 0, []⟩⟩).run (keepAndFault.take 2) = some ([0x41], m') ∧
      m'.ram.cell 0x5000 = 0x41) ∧
    (pagingInit lowTables ⟨0x11, 0, ⟨fun _ => 0, []⟩⟩).run keepAndFault = none := by
  have hfree : ∀ x ∈ keepAndFault, ¬lowTables.Holds x.address := by
    simp only [keepAndFault, List.forall_mem_cons, PageTables.Holds, PagedAccess.address, lowTables]
    decide
  have hkept := @paged_run lowTables ⟨0x11, 0, ⟨fun _ => 0, []⟩⟩ (keepAndFault.take 2)
    fun x hx => hfree x (List.mem_of_mem_take hx)
  have hfault := paged_run lowTables ⟨0x11, 0, ⟨fun _ => 0, []⟩⟩ hfree
  obtain ⟨m', hm', hcells⟩ := Lockstep.Alike.of_some (t := Function.update (fun _ => 0) 0x5000 0x41) hkept
  exact ⟨⟨m', hm', hcells 0x5000 (by unfold PageTables.Holds lowTables; decide)⟩, Lockstep.Alike.of_none hfault⟩

end SpectreOS
