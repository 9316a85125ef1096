/-
Formatting and mounting under two fault patterns that agree on the requests made: the outcome is
the same. A pattern can so be healthy up to any point of a history and faulty from there on.
-/
import SpectreOS.Disk.Faults
import SpectreOS.Fs.Reformat

namespace SpectreOS

open BlockIO Prog

/-- The state with another fault pattern. -/
def withFaults (c : Conf FsMem Machine) (f : Nat → Bool) : Conf FsMem Machine := ⟨c.mem, c.dev.withFaults f⟩

theorem withFaults_self (c : Conf FsMem Machine) : withFaults c c.dev.ata.faults = c := rfl

/-- The number of requests the drive has seen. -/
def requests (c : Conf FsMem Machine) : Nat := c.dev.ata.log.length

section

variable {cp : Primitives} {material : Nat → Byte} {c : Conf FsMem Machine} {f : Nat → Bool}

/-- A program run under two patterns that agree on its requests. -/
theorem run_withFaults {α : Type} (p : FsM α)
    (hf : ∀ n, requests c ≤ n → n < requests (p.run (fsDisk cp) c).2 → f n = c.dev.ata.faults n) :
    p.run (fsDisk cp) (withFaults c f) = ((p.run (fsDisk cp) c).1, withFaults (p.run (fsDisk cp) c).2 f) :=
  (fsDisk_numbered cp c.dev.ata.faults f).run_eq p rfl hf

theorem run_requests (cp : Primitives) {α : Type} (p : FsM α) (c : Conf FsMem Machine) :
    (p.run (fsDisk cp) c).2.dev.ata.faults = c.dev.ata.faults ∧ requests c ≤ requests (p.run (fsDisk cp) c).2 :=
  (fsDisk_numbered cp c.dev.ata.faults c.dev.ata.faults).run_keeps p rfl

theorem fsSetup_withFaults (formatting : Bool) (b : Superblock) (m : Machine) :
    fsSetupDiskDevice cp formatting material b (m.withFaults f) =
      ((fsSetupDiskDevice cp formatting material b m).1, (fsSetupDiskDevice cp formatting material b m).2.1,
        (fsSetupDiskDevice cp formatting material b m).2.2.withFaults f) := by
  have hfind : blockdevFindByName (m.withFaults f) ['a', 't', 'a', '0'] =
      blockdevFindByName m ['a', 't', 'a', '0'] := rfl
  have hslots : (m.withFaults f).slots = m.slots := rfl
  have hcount : (m.withFaults f).deviceCount = m.deviceCount := rfl
  unfold fsSetupDiskDevice
  rw [hfind]
  cases blockdevFindByName m ['a', 't', 'a', '0'] with
  | none => rfl
  | some ataId =>
    dsimp only
    generalize (if formatting = true then { b with reserved := sealedReserved material b.reserved } else b) = b'
    split
    · rfl
    · unfold cryptoDiskCreateWithNonce
      rw [hslots]
      cases (List.range cryptoDiskMaxSlots).find? fun i => !(m.slots i).inUse with
      | none => rfl
      | some slot =>
        unfold blockdevRegister
        dsimp only
        rw [hcount]
        by_cases hfull : m.deviceCount ≥ blockdevMax
        · rw [if_pos hfull, if_pos hfull]
          rfl
        · rw [if_neg hfull, if_neg hfull]
          rfl

/-- A successful format under two patterns that agree on its requests. -/
theorem fsFormat_withFaults (h : (fsFormat (current cp) material c).1 = true)
    (hf : ∀ n, requests c ≤ n → n < requests (fsFormat (current cp) material c).2 → f n = c.dev.ata.faults n) :
    fsFormat (current cp) material (withFaults c f) = (true, withFaults (fsFormat (current cp) material c).2 f) := by
  obtain ⟨b, d, c₁, c₂, hpres, hsize, hset, htab, hsave, hend⟩ := fsFormat_ok h
  rw [hend] at hf ⊢
  have hset : fsSetupDiskDevice cp true material (freshSuperblock (min c.dev.ata.diskSectors 131072)) c.dev =
    (true, b, d) := hset
  have htab : formatTables.run (fsDisk cp) ⟨{ c.mem with superblock := b }, d⟩ = (true, c₁) := htab
  have hsave : saveSuperblock.run rawDisk c₁ = (true, c₂) := hsave
  have hd : d.ata = c.dev.ata := by
    have := @fsSetup_ata cp true material (freshSuperblock (min c.dev.ata.diskSectors 131072)) c.dev
    rwa [hset] at this
  -- the requests of the two halves
  have hk₁ := run_requests cp formatTables ⟨{ c.mem with superblock := b }, d⟩
  rw [htab] at hk₁
  have hk₂ := (rawDisk_numbered c₁.dev.ata.faults f).run_keeps saveSuperblock (c := c₁) rfl
  rw [hsave] at hk₂
  have hfaults : c₁.dev.ata.faults = c.dev.ata.faults := hk₁.1.trans (congrArg Ata.faults hd)
  have hstart : requests ⟨{ c.mem with superblock := b }, d⟩ = requests c := congrArg (fun a : Ata => a.log.length) hd
  have hset' : (current cp).setup true material (freshSuperblock (min ((current cp).sectorCount (withFaults c f).dev)
      (fsBitmapSectors * 4096))) (withFaults c f).dev = (true, b, d.withFaults f) := by
    have := @fsSetup_withFaults cp material f true (freshSuperblock (min c.dev.ata.diskSectors 131072)) c.dev
    rw [hset] at this
    exact this
  have htab' : formatTables.run (current cp).disk ⟨{ c.mem with superblock := b }, d.withFaults f⟩ =
      (true, withFaults c₁ f) := by
    have := @run_withFaults cp ⟨{ c.mem with superblock := b }, d⟩ f _ formatTables fun n h1 h2 => by
      rw [htab] at h2
      rw [hstart] at h1
      exact (hf n h1 (h2.trans_le hk₂.2)).trans (congrArg (fun a : Ata => a.faults n) hd).symm
    rw [htab] at this
    exact this
  have hsave' : saveSuperblock.run (current cp).raw (withFaults c₁ f) = (true, withFaults c₂ f) := by
    have := (rawDisk_numbered c₁.dev.ata.faults f).run_eq saveSuperblock (c := c₁) rfl fun n h1 h2 => by
      rw [hsave] at h2
      rw [hfaults]
      exact hf n (by rw [← hstart]; exact hk₁.2.trans h1) h2
    rw [hsave] at this
    exact this
  have hpres' : (current cp).present (withFaults c f).dev = true := hpres
  have hsize' : ¬ (current cp).sectorCount (withFaults c f).dev ≤ fsDataStart + fsDirectBlocks := by
    have : 129 < (current cp).sectorCount (withFaults c f).dev := hsize
    simp only [fsDataStart, fsDirectBlocks]
    omega
  unfold fsFormat
  simp only [hpres', Bool.not_true, Bool.false_eq_true, ↓reduceIte, hsize', hset']
  have hmem : (withFaults c f).mem = c.mem := rfl
  simp only [hmem, htab', hsave']
  rfl

/-- The steps of a mount whose superblock is read. -/
theorem fsInit_ok {δ : Type} {P : Platform δ} {c : Conf FsMem δ}
    (hload : (loadSuperblock.run P.raw { c with mem := { c.mem with filesystemReady := false } }).1 = true)
    (h : (fsInit P material c).1 = true) :
    ∃ c₁ b d c₂, P.present c.dev = true ∧
      loadSuperblock.run P.raw { c with mem := { c.mem with filesystemReady := false } } = (true, c₁) ∧
      P.setup false material c₁.mem.superblock c₁.dev = (true, b, d) ∧
      loadTables.run P.disk ⟨{ c₁.mem with superblock := b }, d⟩ = (true, c₂) ∧
      (fsInit P material c).2 = { c₂ with mem := mounted c₂.mem } := by
  rcases hl : loadSuperblock.run P.raw { c with mem := { c.mem with filesystemReady := false } } with ⟨ok, c₁⟩
  rw [hl] at hload
  obtain rfl : ok = true := hload
  unfold fsInit at h ⊢
  by_cases hp : P.present c.dev = true
  · simp only [hp, Bool.not_true, Bool.false_eq_true, ↓reduceIte, hl] at h ⊢
    rcases hs : P.setup false material c₁.mem.superblock c₁.dev with ⟨_ | _, b, d⟩
    · simp [hs] at h
    · rcases ht : loadTables.run P.disk ⟨{ c₁.mem with superblock := b }, d⟩ with ⟨_ | _, c₂⟩
      · simp [hs, ht] at h
      · exact ⟨c₁, b, d, c₂, trivial, rfl, hs, ht, by simp [ht]⟩
  · simp [hp] at h

/-- A successful mount of a disk whose superblock is read, under two patterns that agree on its
requests. -/
theorem fsInit_withFaults
    (hload : (loadSuperblock.run rawDisk { c with mem := { c.mem with filesystemReady := false } }).1 = true)
    (h : (fsInit (current cp) material c).1 = true)
    (hf : ∀ n, requests c ≤ n → n < requests (fsInit (current cp) material c).2 → f n = c.dev.ata.faults n) :
    fsInit (current cp) material (withFaults c f) = (true, withFaults (fsInit (current cp) material c).2 f) := by
  obtain ⟨c₁, b, d, c₂, hpres, hl, hset, htab, hend⟩ := fsInit_ok (P := current cp) hload h
  rw [hend] at hf ⊢
  have hl : loadSuperblock.run rawDisk { c with mem := { c.mem with filesystemReady := false } } = (true, c₁) := hl
  have hset : fsSetupDiskDevice cp false material c₁.mem.superblock c₁.dev = (true, b, d) := hset
  have htab : loadTables.run (fsDisk cp) ⟨{ c₁.mem with superblock := b }, d⟩ = (true, c₂) := htab
  have hd : d.ata = c₁.dev.ata := by
    have := @fsSetup_ata cp false material c₁.mem.superblock c₁.dev
    rwa [hset] at this
  -- the requests of the two halves
  have hk₁ := (rawDisk_numbered c.dev.ata.faults f).run_keeps loadSuperblock
    (c := { c with mem := { c.mem with filesystemReady := false } }) rfl
  rw [hl] at hk₁
  have hk₂ := run_requests cp loadTables ⟨{ c₁.mem with superblock := b }, d⟩
  rw [htab] at hk₂
  have hstart : requests ⟨{ c₁.mem with superblock := b }, d⟩ = requests c₁ := congrArg (fun a : Ata => a.log.length) hd
  rw [hstart] at hk₂
  have hl' : loadSuperblock.run (current cp).raw
      { withFaults c f with mem := { (withFaults c f).mem with filesystemReady := false } } =
        (true, withFaults c₁ f) := by
    have := (rawDisk_numbered c.dev.ata.faults f).run_eq loadSuperblock
      (c := { c with mem := { c.mem with filesystemReady := false } }) rfl fun n h1 h2 => by
        rw [hl] at h2
        exact hf n h1 (h2.trans_le hk₂.2)
    rw [hl] at this
    exact this
  have hset' : (current cp).setup false material (withFaults c₁ f).mem.superblock (withFaults c₁ f).dev =
      (true, b, d.withFaults f) := by
    have := @fsSetup_withFaults cp material f false c₁.mem.superblock c₁.dev
    rw [hset] at this
    exact this
  have htab' : loadTables.run (current cp).disk ⟨{ (withFaults c₁ f).mem with superblock := b }, d.withFaults f⟩ =
      (true, withFaults c₂ f) := by
    have := @run_withFaults cp ⟨{ c₁.mem with superblock := b }, d⟩ f _ loadTables fun n h1 h2 => by
      rw [htab] at h2
      rw [hstart] at h1
      refine (hf n (hk₁.2.trans h1) h2).trans ?_
      exact ((congrArg (fun a : Ata => a.faults n) hd).trans (congrFun hk₁.1 n)).symm
    rw [htab] at this
    exact this
  have hpres' : (current cp).present (withFaults c f).dev = true := hpres
  unfold fsInit
  simp only [hpres', Bool.not_true, Bool.false_eq_true, ↓reduceIte, hl', hset', htab']
  rfl

theorem runCalls_requests (cp : Primitives) (calls : List Call) (c : Conf FsMem Machine) :
    (runCalls (fsDisk cp) calls c).2.dev.ata.faults = c.dev.ata.faults ∧
      requests c ≤ requests (runCalls (fsDisk cp) calls c).2 := by
  induction calls generalizing c with
  | nil => exact ⟨rfl, le_rfl⟩
  | cons call calls ih =>
    obtain ⟨h1, h2⟩ := run_requests cp call.prog c
    obtain ⟨h3, h4⟩ := ih (call.prog.run (fsDisk cp) c).2
    exact ⟨h3.trans h1, h2.trans h4⟩

/-- A run of calls under two patterns that agree on its requests. -/
theorem runCalls_withFaults (calls : List Call)
    (hf : ∀ n, requests c ≤ n → n < requests (runCalls (fsDisk cp) calls c).2 → f n = c.dev.ata.faults n) :
    runCalls (fsDisk cp) calls (withFaults c f) =
      ((runCalls (fsDisk cp) calls c).1, withFaults (runCalls (fsDisk cp) calls c).2 f) := by
  induction calls generalizing c with
  | nil => rfl
  | cons call calls ih =>
    obtain ⟨h1, h2⟩ := run_requests cp call.prog c
    have h3 := (runCalls_requests cp calls (call.prog.run (fsDisk cp) c).2).2
    have hrun := @run_withFaults cp c f _ call.prog fun n hn hlt => hf n hn (hlt.trans_le h3)
    have hrest := ih (c := (call.prog.run (fsDisk cp) c).2) fun n hn hlt => by
      rw [h1]
      exact hf n (h2.trans hn) hlt
    simp only [runCalls, hrun, hrest]

/-- A history of a format and calls in which nothing fails, under a pattern that is healthy as long. -/
theorem history_withFaults (hreg : Registry c.dev) (h : (fsFormat (current cp) material c).1 = true)
    (hc : ∀ n, c.dev.ata.faults n = false) (calls : List Call)
    (hf : ∀ n < requests (runCalls (fsDisk cp) calls (fsFormat (current cp) material c).2).2, f n = false) :
    fsFormat (current cp) material (withFaults c f) = (true, withFaults (fsFormat (current cp) material c).2 f) ∧
      runCalls (fsDisk cp) calls (withFaults (fsFormat (current cp) material c).2 f) =
        ((runCalls (fsDisk cp) calls (fsFormat (current cp) material c).2).1,
          withFaults (runCalls (fsDisk cp) calls (fsFormat (current cp) material c).2).2 f) := by
  have h1 := (runCalls_requests cp calls (fsFormat (current cp) material c).2).2
  have hfaults : ∀ n, (fsFormat (current cp) material c).2.dev.ata.faults n = false := by
    obtain ⟨-, -, ⟨-, -, hsame⟩, -⟩ := fsFormat_current hreg h rfl
    intro n
    rw [hsame, hc]
  constructor
  · refine fsFormat_withFaults h fun n _ hn => ?_
    rw [hf n (hn.trans_le h1), hc]
  · refine runCalls_withFaults calls fun n _ hn => ?_
    rw [hf n hn, hfaults]

end

end SpectreOS
