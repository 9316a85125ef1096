/-
Encryption is transparent. The current code formats a disk encrypted and the legacy code formats one
plain; on the sectors the file operations read, the unsealed disk and the plain one are then the same,
whatever the two disks held before. The operations read no other sector and do not depend on the
superblock's reserved words, so the two codes go on alike: same results, same tables, and the same
sectors under the keystream, with the same requests failing.
-/
import SpectreOS.Crypto.Keystream
import SpectreOS.Fs.Compat

namespace SpectreOS

open BlockIO Prog

/-! ## Two disks after formatting -/

theorem bitmap_eq_of_bits {m m' : FsMem} (h : ∀ t < 131072, bitSet m' t = bitSet m t) {k : Nat} (hk : k < 16384) :
    m'.bitmap k = m.bitmap k := by
  ext j hj
  have hbit := h (k * 8 + j) (by omega)
  unfold bitSet at hbit
  rw [show (k * 8 + j) / 8 = k by omega, show (k * 8 + j) % 8 = j by omega] at hbit
  rwa [← BitVec.getLsbD_eq_getElem, ← BitVec.getLsbD_eq_getElem]

/-- Formatting leaves nothing of what a disk held before: two formatted disks agree on the metadata and
the root directory, and their tables differ in the reserved words alone. -/
theorem Laid.agree {N : Nat} {m₀ m m' : FsMem} {d d' : Nat → Sector} {reserved : Fin 8 → Nat} (h : Laid N m₀ d m)
    (h' : Laid N (m₀.withReserved reserved) d' m') :
    mounted m' = (mounted m).withReserved reserved ∧ ∀ l, 1 ≤ l → l < 129 → d' l = d l := by
  have hbits : ∀ t < 131072, bitSet m' t = bitSet m t := fun t ht =>
    Bool.eq_iff_iff.2 ((h'.tables.bits t ht).trans (h.tables.bits t ht).symm)
  have hbitmap : m'.bitmap = m.bitmap := by
    funext k
    by_cases hk : k < 16384
    · exact bitmap_eq_of_bits hbits hk
    · exact (h'.tables.beyond k (by omega)).trans (h.tables.beyond k (by omega)).symm
  have hinode : ∀ i, m'.inode i = m.inode i := by
    intro i
    rcases Nat.eq_zero_or_pos i with rfl | hi
    · rw [h'.tables.root, h.tables.root]
    · rw [h'.tables.empty i hi, h.tables.empty i hi]
  have hinodes : m'.inodes = m.inodes := by
    funext i
    simpa [FsMem.inode] using hinode i
  have hhandles : m'.handles = m.handles := h'.tables.handles.trans h.tables.handles.symm
  constructor
  · unfold mounted FsMem.withReserved
    rw [h'.tables.superblock, h.tables.superblock, hbitmap, hinodes, hhandles]
    rfl
  · intro l h1 h2
    by_cases hl : l < 33
    · have hsector : bitmapSector m' (l - 1) = bitmapSector m (l - 1) := by unfold bitmapSector; rw [hbitmap]
      have := ((h'.synced.bitmap (l - 1) (by omega)).trans hsector).trans (h.synced.bitmap (l - 1) (by omega)).symm
      rwa [Nat.add_sub_cancel' h1] at this
    by_cases hl' : l < 97
    · exact SlotSaved.sector_eq h.slots (fun i hi => hinode i ▸ h'.slots i hi) (by omega) hl'
    · have := (h'.zeroed (l - 97) (by omega)).trans (h.zeroed (l - 97) (by omega)).symm
      rwa [Nat.add_sub_cancel' (by omega)] at this

/-! ## Two drives -/

/-- The drives hold the same in the sectors `A` and fail the same of the requests to come. -/
structure Alike (A : Set Nat) (a b : Ata) : Prop where
  ready : b.diskReady = a.diskReady
  sectors : b.diskSectors = a.diskSectors
  faults : ∀ n, b.faults (b.log.length + n) = a.faults (a.log.length + n)
  disk : ∀ l ∈ A, b.disk l = a.disk l

namespace Alike

variable {A : Set Nat} {a b : Ata}

theorem accepts (h : Alike A a b) (lba : Nat) : b.accepts lba = a.accepts lba := by
  unfold Ata.accepts; rw [h.ready, h.sectors]

theorem record (h : Alike A a b) (r r' : Request) : Alike A (a.record r) (b.record r') := by
  refine ⟨h.ready, h.sectors, fun n => ?_, h.disk⟩
  have := h.faults (1 + n)
  simpa [Ata.record, Nat.add_assoc] using this

/-- They answer a request alike that reads a sector of `A`, or writes. -/
theorem models (N : Nat) : Models₂ (tracked N) ata ata Alike := by
  constructor
  · intro A a b lba h hlba
    have hfault := h.faults 0
    simp only [Nat.add_zero] at hfault
    simp only [ata, ataReadSector, h.accepts, hfault]
    split
    · split
      · exact ⟨rfl, A, rfl, h.record _ _⟩
      · exact ⟨congrArg some (h.disk lba hlba).symm, A, rfl, h.record _ _⟩
    · exact ⟨rfl, A, rfl, h⟩
  · intro A a b lba s h hlba
    have hfault := h.faults 0
    simp only [Nat.add_zero] at hfault
    simp only [ata, ataWriteSector, h.accepts, hfault]
    split
    · split
      · exact ⟨rfl, A, rfl, h.record _ _⟩
      · have hr := h.record (.write lba s true) (.write lba s true)
        refine ⟨rfl, insert lba A, rfl, hr.ready, hr.sectors, hr.faults, fun l hl => ?_⟩
        by_cases e : l = lba
        · subst e; simp
        · simp only [Function.update_of_ne e]
          exact h.disk l (hl.resolve_left e)
    · exact ⟨rfl, A, rfl, h⟩

end Alike

/-- The state of the plain disk's code that goes with one of the other's. -/
structure Twin (reserved : Fin 8 → Nat) (s t : Conf FsMem Ata) : Prop where
  mem : t.mem = s.mem.withReserved reserved
  disk : ∃ A, Tracked s.mem.superblock.totalSectors A s.mem ∧ Alike A s.dev t.dev

section

variable {reserved : Fin 8 → Nat} {s t : Conf FsMem Ata}

theorem Twin.call (h : Twin reserved s t) (call : Call) :
    (call.prog.run ata t).1 = (call.prog.run ata s).1 ∧
    Twin reserved (call.prog.run ata s).2 (call.prog.run ata t).2 := by
  obtain ⟨A, htracked, halike⟩ := h.disk
  obtain ⟨e1, e2, A', ⟨-, htracked', -⟩, halike'⟩ :=
    wp_sound₂ (Alike.models _) call.prog (call_tracked htracked call) halike
  have hblind := (call_sparing call).blind ata reserved s.mem t.dev
  rw [← h.mem] at hblind
  rw [show (⟨t.mem, t.dev⟩ : Conf FsMem Ata) = t from rfl] at hblind
  rw [hblind]
  refine ⟨e1.symm, congrArg (FsMem.withReserved · reserved) e2.symm, A', ?_, halike'⟩
  rw [htracked'.total]
  exact htracked'

theorem Twin.runCalls (h : Twin reserved s t) (calls : List Call) :
    (runCalls ata calls t).1 = (runCalls ata calls s).1 ∧
    Twin reserved (runCalls ata calls s).2 (runCalls ata calls t).2 := by
  induction calls generalizing s t with
  | nil => exact ⟨rfl, h⟩
  | cons call calls ih =>
    obtain ⟨h1, h2⟩ := h.call call
    obtain ⟨i1, i2⟩ := ih h2
    exact ⟨congrArg₂ List.cons h1 i1, i2⟩

end

/-! ## The first boot -/

theorem loadSuperblock_mem {δ : Type} (D : Device δ Sector) (c : Conf FsMem δ) :
    ∃ b, (loadSuperblock.run D c).2.mem = { c.mem with superblock := b } := by
  simp only [loadSuperblock, run_bind, run_readBlock]
  cases (D.read c.dev fsSuperblockSector).1 with
  | none => exact ⟨c.mem.superblock, rfl⟩
  | some block => exact ⟨_, rfl⟩

theorem loadSuperblock_refused {mem : FsMem} {a : Ata} (h : (onDisk a.disk).accepted = false) :
    (loadSuperblock.run ata ⟨mem, a⟩).1 = false := by
  simp only [loadSuperblock, run_bind, run_readBlock]
  cases hread : (ata.read a fsSuperblockSector).1 with
  | none => rfl
  | some block =>
    obtain ⟨rfl, -⟩ := ataReadSector_some hread
    exact h

/-- A boot that finds no filesystem formats one. -/
theorem fsInit_formats {δ : Type} {P : Platform δ} {material : Nat → Byte} {c c₁ : Conf FsMem δ}
    (hp : P.present c.dev = true)
    (hload : loadSuperblock.run P.raw { c with mem := { c.mem with filesystemReady := false } } = (false, c₁)) :
    fsInit P material c = fsFormat P material c₁ := by
  unfold fsInit
  simp only [hp, hload, Bool.not_true, Bool.false_eq_true, ↓reduceIte]

theorem fsInit_present {δ : Type} {P : Platform δ} {material : Nat → Byte} {c : Conf FsMem δ}
    (h : (fsInit P material c).1 = true) : P.present c.dev = true := by
  by_contra hp
  rw [Bool.not_eq_true] at hp
  simp [fsInit, hp] at h

/-- The drive with the requests from here on numbered from 0: request `n` fails when `f n`. -/
def Ata.failing (a : Ata) (f : Nat → Bool) : Ata := { a with faults := fun n => f (n - a.log.length) }

section

variable {cp : Primitives} {material : Nat → Byte} {mem : FsMem} {m : Machine} {a : Ata}

/-- The legacy boot on a disk that holds no filesystem. -/
theorem fsInit_legacy_formats (ha : (onDisk a.disk).accepted = false) (hready : a.diskReady = true) :
    ∃ b a₁, SameDrive a a₁ ∧ fsInit legacy material ⟨mem, a⟩ =
      fsFormat legacy material ⟨{ mem with filesystemReady := false, superblock := b }, a₁⟩ := by
  have hrefused := @loadSuperblock_refused { mem with filesystemReady := false } a ha
  obtain ⟨b, hb⟩ := loadSuperblock_mem ata ⟨{ mem with filesystemReady := false }, a⟩
  have hdrive := run_sameDrive loadSuperblock ⟨{ mem with filesystemReady := false }, a⟩
  rcases hload : loadSuperblock.run ata ⟨{ mem with filesystemReady := false }, a⟩ with ⟨ok, m₁, a₁⟩
  rw [hload] at hrefused hb hdrive
  obtain rfl : ok = false := hrefused
  obtain rfl : m₁ = { mem with filesystemReady := false, superblock := b } := hb
  exact ⟨b, a₁, hdrive, fsInit_formats hready hload⟩

/-- The current boot, which leaves the block layer as it is up to then. -/
theorem fsInit_current_formats (hm : (onDisk m.ata.disk).accepted = false) (hready : m.ata.diskReady = true) :
    ∃ b m₁, SameDrive m.ata m₁.ata ∧ SameLayer m m₁ ∧ fsInit (current cp) material ⟨mem, m⟩ =
      fsFormat (current cp) material ⟨{ mem with filesystemReady := false, superblock := b }, m₁⟩ := by
  obtain ⟨e1, -, e3, e4⟩ := run_hom (rawDisk_hom m) loadSuperblock ⟨{ mem with filesystemReady := false }, m⟩ rfl
  have hrefused := e1.trans (loadSuperblock_refused hm)
  obtain ⟨b, hb⟩ := loadSuperblock_mem rawDisk ⟨{ mem with filesystemReady := false }, m⟩
  have hdrive := run_sameDrive loadSuperblock ⟨{ mem with filesystemReady := false }, m.ata⟩
  rw [← e3] at hdrive
  rcases hload : loadSuperblock.run rawDisk ⟨{ mem with filesystemReady := false }, m⟩ with ⟨ok, n₁, m₁⟩
  rw [hload] at hrefused hb hdrive e4
  obtain rfl : ok = false := hrefused
  obtain rfl : n₁ = { mem with filesystemReady := false, superblock := b } := hb
  exact ⟨b, m₁, hdrive, e4, fsInit_formats (P := current cp) hready hload⟩

/-- Without failures both boots succeed on a disk that is large enough, the current one if a crypto
slot and an entry of the registry are free. -/
theorem fsInit_legacy_ok (ha : (onDisk a.disk).accepted = false) (hready : a.diskReady = true)
    (hsize : 129 < a.diskSectors) (hf : ∀ n, a.faults n = false) : (fsInit legacy material ⟨mem, a⟩).1 = true := by
  obtain ⟨b, a₁, hdrive, hinit⟩ := @fsInit_legacy_formats material mem a ha hready
  rw [hinit]
  exact fsFormat_legacy_ok (hdrive.1.trans hready) (lt_of_lt_of_eq hsize hdrive.2.1.symm) fun n =>
    (congrFun hdrive.2.2 n).trans (hf n)

theorem fsInit_current_ok (hm : (onDisk m.ata.disk).accepted = false) (hreg : Registry m)
    (hready : m.ata.diskReady = true) (hsize : 129 < m.ata.diskSectors) (hf : ∀ n, m.ata.faults n = false)
    (hata : (blockdevFindByName m ata0).isSome) (hslot : ∃ k < 2, (m.slots k).inUse = false)
    (hroom : m.deviceCount < 8) :
    (fsInit (current cp) material ⟨mem, m⟩).1 = true := by
  obtain ⟨b, m₁, hdrive, hlayer, hinit⟩ := @fsInit_current_formats cp material mem m hm hready
  rw [hinit]
  obtain ⟨a₁, rfl⟩ : ∃ a₁, m₁ = { m with ata := a₁ } := ⟨_, hlayer⟩
  exact fsFormat_current_ok ⟨hreg.used, hreg.count, hreg.ata0⟩ (hdrive.1.trans hready)
    (lt_of_lt_of_eq hsize hdrive.2.1.symm) (fun n => (congrFun hdrive.2.2 n).trans (hf n)) hata hslot hroom

/-- After the first boots the two codes stand alike, on the unsealed disk and on the plain one. -/
theorem fsInit_twin (hreg : Registry m) (hsectors : a.diskSectors = m.ata.diskSectors)
    (hm : (onDisk m.ata.disk).accepted = false) (ha : (onDisk a.disk).accepted = false)
    (hs : (fsInit (current cp) material ⟨mem, m⟩).1 = true) (ht : (fsInit legacy material ⟨mem, a⟩).1 = true)
    (f : Nat → Bool) :
    let s := (fsInit (current cp) material ⟨mem, m⟩).2
    let t := (fsInit legacy material ⟨mem, a⟩).2
    ∃ slot, slot.key = superblockKey cp s.mem.superblock ∧ slot.nonce = superblockNonce s.mem.superblock ∧
      Sealed slot s.dev ∧
      Twin (fun _ => 0) ⟨s.mem, unsealed cp slot (s.dev.ata.failing f)⟩ ⟨t.mem, t.dev.failing f⟩ := by
  intro s t
  have hready : m.ata.diskReady = true := fsInit_present hs
  have hready' : a.diskReady = true := fsInit_present ht
  obtain ⟨b, m₁, hdrive, hlayer, hinit⟩ := @fsInit_current_formats cp material mem m hm hready
  obtain ⟨b', a₁, hdrive', hinit'⟩ := @fsInit_legacy_formats material mem a ha hready'
  rw [hinit] at hs
  rw [hinit'] at ht
  have hreg₁ : Registry m₁ := by rw [hlayer]; exact ⟨hreg.used, hreg.count, hreg.ata0⟩
  obtain ⟨N, hN⟩ : ∃ N, min m₁.ata.diskSectors 131072 = N := ⟨_, rfl⟩
  have hN' : min a₁.diskSectors 131072 = N := by
    rw [← hN, hdrive.2.1, hdrive'.2.1, hsectors]
  obtain ⟨-, hsame, slot, s₁, hk, hn, hsealed, hmem, hlaid⟩ := fsFormat_laid hreg₁ hs hN
  obtain ⟨t₁, hmem', hlaid', -, hsame'⟩ := fsFormat_legacy ht hN'
  obtain ⟨htwin, hdisk⟩ := hlaid.agree (show Laid N (FsMem.withReserved _ fun _ => 0) _ _ from hlaid')
  rw [← congrArg Prod.snd hinit] at hsame hsealed hmem hlaid hdisk
  rw [← congrArg Prod.snd hinit'] at hsame' hmem' hdisk
  have hsb : s.mem.superblock = sealedSuperblock material N := by
    rw [show s.mem = mounted s₁ from hmem]
    exact hlaid.tables.superblock
  refine ⟨slot, by rw [hsb, hk], by rw [hsb, hn], hsealed, ?_, {l | 1 ≤ l ∧ l < 129}, ?_, ?_⟩
  · show t.mem = s.mem.withReserved _
    rw [show s.mem = mounted s₁ from hmem, show t.mem = mounted t₁ from hmem']
    exact htwin
  · show Tracked s.mem.superblock.totalSectors _ s.mem
    rw [show s.mem = mounted s₁ from hmem]
    refine ⟨rfl, hlaid.fresh.owned, fun l h1 h2 => ⟨h1, by omega⟩, fun l h1 h2 hbit => ⟨by omega, ?_⟩⟩
    have hi := hlaid.hi
    rw [hlaid.fresh.total] at h2
    exact (hlaid.fresh.bits l (by omega)).1 hbit
  · refine ⟨?_, ?_, fun n => ?_, fun l hl => hdisk l hl.1 hl.2⟩
    · exact (hsame'.1.trans (hdrive'.1.trans hready')).trans (hsame.1.trans (hdrive.1.trans hready)).symm
    · exact (hsame'.2.1.trans (hdrive'.2.1.trans hsectors)).trans (hsame.2.1.trans hdrive.2.1).symm
    · simp [Ata.failing, unsealed]

/-- The current code on an encrypted disk and the legacy code on a plain one of the same size, from the
boots that format them: with the same requests failing, all calls return the same values and bytes,
the tables stay equal, and so do the metadata and the allocated sectors once the bytes of the encrypted
disk are XORed with the keystream of counter mode. -/
theorem encryption_transparent (hreg : Registry m) (hsectors : a.diskSectors = m.ata.diskSectors)
    (hm : (onDisk m.ata.disk).accepted = false) (ha : (onDisk a.disk).accepted = false)
    (hs : (fsInit (current cp) material ⟨mem, m⟩).1 = true) (ht : (fsInit legacy material ⟨mem, a⟩).1 = true)
    (f : Nat → Bool) (calls : List Call) :
    let s₀ := (fsInit (current cp) material ⟨mem, m⟩).2
    let t₀ := (fsInit legacy material ⟨mem, a⟩).2
    let s := runCalls (fsDisk cp) calls ⟨s₀.mem, { s₀.dev with ata := s₀.dev.ata.failing f }⟩
    let t := runCalls ata calls ⟨t₀.mem, t₀.dev.failing f⟩
    s.1 = t.1 ∧ s.2.mem.bitmap = t.2.mem.bitmap ∧ s.2.mem.inodes = t.2.mem.inodes ∧ s.2.mem.handles = t.2.mem.handles ∧
      ∃ slot, slot.key = superblockKey cp s.2.mem.superblock ∧ slot.nonce = superblockNonce s.2.mem.superblock ∧
        Sealed slot s.2.dev ∧
        ∀ lba, 1 ≤ lba ∧ lba < 97 ∨ 97 ≤ lba ∧ lba < s.2.mem.superblock.totalSectors ∧ bitSet s.2.mem lba = true →
          ∀ i : Fin 512, s.2.dev.ata.disk lba i ^^^ Ctr.keystream 8 (cp.aes256 slot.key) slot.nonce (lba * 512 + i) =
            t.2.dev.disk lba i := by
  intro s₀ t₀ s t
  obtain ⟨slot, hk, hn, hsealed, htwin⟩ := fsInit_twin hreg hsectors hm ha hs ht f
  have hO : Owned s₀.mem := by
    obtain ⟨A, htracked, -⟩ := htwin.disk
    exact htracked.owned
  have hsealed₁ : Sealed slot { s₀.dev with ata := s₀.dev.ata.failing f } := hsealed.withAta _
  obtain ⟨hsealed', -, hsb, -⟩ := Sealed.runCalls_frame (s := ⟨s₀.mem, _⟩) hsealed₁ cp hO calls
  -- a run on the encrypted disk is one on the unsealed disk
  obtain ⟨e1, e2, e3, -⟩ := runCalls_hom (sealed_hom cp slot) calls ⟨s₀.mem, _⟩ hsealed₁
  obtain ⟨i1, hmem, A, htracked, halike⟩ := htwin.runCalls calls
  rw [← e1] at i1
  rw [← e2] at hmem htracked
  rw [← e3] at halike
  have hmem' : t.2.mem = s.2.mem.withReserved fun _ => 0 := hmem
  have hsb' : s.2.mem.superblock = s₀.mem.superblock := hsb
  refine ⟨i1.symm, by rw [hmem']; rfl, by rw [hmem']; rfl, by rw [hmem']; rfl, slot, by rw [hsb', hk], by rw [hsb', hn],
    hsealed', fun lba hlba i => ?_⟩
  have hlba' : lba ∈ A := by
    rcases hlba with ⟨h1, h2⟩ | ⟨h1, h2, h3⟩
    · exact htracked.metadata lba h1 h2
    · exact htracked.data lba h1 h2 h3
  rw [← cryptoXorSector_eq, halike.disk lba hlba']
  rfl

/-- A blank disk and one full of ones, with every third request after the boots failing. -/
theorem encryption_transparent_boot :
    let m := bootMachine (blankDrive 200)
    let a : Ata := { blankDrive 200 with disk := fun _ _ => 0xFF }
    let s₀ := (fsInit (current nullPrimitives) (fun _ => 0) ⟨FsMem.boot, m⟩).2
    let t₀ := (fsInit legacy (fun _ => 0) ⟨FsMem.boot, a⟩).2
    let f : Nat → Bool := fun n => n % 3 == 2
    (runCalls (fsDisk nullPrimitives) [.create nameA, .list true 64]
        ⟨s₀.mem, { s₀.dev with ata := s₀.dev.ata.failing f }⟩).1 =
      (runCalls ata [.create nameA, .list true 64] ⟨t₀.mem, t₀.dev.failing f⟩).1 := by
  intro m a s₀ t₀ f
  have hm : (onDisk m.ata.disk).accepted = false := by decide
  have ha : (onDisk a.disk).accepted = false := by decide
  have hs : (fsInit (current nullPrimitives) (fun _ => 0) ⟨FsMem.boot, m⟩).1 = true :=
    fsInit_current_ok hm (Registry.boot _) rfl (show 129 < 200 by omega) (fun _ => rfl) rfl ⟨0, by omega, rfl⟩
      (show 1 < 8 by omega)
  have ht : (fsInit legacy (fun _ => 0) ⟨FsMem.boot, a⟩).1 = true :=
    fsInit_legacy_ok ha rfl (show 129 < 200 by omega) fun _ => rfl
  exact (encryption_transparent (m := m) (a := a) (Registry.boot _) rfl hm ha hs ht f [.create nameA, .list true 64]).1

end

end SpectreOS
