/-
What `fs_write` reports and what is on the disk. The byte count is fixed by the data loop; the inode,
with the size and the sectors of the file, is saved after it, and the outcome of that save is not
looked at. When the save fails, the next mount finds the inode as it was on the disk before.
-/
import SpectreOS.Fs.Bijection

namespace SpectreOS

open BlockIO Prog

/-- What `fs_write` does after its data loop has written `done` bytes. -/
def writeTail (fd index position done : Nat) : FsM Int := do
  modify (finishWrite · fd index (position + done))
  let _ ← saveInode index
  let _ ← saveBitmap
  pure done

/-- The data loop of a `fs_write` that gets past its checks. -/
def dataLoop (m : FsMem) (fd : Int) (input : List Byte) : FsM Nat :=
  let position := (m.handles fd.toNat).position
  fsWriteLoop (m.handles fd.toNat).inode.toNat position (min input.length (16384 - position)) (input.getD · 0) 0

/-- The inode reaches this far, with a sector under every byte of the range. -/
def Covers (inode : Inode) (position n : Nat) : Prop :=
  position + n ≤ inode.size ∧ ∀ k < n, inode.blockOf (position + k) ≠ 0

/-- The file has the bytes at the position. -/
def Contains (d : Nat → Sector) (inode : Inode) (position : Nat) (bytes : List Byte) : Prop :=
  Covers inode position bytes.length ∧ ∀ k < bytes.length, byteAt d inode (position + k) = bytes.getD k 0

/-- The inode on the disk has the range already, in the sectors that the inode in memory has it in. -/
def InPlace (d : Nat → Sector) (m : FsMem) (i position n : Nat) : Prop :=
  Covers (storedInode d i) position n ∧
    ∀ k < n, (storedInode d i).blockOf (position + k) = (m.inode i).blockOf (position + k)

section

variable {δ : Type} {N n : Nat} {cp : Primitives} {acc : Nat → Prop} {f : Nat → Bool} {r w : Bool}
  {d d₁ d' : Nat → Sector} {m m₁ : FsMem}

theorem fsWrite_run (D : Device δ Sector) {c : Conf FsMem δ} {fd : Int} {input : List Byte}
    (hu : handleUsable c.mem fd true = true) (hp : (c.mem.handles fd.toNat).position < 16384) :
    let loop := (dataLoop c.mem fd input).run D c
    (fsWrite fd (some input)).run D c = (writeTail fd.toNat (c.mem.handles fd.toNat).inode.toNat
      (c.mem.handles fd.toNat).position loop.1).run D loop.2 := by
  have hnot : ¬ (c.mem.handles fd.toNat).position ≥ fsMaxFileSize := by
    simp only [fsMaxFileSize]
    omega
  unfold fsWrite
  simp only [run_bind, run_load, Option.isSome_some, hu, Bool.not_true, Bool.false_eq_true, if_false, Option.getD_some]
  refine (congrArg (fun p => run D p c) (if_neg hnot)).trans ?_
  rw [run_bind]
  rfl

theorem writeTail_run (D : Device δ Sector) (c : Conf FsMem δ) (fd index position done : Nat) :
    ((writeTail fd index position done).run D c).1 = done := by
  unfold writeTail
  simp only [run_bind, run_pure]

/-- The tail leaves the data alone, and the inode is saved if the two requests for it succeed. -/
theorem writeTail_counted (hacc : ∀ lba, 1 ≤ lba → lba < 97 → acc lba) {i : Nat} (hi : i < 128)
    (fd position done : Nat) :
    (writeTail fd i position done).wp (counted acc f) (fun res g' m' => res = done ∧
      m' = finishWrite m fd i (position + done) ∧
      AgreeOffBitmap
        (if f n = false ∧ f (n + 1) = false then withInode d i ((finishWrite m fd i (position + done)).inode i)
          else d) g'.2) (n, d) m := by
  unfold writeTail
  simp only [wp_bind, wp_modify]
  refine (saveInode_counted (fun lba h1 h2 => hacc lba (by omega) h2) hi).mono ?_
  rintro ok ⟨n₁, d₁⟩ m₁ ⟨rfl, hsave⟩
  refine (saveBitmap_counted fun lba h1 h2 => hacc lba h1 (by omega)).mono ?_
  rintro ok' ⟨n₂, d₂⟩ m₂ ⟨rfl, hagree, -⟩
  refine ⟨rfl, rfl, ?_⟩
  split at hsave
  · rename_i hserved
    rw [if_pos hserved]
    obtain ⟨-, hg⟩ := hsave
    obtain ⟨-, rfl⟩ := Prod.mk.injEq .. ▸ hg
    exact hagree
  · rename_i hserved
    rw [if_neg hserved]
    obtain ⟨-, hd⟩ := hsave
    have hd : d₁ = d := hd
    rw [← hd]
    exact hagree

/-! ## The inode on the disk -/

theorem Owned.blockOf_ge (h : Owned m) (i p : Nat) (hne : (m.inode i).blockOf p ≠ 0) : 97 ≤ (m.inode i).blockOf p := by
  by_cases hp : p / 512 < 32
  · rw [Inode.blockOf_eq hp] at hne ⊢
    exact (h.range i _ hne).1
  · exact absurd (dif_neg hp) hne

/-- The data loop leaves the inodes on the disk alone. -/
theorem Wrote.storedInode {i j position size done : Nat} {input : Nat → Byte} (hO : Owned m)
    (W : Wrote r w i position size input d m 0 done d₁ m₁) (hj : j < 128) : storedInode d₁ j = storedInode d j := by
  refine storedInode_congr (W.frame _ (by omega) (.inr fun k hk => ?_))
  have := ((W.grows.owned hO).range i k (by omega)).1
  omega

theorem Wrote.sound {i position size done : Nat} {input : Nat → Byte} (h : Sound N d m) (hlo : 1 ≤ i) (hi : i < 128)
    (W : Wrote r w i position size input d m 0 done d₁ m₁) : Sound N d₁ m₁ := by
  obtain ⟨hsb, hhandles, -⟩ := W.grows.frame
  have hfields := W.grows.fields
  refine ⟨h.lo, by rw [hsb]; exact h.total, W.grows.owned h.owned, ?_, fun slot hs => ?_, ?_, ?_,
    fun j => ?_, fun j => ?_, fun j k => ?_⟩
  · rw [W.grows.inode_of_ne (by omega)]
    exact h.root
  · simp only [slotCount] at hs
    rw [entryAt_congr (W.dir_frame h hlo (by omega) (by omega))]
    exact h.entries slot hs
  · rw [hhandles]
    exact h.handles
  · rw [hhandles]
    exact h.positions
  · rw [(hfields j).2.1]
    exact h.sizes j
  · rw [(hfields j).1]
    exact h.modes j
  · rw [(hfields j).2.2]
    exact h.reserved j k

/-- The inode that the tail leaves on the disk, and the data it refers to. -/
theorem Wrote.tail {i position size done : Nat} {input : Nat → Byte} {ok : Prop} [Decidable ok] {inode : Inode}
    (hO : Owned m) (hi : i < 128) (W : Wrote r w i position size input d m 0 done d₁ m₁) (hfits : inode.Fits)
    (hd : AgreeOffBitmap (if ok then withInode d₁ i inode else d₁) d') :
    (SpectreOS.storedInode d' i = if ok then inode else SpectreOS.storedInode d i) ∧ ∀ l, 97 ≤ l → d' l = d₁ l := by
  constructor
  · rw [storedInode_congr (hd _ (by omega))]
    split
    · exact storedInode_withInode d₁ i hfits
    · exact W.storedInode hO hi
  · intro l hl
    rw [hd l (by omega)]
    split
    · exact Function.update_of_ne (show l ≠ 33 + i / 2 by omega) _ _
    · rfl

/-- What is on the disk after a write: all the bytes, if the inode was saved or had the range in
place; if neither it was saved nor covered the range, not. -/
theorem Wrote.durable {i fd position done : Nat} {input : List Byte} {ok : Prop} [Decidable ok]
    (hO : Owned m) (hi : i < 128)
    (W : Wrote r w i position (min input.length (16384 - position)) (input.getD · 0) d m 0 done d₁ m₁)
    (hfits : ((finishWrite m₁ fd i (position + done)).inode i).Fits)
    (hd : AgreeOffBitmap (if ok then withInode d₁ i ((finishWrite m₁ fd i (position + done)).inode i) else d₁) d') :
    (ok ∨ InPlace d m i position done → Contains d' (SpectreOS.storedInode d' i) position (input.take done)) ∧
      (Contains d' (SpectreOS.storedInode d' i) position (input.take done) →
        ok ∨ Covers (SpectreOS.storedInode d i) position done) := by
  obtain ⟨hstored, hdata⟩ := W.tail hO hi hfits hd
  have hle := W.le
  have hlen : (input.take done).length = done := by
    rw [List.length_take]
    omega
  have hO₁ := W.grows.owned hO
  -- the bytes are in the sectors of the inode in memory
  have hbytes : ∀ k < done, byteAt d₁ (m₁.inode i) (position + k) = (input.take done).getD k 0 := by
    intro k hk
    rw [W.bytes, if_pos (by omega), Nat.add_sub_cancel_left]
    simp only [List.getD_eq_getElem?_getD, List.getElem?_take, if_pos hk]
  have hfilled : ∀ k < done, (m₁.inode i).blockOf (position + k) ≠ 0 := fun k hk => W.filled _ (by omega) (by omega)
  have hcontains : ∀ b : Inode, position + done ≤ b.size →
      (∀ k < done, b.blockOf (position + k) = (m₁.inode i).blockOf (position + k)) →
      Contains d' b position (input.take done) := by
    intro b hsize hblocks
    refine ⟨⟨by rw [hlen]; exact hsize, fun k hk => ?_⟩, fun k hk => ?_⟩
    · rw [hlen] at hk
      rw [hblocks k hk]
      exact hfilled k hk
    · rw [hlen] at hk
      rw [← hbytes k hk]
      exact byteAt_congr (hblocks k hk) fun hne => hdata _ (hO₁.blockOf_ge i _ hne)
  rw [hstored]
  constructor
  · intro h
    by_cases hok : ok
    · rw [if_pos hok]
      refine hcontains _ ?_ fun k _ => ?_
      · rw [inode_finishWrite _ _ _ _ _ hi, if_pos rfl]
        exact Nat.le_max_right _ _
      · rw [inode_finishWrite _ _ _ _ _ hi, if_pos rfl]
        rfl
    · rw [if_neg hok]
      obtain ⟨⟨hsize, hne⟩, hsame⟩ := h.resolve_left hok
      refine hcontains _ hsize fun k hk => ?_
      rw [hsame k hk]
      -- a block that was there is there still
      have hm : (m.inode i).blockOf (position + k) ≠ 0 := by
        rw [← hsame k hk]
        exact hne k hk
      by_cases hp : (position + k) / 512 < 32
      · rw [Inode.blockOf_eq hp] at hm
        rw [Inode.blockOf_eq hp, Inode.blockOf_eq hp]
        exact (W.grows.direct hm).symm
      · exact absurd (dif_neg hp) hm
  · intro h
    by_cases hok : ok
    · exact .inl hok
    · rw [if_neg hok] at h
      have hcovers := h.1
      rw [hlen] at hcovers
      exact .inr hcovers

/-! ## After a reboot -/

/-- The two requests with which `fs_write` saves the inode, after the ones of its data loop. -/
def InodeServed (cp : Primitives) (s : Conf FsMem Machine) (fd : Int) (input : List Byte) : Prop :=
  let k := requests ((dataLoop s.mem fd input).run (fsDisk cp) s).2
  s.dev.ata.faults k = false ∧ s.dev.ata.faults (k + 1) = false

theorem WroteTo.positive {fd : Int} {buffer : Option (List Byte)} {res : Int} (hw : WroteTo r w d m fd buffer res d' m₁)
    (h : 0 < res) : handleUsable m fd buffer.isSome = true ∧ (m.handles fd.toNat).position < 16384 := by
  cases hw with
  | refused => cases h
  | full => cases h
  | done n d₁ m₁ d' hu hpos => exact ⟨hu, hpos⟩

/-- What a write of a positive count has left on the disk. -/
theorem Live.write_durable {s : Conf FsMem Machine} (h : Live cp N r w s) {fd : Int} {input : List Byte} {done : Nat}
    (hres : ((fsWrite fd (some input)).run (fsDisk cp) s).1 = done) (hpos : 0 < done) :
    let d := logicalDisk cp s.dev
    let d' := logicalDisk cp ((fsWrite fd (some input)).run (fsDisk cp) s).2.dev
    let i := (s.mem.handles fd.toNat).inode.toNat
    let position := (s.mem.handles fd.toNat).position
    i < 128 ∧ (∀ slot < slotCount, entryAt d' slot = entryAt d slot) ∧
      (InodeServed cp s fd input ∨ InPlace d s.mem i position done →
        Contains d' (storedInode d' i) position (input.take done)) ∧
      (Contains d' (storedInode d' i) position (input.take done) →
        InodeServed cp s fd input ∨ Covers (storedInode d i) position done) := by
  intro d d' i position
  obtain ⟨hwrote, hlive'⟩ := h.exec (fsWrite_exact h.sound fd (some input)) fun _ _ _ hq => hq.sound h.sound
  obtain ⟨hu, hp⟩ := hwrote.positive (by rw [hres]; exact_mod_cast hpos)
  have hu : handleUsable s.mem fd true = true := hu
  obtain ⟨-, hlo, hi, -⟩ := h.sound.usable hu
  have hN := h.sound.lo
  have htail := @fsWrite_run _ (fsDisk cp) s fd input hu hp
  dsimp only at htail
  -- the data loop, and the requests it has made
  obtain ⟨W, hloop⟩ :=
    h.exec (p := dataLoop s.mem fd input) (fsWriteLoop_exact (by omega) h.sound.total h.sound.owned hi position
      (min input.length (16384 - position)) (by omega) (input.getD · 0) 0 (Nat.zero_le _)) fun n d₁ m₁ W =>
    W.sound h.sound hlo hi
  unfold InodeServed
  dsimp only
  rw [← (run_requests cp (dataLoop s.mem fd input) s).1]
  generalize (dataLoop s.mem fd input).run (fsDisk cp) s = loop at W hloop htail ⊢
  -- the tail, by the outcomes of its requests
  obtain ⟨_, hval, hmem, hdisk⟩ := hloop.exec_counted (writeTail_counted (n := requests loop.2)
    (fun lba _ _ => by omega)
    hi fd.toNat position loop.1)
  rw [← htail] at hval hmem hdisk
  obtain rfl : loop.1 = done := by
    rw [hres] at hval
    exact_mod_cast hval.symm
  have hfits : ((finishWrite loop.2.mem fd.toNat i (position + loop.1)).inode i).Fits := by
    rw [← hmem]
    exact hlive'.sound.fits i
  exact ⟨hi, (hwrote.frame h.sound).1, W.durable h.sound.owned hi hfits hdisk⟩

theorem Call.write_run (D : Device δ Sector) (fd : Int) (buffer : Option (List Byte)) (s : Conf FsMem δ) :
    (Call.write fd buffer).prog.run D s = (⟨((fsWrite fd buffer).run D s).1, []⟩, ((fsWrite fd buffer).run D s).2) := by
  rw [Call.prog, run_bind]
  rfl

theorem Running.mountable {s : Conf FsMem Machine} {a : Files} (h : Running cp N s a) (f : Nat → Bool) :
    Mountable cp N (SpectreOS.withFaults s f) := by
  have hhi := h.refines.sound.owned.totalHi
  rw [h.refines.sound.total] at hhi
  obtain ⟨slot, hsealed, hkey⟩ := h.slot
  exact ⟨h.refines.sound.lo, hhi, h.superblock, h.sector, slot, hsealed.withAta _, hkey⟩

theorem Mountable.write {s : Conf FsMem Machine} (h : Mountable cp N s) (hO : Owned s.mem) (fd : Int)
    (buffer : Option (List Byte)) : Mountable cp N ((fsWrite fd buffer).run (fsDisk cp) s).2 := by
  have := h.calls hO [.write fd buffer]
  simp only [runCalls, Call.write_run] at this
  exact this

/-- A write that returns a positive count, and a reboot of the disk, healthy from then on. -/
theorem Live.write_reboot {s : Conf FsMem Machine} (hlive : Live cp N r w s) (hmount : Mountable cp N s) {fd : Int}
    {input : List Byte} {done : Nat} (hres : ((fsWrite fd (some input)).run (fsDisk cp) s).1 = done) (hpos : 0 < done)
    (material : Nat → Byte) {c : Conf FsMem Machine}
    (hboot : Rebooted N ((fsWrite fd (some input)).run (fsDisk cp) s).2.dev.ata.disk c) :
    let i := (s.mem.handles fd.toNat).inode.toNat
    let position := (s.mem.handles fd.toNat).position
    let b := (fsInit (current cp) material c).2
    (fsInit (current cp) material c).1 = true ∧
      (∀ name, lookup (logicalDisk cp b.dev) name = lookup (logicalDisk cp s.dev) name) ∧
      (InodeServed cp s fd input ∨ InPlace (logicalDisk cp s.dev) s.mem i position done →
        Contains (logicalDisk cp b.dev) (b.mem.inode i) position (input.take done)) ∧
      (Contains (logicalDisk cp b.dev) (b.mem.inode i) position (input.take done) →
        InodeServed cp s fd input ∨ Covers (storedInode (logicalDisk cp s.dev) i) position done) := by
  intro i position b
  obtain ⟨hok, -, -, -, -, -, hview, hsync⟩ := (hmount.write hlive.sound.owned fd (some input)).init material hboot
  obtain ⟨hi, hentries, hwrite⟩ := hlive.write_durable hres hpos
  refine ⟨hok, fun name => ?_, ?_⟩
  · rw [hview]
    exact lookup_congr hentries
  · rw [hview, ← hsync.inodes i hi]
    exact hwrite

/-- In every state that calls lead to, whatever has failed so far: after a write that returns a
positive count and a reboot the filesystem mounts, the names refer to their files, and the file has
the bytes if the inode was saved, or was in place with the whole range. If the inode was neither
saved nor covered the range, the bytes are lost. -/
theorem fsWrite_durable {s₀ : Conf FsMem Machine} {a : Files} (h : Reached cp N s₀ a)
    (f : Nat → Bool) (calls : List Call) (fd : Int) (input : List Byte) (material : Nat → Byte)
    (c : Conf FsMem Machine) (done : Nat) :
    let s := (runCalls (fsDisk cp) calls (SpectreOS.withFaults s₀ f)).2
    let r := (fsWrite fd (some input)).run (fsDisk cp) s
    let i := (s.mem.handles fd.toNat).inode.toNat
    let position := (s.mem.handles fd.toNat).position
    let b := (fsInit (current cp) material c).2
    r.1 = done → 0 < done → Rebooted N r.2.dev.ata.disk c →
      (fsInit (current cp) material c).1 = true ∧
      (∀ name, lookup (logicalDisk cp b.dev) name = lookup (logicalDisk cp s.dev) name) ∧
      (InodeServed cp s fd input ∨ InPlace (logicalDisk cp s.dev) s.mem i position done →
        Contains (logicalDisk cp b.dev) (b.mem.inode i) position (input.take done)) ∧
      (Contains (logicalDisk cp b.dev) (b.mem.inode i) position (input.take done) →
        InodeServed cp s fd input ∨ Covers (storedInode (logicalDisk cp s.dev) i) position done) := by
  intro s r i position b hres hpos hboot
  have hrun := h.running
  exact (h.live_calls f calls).write_reboot ((hrun.mountable f).calls hrun.refines.sound.owned calls) hres hpos material
    hboot

/-! ## A write whose inode is not saved -/

/-- A write to a handle that would grow the file, when the first request after its data loop fails: it
returns the count, and the inode on the disk does not reach that far. -/
theorem Running.write_lost {s : Conf FsMem Machine} {a : Files} (h : Running cp N s a) {fd : Int} {input : List Byte}
    {name : CStr} {p : Nat} (hu : a.usable fd true = some (name, p))
    (hgrow : (a.data name).length < p + a.room name p input.length) :
    ∃ k, requests s ≤ k ∧ ∀ f : Nat → Bool, (∀ n, f n = decide (n = k)) →
      ((fsWrite fd (some input)).run (fsDisk cp) (SpectreOS.withFaults s f)).1 = a.room name p input.length ∧
      (s.mem.handles fd.toNat).position = p ∧
      lookup (logicalDisk cp s.dev) name = some (s.mem.handles fd.toNat).inode.toNat ∧
      ¬ InodeServed cp (SpectreOS.withFaults s f) fd input ∧
      ¬ Covers (storedInode (logicalDisk cp s.dev) (s.mem.handles fd.toNat).inode.toNat) p
        (a.room name p input.length) := by
  obtain ⟨hfd, hn, hp⟩ := Files.opened_usable hu
  obtain ⟨hfd0, hsome⟩ : 0 ≤ fd ∧ a.handles fd.toNat = some (name, p) := by
    unfold Files.usable at hu
    split at hu
    · exact ⟨by omega, hu⟩
    · cases hu
  have hhand := h.refines.agrees.handles fd.toNat hfd
  rw [hsome] at hhand
  obtain ⟨i, hlook, hh⟩ := hhand
  have hsize := (h.refines.agrees.files name i hlook).size
  have hi := (h.refines.sound.lookup_lt hlook).2
  have hmax := h.refines.sound.sizes i
  -- without a failure the write returns the model's count
  have hval : ((fsWrite fd (some input)).run (fsDisk cp) s).1 = a.room name p input.length := by
    have hret := (h.calls [.write fd (some input)] ⟨trivial, trivial⟩).1
    simp only [runCalls, Call.write_run] at hret
    exact congrArg Ret.val ((List.cons.inj hret).1.trans (Files.write_spec hu input).1)
  have hroom : p + a.room name p input.length ≤ 16384 := by
    have : a.room name p input.length ≤ 16384 - p := (Nat.min_le_left _ _).trans (Nat.min_le_right _ _)
    omega
  have husable : handleUsable s.mem fd true = true := by
    simp [handleUsable, h.refines.agrees.ready, hfd0, hh, fsMaxHandles]
    omega
  have hpos : (s.mem.handles fd.toNat).position < 16384 := by
    rw [hh]
    show p < 16384
    omega
  refine ⟨requests ((dataLoop s.mem fd input).run (fsDisk cp) s).2, (run_requests cp _ s).2, fun f hf => ?_⟩
  have hloop := @run_withFaults cp s f _ (dataLoop s.mem fd input) fun n _ hlt => by
    rw [hf, Live.faultless h.live, decide_eq_false (by omega)]
  refine ⟨?_, by rw [hh], by rw [hh]; exact hlook, ?_, ?_⟩
  · have hrun := @fsWrite_run _ (fsDisk cp) (SpectreOS.withFaults s f) fd input husable hpos
    have hrun₀ := @fsWrite_run _ (fsDisk cp) s fd input husable hpos
    dsimp only at hrun hrun₀
    rw [hrun, writeTail_run, ← hval, hrun₀, writeTail_run]
    have hfst := congrArg Prod.fst hloop
    exact congrArg Nat.cast hfst
  · rintro ⟨hno, -⟩
    have hk : requests ((dataLoop s.mem fd input).run (fsDisk cp) (SpectreOS.withFaults s f)).2 =
        requests ((dataLoop s.mem fd input).run (fsDisk cp) s).2 := by
      rw [hloop]
      rfl
    have : f (requests ((dataLoop s.mem fd input).run (fsDisk cp) (SpectreOS.withFaults s f)).2) = false := hno
    rw [hk, hf, decide_eq_true rfl] at this
    cases this
  · rintro ⟨hreach, -⟩
    rw [h.refines.synced.inodes _ (by rw [hh]; exact hi), hh] at hreach
    have : p + a.room name p input.length ≤ (s.mem.inode i).size := hreach
    omega

/-- A file created and opened on a new disk of 200 sectors. -/
def openedFile : List Call := [.create nameA, .open nameA]

theorem openedFile_usable : (Files.run openedFile (Files.empty 71)).2.usable 0 true = some (nameA, 0) := by decide

theorem openedFile_room : (Files.run openedFile (Files.empty 71)).2.room nameA 0 1 = 1 := by decide

/-- A write of one byte whose inode is not saved, and the next boot. -/
theorem Running.first_byte_lost {s : Conf FsMem Machine}
    (h : Running cp 200 s (Files.run openedFile (Files.empty 71)).2) :
    ∃ k, requests s ≤ k ∧ ∀ f : Nat → Bool, (∀ n, f n = decide (n = k)) →
      let s' := SpectreOS.withFaults s f
      let r := (fsWrite 0 (some [0x78])).run (fsDisk cp) s'
      let b := fsInit (current cp) (fun _ => 0) (rebooted r.2.dev.ata.disk)
      r.1 = 1 ∧ b.1 = true ∧ ∃ i, lookup (logicalDisk cp b.2.dev) nameA = some i ∧
        ¬ Contains (logicalDisk cp b.2.dev) (b.2.mem.inode i) 0 [0x78] := by
  have hgrow : ((Files.run openedFile (Files.empty 71)).2.data nameA).length <
      0 + (Files.run openedFile (Files.empty 71)).2.room nameA 0 [(0x78 : Byte)].length := by
    rw [show List.length [(0x78 : Byte)] = 1 from rfl, openedFile_room]
    decide
  obtain ⟨k, hk, hlost⟩ := h.write_lost openedFile_usable hgrow
  refine ⟨k, hk, fun f hf => ?_⟩
  obtain ⟨hval, hpos, hlook, hserved, hcovers⟩ := hlost f hf
  rw [show List.length [(0x78 : Byte)] = 1 from rfl, openedFile_room] at hval hcovers
  intro s' r b
  obtain ⟨hok, hnames, -, hno⟩ := (h.live.withFaults f).write_reboot (h.mountable f) hval (by omega) (fun _ => 0)
    (rebooted_boot _)
  refine ⟨hval, hok, _, (hnames nameA).trans hlook, fun hc => ?_⟩
  rw [show ((SpectreOS.withFaults s f).mem.handles (0 : Int).toNat).position = 0 from hpos] at hno
  rcases hno hc with hs | hs
  · exact hserved hs
  · exact hcovers hs

theorem Running.first_byte {s : Conf FsMem Machine} (h : Running cp 200 s (Files.run openedFile (Files.empty 71)).2) :
    ((fsWrite 0 (some [0x78])).run (fsDisk cp) s).1 = 1 := by
  have hret := (h.calls [.write 0 (some [0x78])] ⟨trivial, trivial⟩).1
  simp only [runCalls, Call.write_run] at hret
  exact (congrArg Ret.val (List.cons.inj hret).1).trans (by decide)

/-- Where nothing fails, the byte is there at the next boot. -/
theorem fsWrite_durable_boot :
    ∃ s₀, fsFormat (current nullPrimitives) (fun _ => 0) (bootConf (blankDrive 200)) = (true, s₀) ∧
      let s := (runCalls (fsDisk nullPrimitives) openedFile s₀).2
      let r := (fsWrite 0 (some [0x78])).run (fsDisk nullPrimitives) s
      let b := fsInit (current nullPrimitives) (fun _ => 0) (rebooted r.2.dev.ata.disk)
      r.1 = 1 ∧ b.1 = true ∧ Contains (logicalDisk nullPrimitives b.2.dev)
        (b.2.mem.inode (s.mem.handles 0).inode.toNat) (s.mem.handles 0).position [0x78] := by
  obtain ⟨s₀, hs₀, hreach⟩ := reached_boot nullPrimitives
  refine ⟨s₀, hs₀, ?_⟩
  obtain ⟨-, hrun⟩ := hreach.running.calls openedFile ⟨trivial, trivial, trivial⟩
  have hdurable := fsWrite_durable hreach s₀.dev.ata.faults openedFile 0 [0x78] (fun _ => 0)
  rw [withFaults_self] at hdurable
  obtain ⟨hok, -, hcontains, -⟩ := hdurable (rebooted _) 1 hrun.first_byte (by omega) (rebooted_boot _)
  exact ⟨hrun.first_byte, hok, hcontains (.inl ⟨Live.faultless hrun.live _, Live.faultless hrun.live _⟩)⟩

/-- `fs_write` returns 1 and the byte is gone at the next boot. -/
theorem fsWrite_lost_boot :
    ∃ f s₀, fsFormat (current nullPrimitives) (fun _ => 0) (SpectreOS.withFaults (bootConf (blankDrive 200)) f) =
    (true, s₀) ∧
      let s := (runCalls (fsDisk nullPrimitives) openedFile s₀).2
      let r := (fsWrite 0 (some [0x78])).run (fsDisk nullPrimitives) s
      let b := fsInit (current nullPrimitives) (fun _ => 0) (rebooted r.2.dev.ata.disk)
      r.1 = 1 ∧ b.1 = true ∧ ∃ i, lookup (logicalDisk nullPrimitives b.2.dev) nameA = some i ∧
        ¬ Contains (logicalDisk nullPrimitives b.2.dev) (b.2.mem.inode i) 0 [0x78] := by
  have h := fsFormat_boot nullPrimitives (fun _ => 0) (a := blankDrive 200) rfl (by decide) fun _ => rfl
  have hrun := running_format (fun _ => 0) (Registry.boot (blankDrive 200)) (fun _ => rfl) rfl h
  obtain ⟨-, hrun⟩ := hrun.calls openedFile ⟨trivial, trivial, trivial⟩
  obtain ⟨k, hk, hlost⟩ := hrun.first_byte_lost
  obtain ⟨f, hf⟩ : ∃ f : Nat → Bool, ∀ n, f n = decide (n = k) := ⟨_, fun _ => rfl⟩
  obtain ⟨h1, h2⟩ := history_withFaults (Registry.boot _) h (fun _ => rfl) openedFile (f := f) fun n hn => by
    rw [hf, decide_eq_false (by omega)]
  refine ⟨f, _, h1, ?_⟩
  rw [h2]
  exact hlost f hf

end

end SpectreOS
