/-
What a loss of power leaves on the disk. Between the sector writes of every call but `fs_delete` the
disk can be mounted (`Recoverable`): the bitmap on it has at least the marks it needs, and its inodes
are those of one state. `fs_delete` saves the bitmap before the inode; from the first write that
frees a sector of the file until the inode is written, the directory leads to an inode that refers to
a sector marked free (`Torn`).
-/
import SpectreOS.Lib.Cut
import SpectreOS.Fs.Durable
import SpectreOS.Fs.Visited

namespace SpectreOS

open BlockIO Prog

/-- A mount makes a well-formed filesystem of the disk. -/
def Recoverable (N : Nat) (d : Nat → Sector) : Prop := ∃ m, Sound N d m ∧ Synced d m

/-- The bitmap bit of a sector, as it is on the disk. -/
def storedBit (d : Nat → Sector) (t : Nat) : Bool := (d (1 + t / 4096) ⟨t / 8 % 512, mod_sector_lt _⟩).getLsbD (t % 8)

/-- A file's inode refers to a sector that is marked free. -/
def Torn (d : Nat → Sector) : Prop :=
  ∃ slot < slotCount, (entryAt d slot).used ≠ 0 ∧ (entryAt d slot).inode < 128 ∧
    ∃ k, let t := (storedInode d (entryAt d slot).inode).direct k
      t ≠ 0 ∧ t < 131072 ∧ storedBit d t = false

section

variable {N : Nat} {d d' : Nat → Sector} {m m' : FsMem}

/-! ## The bitmap on the disk -/

theorem BitmapSaved.storedBit (h : BitmapSaved d m) {t : Nat} (ht : t < 131072) : storedBit d t = bitSet m t := by
  have hbyte : t / 4096 * 512 + t / 8 % 512 = t / 8 := by omega
  unfold SpectreOS.storedBit bitSet
  rw [h _ (by omega), bitmapSector]
  simp only [hbyte]

/-- The bitmap a mount would load. -/
def storedBitmap (d : Nat → Sector) (k : Nat) : Byte := d (1 + k / 512) ⟨k % 512, mod_sector_lt k⟩

theorem storedBitmap_saved (d : Nat → Sector) (m : FsMem) : BitmapSaved d { m with bitmap := storedBitmap d } := by
  intro i hi
  funext j
  have hj := j.isLt
  have hsector : (i * 512 + j) / 512 = i := by omega
  have hbyte : (i * 512 + j) % 512 = j := by omega
  simp only [bitmapSector, storedBitmap, hsector, hbyte]

/-- More marks do no harm. -/
theorem Sound.marked (h : Sound N d m) {bitmap : Nat → Byte}
    (hb : ∀ t < 131072, bitSet m t = true → bitSet { m with bitmap } t = true) : Sound N d { m with bitmap } := by
  have htotal := h.owned.totalHi
  refine ⟨h.lo, h.total, ⟨h.owned.totalLo, htotal, fun i k hne => ?_, h.owned.once, fun s hs => ?_, h.owned.blocks⟩,
    h.root, h.entries, h.handles, h.positions, h.sizes, h.modes, h.reserved⟩
  · obtain ⟨h1, h2, h3⟩ := h.owned.range i k hne
    exact ⟨h1, h2, hb _ (h2.trans_le htotal) h3⟩
  · exact hb s (by omega) (h.owned.reserved s hs)

/-- The inodes of one state and at least its marks are enough. -/
theorem Recoverable.of (h : Sound N d m) (hi : ∀ i < 128, storedInode d i = m.inode i)
    (hb : ∀ t < 131072, bitSet m t = true → storedBit d t = true) : Recoverable N d := by
  have hsaved := storedBitmap_saved d m
  refine ⟨{ m with bitmap := storedBitmap d }, h.marked fun t ht hm => ?_, hsaved, hi⟩
  rw [← hsaved.storedBit ht]
  exact hb t ht hm

theorem Synced.recoverable (hS : Sound N d m) (h : Synced d m) : Recoverable N d := ⟨m, hS, h⟩

/-! ## The writes of `save_bitmap` -/

/-- The disk after the first `i` of them. -/
def withBitmapUpTo (i : Nat) (d : Nat → Sector) (m : FsMem) : Nat → Sector :=
  fun l => if 1 ≤ l ∧ l < 1 + i then bitmapSector m (l - 1) else d l

theorem withBitmapUpTo_succ (i : Nat) (d : Nat → Sector) (m : FsMem) :
    withBitmapUpTo (i + 1) d m = Function.update (withBitmapUpTo i d m) (1 + i) (bitmapSector m i) := by
  funext l
  unfold withBitmapUpTo
  by_cases hl : l = 1 + i
  · rw [hl, Function.update_self, if_pos (by omega), Nat.add_sub_cancel_left]
  · rw [Function.update_of_ne hl]
    exact if_congr (by omega) rfl rfl

theorem withBitmapUpTo_of_ge {i l : Nat} (hi : i ≤ 32) (hl : 33 ≤ l) : withBitmapUpTo i d m l = d l := if_neg (by omega)

theorem storedInode_withBitmapUpTo {i : Nat} (hi : i ≤ 32) (j : Nat) :
    storedInode (withBitmapUpTo i d m) j = storedInode d j :=
  storedInode_congr (withBitmapUpTo_of_ge hi (by omega))

/-- The marks come sector by sector. -/
theorem storedBit_withBitmapUpTo (i : Nat) {t : Nat} (ht : t < 131072) :
    storedBit (withBitmapUpTo i d m) t = if t / 4096 < i then bitSet m t else storedBit d t := by
  by_cases hi : t / 4096 < i
  · have hsector : withBitmapUpTo i d m (1 + t / 4096) = withBitmap d m (1 + t / 4096) := by
      rw [withBitmapUpTo, withBitmap, if_pos (by omega), if_pos (by omega)]
    rw [if_pos hi, ← (withBitmap_saved d m).storedBit ht]
    unfold storedBit
    rw [hsector]
  · have hsector : withBitmapUpTo i d m (1 + t / 4096) = d (1 + t / 4096) := if_neg (by omega)
    rw [if_neg hi]
    unfold storedBit
    rw [hsector]

/-- The requests of a call on a disk that serves them, with what is to hold between the writes. -/
abbrev powered (N : Nat) (J : Nat → (Nat → Sector) → Prop) : Iface (Nat × (Nat → Sector)) Sector :=
  (exact N false false).guarded J

variable {J : Nat → (Nat → Sector) → Prop} {n : Nat}

theorem saveBitmap_powered (hN : 33 ≤ N) (hJ : ∀ i < 32, J (n + i + 1) (withBitmapUpTo (i + 1) d m)) :
    saveBitmap.wp (powered N J) (fun ok g m' => ok = true ∧ m' = m ∧ g = (n + 32, withBitmap d m)) (n, d) m := by
  refine wp_allM (J := fun done g m' => m' = m ∧ g = (n + done.length, withBitmapUpTo done.length d m)) _
    ⟨rfl, ?_⟩ ?_ ?_
  · have hnothing : withBitmapUpTo 0 d m = d := funext fun l => if_neg (by omega)
    rw [List.length_nil, hnothing]
    rfl
  · rintro done i rest g m' hl ⟨rfl, rfl⟩
    have hi : i < 32 := (range_split hl).2
    obtain ⟨rfl, -⟩ := range_split hl
    have hnext := withBitmapUpTo_succ i d m'
    simp only [wp_bind, wp_load, wp_writeBlock, List.length_range, fsBitmapStart]
    refine ⟨⟨by simp only [exact]; omega, ?_⟩, ?_⟩
    · rintro ok d₁ ⟨rfl, hok⟩
      obtain rfl : ok = true := by simpa using hok
      rw [if_pos rfl, ← hnext]
      exact hJ i hi
    · rintro ok ⟨_, _⟩ ⟨rfl, rfl, hok⟩
      obtain rfl : ok = true := by simpa using hok
      rw [if_pos rfl, if_pos rfl, ← hnext, List.length_append, List.length_range]
      exact ⟨trivial, rfl⟩
  · rintro g m' ⟨rfl, rfl⟩
    rw [List.length_range]
    exact ⟨rfl, rfl, rfl⟩

theorem saveInode_powered (hN : 97 ≤ N) {i : Nat} (hi : i < 128) (hJ : J (n + 1) (withInode d i (m.inode i))) :
    (saveInode i).wp (powered N J) (fun ok g m' => ok = true ∧ m' = m ∧ g = (n + 1, withInode d i (m.inode i)))
      (n, d) m := by
  have hs : fsInodeStart + i * fsInodeSize / 512 = 33 + i / 2 := by simp only [fsInodeStart, fsInodeSize]; omega
  have ho : i * fsInodeSize % 512 = i % 2 * 256 := by simp only [fsInodeSize]; omega
  unfold saveInode
  rw [if_neg (by simp only [fsMaxFiles]; omega)]
  simp only [hs, ho]
  rw [if_neg (by simp only [fsInodeSize]; omega), wp_bind, wp_readBlock]
  refine ⟨by simp only [Iface.guarded, exact]; omega, ?_⟩
  rintro res ⟨_, d'⟩ ⟨rfl, rfl, hres⟩
  obtain rfl : res = some (d' (33 + i / 2)) := by simpa using hres
  simp only [wp_bind, wp_load, wp_writeBlock]
  refine ⟨⟨by simp only [exact]; omega, ?_⟩, ?_⟩
  · rintro ok d'' ⟨rfl, hok⟩
    obtain rfl : ok = true := by simpa using hok
    exact hJ
  · rintro ok ⟨_, _⟩ ⟨rfl, rfl, hok⟩
    obtain rfl : ok = true := by simpa using hok
    exact ⟨rfl, trivial, rfl⟩

theorem dirWriteEntry_powered (hN : 129 < N) (hroot : m.inode 0 = rootInode 32) {slot : Nat} (hs : slot < slotCount)
    {e : Dirent} (hJ : J (n + 1) (withEntry d slot e)) :
    (dirWriteEntry slot e).wp (powered N J)
      (fun ok g m' => ok = true ∧ m' = m ∧ g = (n + 1, withEntry d slot e)) (n, d) m := by
  unfold dirWriteEntry
  have hlt : slot / 9 < 32 := by simp only [slotCount] at hs; omega
  rw [dif_pos (show slot / perSector < 32 from hlt), wp_bind, wp_load, hroot]
  have hlba : (rootInode 32).direct ⟨slot / perSector, hlt⟩ = 97 + slot / 9 := if_pos hlt
  simp only [hlba]
  rw [if_neg (by omega), wp_bind, wp_readBlock]
  refine ⟨by simp only [Iface.guarded, exact]; omega, ?_⟩
  rintro res ⟨_, d'⟩ ⟨rfl, rfl, hres⟩
  obtain rfl : res = some (d' (97 + slot / 9)) := by simpa using hres
  simp only [wp_writeBlock]
  refine ⟨⟨by simp only [exact]; omega, ?_⟩, ?_⟩
  · rintro ok d'' ⟨rfl, hok⟩
    obtain rfl : ok = true := by simpa using hok
    exact hJ
  · rintro ok ⟨_, _⟩ ⟨rfl, rfl, hok⟩
    obtain rfl : ok = true := by simpa using hok
    exact ⟨rfl, trivial, rfl⟩

/-! ## The calls that only read -/

theorem dirReadEntry_readsOnly (slot : Nat) : (dirReadEntry slot).ReadsOnly := by
  unfold dirReadEntry
  split
  · refine .bind .load fun m => ?_
    dsimp only
    split
    · exact .pure none
    · refine .bind (.readBlock _) fun r => ?_
      cases r with
      | none => exact .pure none
      | some block => exact .pure _
  · exact .pure none

theorem findDirEntry_readsOnly (name : CStr) : (findDirEntry name).ReadsOnly := by
  refine .bind (.findSomeM? _ fun slot => .bind (dirReadEntry_readsOnly slot) fun r => ?_) fun found => .pure _
  cases r with
  | none => exact .pure none
  | some entry => exact .pure _

theorem findFreeDirSlot_readsOnly : findFreeDirSlot.ReadsOnly := by
  refine .findSomeM? _ fun slot => .bind (dirReadEntry_readsOnly slot) fun r => ?_
  cases r with
  | none => exact .pure none
  | some entry => exact .pure _

theorem fsExists_readsOnly (name : CStr) : (fsExists name).ReadsOnly := by
  refine .bind .load fun m => ?_
  split
  · exact .pure 0
  · exact .bind (findDirEntry_readsOnly name) fun _ => .pure _

theorem fsOpen_readsOnly (name : CStr) : (fsOpen name).ReadsOnly := by
  refine .bind .load fun m => ?_
  split
  · exact .pure _
  · refine .bind (findDirEntry_readsOnly name) fun inode => ?_
    split
    · exact .pure _
    · refine .bind .load fun m => ?_
      split
      · exact .pure _
      · exact .bind (.modify _) fun _ => .pure _

theorem fsClose_readsOnly (fd : Int) : (fsClose fd).ReadsOnly := by
  unfold fsClose
  split
  · exact .pure 0
  · exact .bind (.modify _) fun _ => .pure 1

theorem fsReadLoop_readsOnly (i position size done : Nat) (output : List Byte) :
    (fsReadLoop i position size done output).ReadsOnly := by
  induction hk : size - done using Nat.strong_induction_on generalizing done output with
  | _ k ih =>
    rw [fsReadLoop]
    split
    · split
      · refine .bind .load fun m => ?_
        dsimp only
        split
        · exact .pure _
        · refine .bind (.readBlock _) fun r => ?_
          cases r with
          | none => exact .pure _
          | some block =>
            have hmod := Nat.mod_lt (position + done) (show 0 < 512 by omega)
            exact ih _ (by omega) _ _ rfl
      · exact .pure _
    · exact .pure _

theorem fsRead_readsOnly (fd : Int) (buffer : Bool) (size : Nat) : (fsRead fd buffer size).ReadsOnly := by
  refine .bind .load fun m => ?_
  split
  · exact .pure _
  · dsimp only
    split
    · exact .pure _
    · exact .bind (fsReadLoop_readsOnly _ _ _ _ _) fun _ => .bind (.modify _) fun _ => .pure _

theorem fsListLoop_readsOnly (size : Nat) (slots : List Nat) (written : List Byte) :
    (fsListLoop size slots written).ReadsOnly := by
  induction slots generalizing written with
  | nil => exact .pure written
  | cons slot slots ih =>
    rw [fsListLoop]
    refine .bind (dirReadEntry_readsOnly slot) fun r => ?_
    cases r with
    | none => exact ih written
    | some entry =>
      dsimp only
      split
      · exact ih written
      · split
        · exact .pure written
        · exact ih _

theorem fsList_readsOnly (buffer : Bool) (size : Nat) : (fsList buffer size).ReadsOnly := by
  refine .bind .load fun m => ?_
  split
  · exact .pure _
  · exact .bind (fsListLoop_readsOnly _ _ _) fun _ => .pure _

/-! ## Create -/

theorem fsCreate_powered (h : Sound N d m) (hs : Synced d m) (hJ : ∀ n d', Recoverable N d' → J n d') (name : CStr) :
    (fsCreate name).wp (powered N J) (fun _ _ _ => True) (n, d) m := by
  have hN : 97 ≤ N := by have := h.lo; omega
  unfold fsCreate
  rw [wp_bind, wp_load]
  split
  · trivial
  · refine ((findDirEntry_readsOnly name).guarded (findDirEntry_sound h name)).seq ?_
    rintro inode ⟨_, d₁⟩ m₁ ⟨rfl, rfl, rfl, -⟩
    split
    · trivial
    · refine (findFreeDirSlot_readsOnly.guarded (findFreeDirSlot_exact h.lo h.root)).seq ?_
      rintro (_ | slot) ⟨_, d₂⟩ m₂ ⟨rfl, rfl, rfl, -, hslot⟩
      · trivial
      · obtain ⟨hs', -⟩ := hslot slot rfl
        rw [wp_bind, wp_load]
        cases hi : firstFreeInode m₂ with
        | none => trivial
        | some i =>
          obtain ⟨i1, -, i3⟩ := firstFreeInode_some hi
          have hinode : (setInode m₂ i .fresh).inode i = .fresh := by rw [inode_setInode, if_pos ⟨rfl, i3⟩]
          have hnew : Sound N d₂ (setInode m₂ i .fresh) :=
            h.setInode i1 rfl rfl rfl (by simp [Inode.fresh]) fun _ => rfl
          have hsound : Sound N (withInode d₂ i .fresh) (setInode m₂ i .fresh) :=
            hnew.congr_disk fun l h1 _ => Function.update_of_ne (by omega) _ _
          have hsynced : Synced (withInode d₂ i .fresh) (setInode m₂ i .fresh) := by
            have := synced_withInode (d := d₂) (m := setInode m₂ i .fresh) (i := i) hs.bitmap
              (fun j hj hne => by rw [inode_setInode, if_neg (by tauto)]; exact hs.inodes j hj) (hnew.fits i)
            rwa [hinode] at this
          rw [wp_bind, wp_modify]
          refine (saveInode_powered hN i3 (by rw [hinode]; exact hJ _ _ (hsynced.recoverable hsound))).seq ?_
          rintro ok g m₃ ⟨rfl, rfl, rfl⟩
          rw [hinode]
          simp only [Bool.not_true, Bool.false_eq_true, ↓reduceIte]
          have hentry : Sound N (withEntry (withInode d₂ i .fresh) slot (newEntry name i)) (setInode m₂ i .fresh) :=
            hsound.withEntry slot (by simpa [newEntry] using i3) (by simp [newEntry]) fun _ => i1
          refine (dirWriteEntry_powered h.lo hnew.root hs' (hJ _ _ ((hsynced.withEntry _).recoverable hentry))).seq ?_
          rintro ok g m₄ ⟨rfl, rfl, rfl⟩
          trivial

/-! ## Write -/

theorem Grows.marks {i t : Nat} (h : Grows i m m') (hO : Owned m) (ht : bitSet m t = true) : bitSet m' t = true := by
  induction h with
  | refl => exact ht
  | @assign m₁ b s h₁ _ hs ih =>
    have hlt := (firstFree_some hs).2.1.trans_le (h₁.owned hO).totalHi
    show bitSet (bitmapSet m₁ s) t = true
    rw [bitSet_bitmapSet m₁ hlt, ih]
    rfl

/-- The disk while a write to inode `i`, begun with the tables `m₀`, has brought them to `m`. The
bitmap is saved with every allocation, the inode at the end. -/
structure Growing (N i : Nat) (m₀ : FsMem) (d : Nat → Sector) (m : FsMem) : Prop where
  sound : Sound N d m₀
  stored : ∀ j < 128, storedInode d j = m₀.inode j
  saved : BitmapSaved d m
  grows : Grows i m₀ m

namespace Growing

variable {i : Nat} {m₀ : FsMem}

theorem owned (h : Growing N i m₀ d m) : Owned m := h.grows.owned h.sound.owned

theorem total (h : Growing N i m₀ d m) : m.superblock.totalSectors = N := by rw [h.grows.frame.1, h.sound.total]

theorem root (h : Growing N i m₀ d m) (hi : 1 ≤ i) : m.inode 0 = rootInode 32 := by
  rw [h.grows.inode_of_ne (by omega), h.sound.root]

/-- The sectors of the directory are the root's. -/
theorem directory (h : Growing N i m₀ d m) (hi : 1 ≤ i) {l : Nat} (h1 : 97 ≤ l) (h2 : l < 129) :
    ∃ k, (m.inode 0).direct k = l := by
  refine ⟨⟨l - 97, by omega⟩, ?_⟩
  rw [h.root hi]
  simp only [rootInode]
  rw [if_pos (by omega)]
  omega

/-- What `allocate_sector` takes lies behind the directory. -/
theorem free_ge (h : Growing N i m₀ d m) (hi : 1 ≤ i) {s : Nat} (hs : firstFree m = some s) : 129 ≤ s := by
  obtain ⟨h1, -, h3⟩ := firstFree_some hs
  by_contra hlt
  obtain ⟨k, hk⟩ := h.directory hi h1 (by omega)
  have hbit := (h.owned.range 0 k (by omega)).2.2
  rw [hk, h3] at hbit
  cases hbit

/-- So do the sectors of the inode. -/
theorem direct_ge (h : Growing N i m₀ d m) (hi : 1 ≤ i) {k : Fin 32} (hne : (m.inode i).direct k ≠ 0) :
    129 ≤ (m.inode i).direct k := by
  have hlo := (h.owned.range i k hne).1
  by_contra hlt
  obtain ⟨l, hl⟩ := h.directory hi hlo (by omega)
  have := (h.owned.once i k 0 l hne hl.symm).1
  omega

theorem recoverable (h : Growing N i m₀ d m) : Recoverable N d :=
  .of h.sound h.stored fun _ ht hm => by rw [h.saved.storedBit ht]; exact h.grows.marks h.sound.owned hm

/-- A write behind the directory. -/
theorem update (h : Growing N i m₀ d m) {l : Nat} (hl : 129 ≤ l) (b : Sector) :
    Growing N i m₀ (Function.update d l b) m := by
  refine ⟨h.sound.congr_disk fun l' _ h2 => Function.update_of_ne (by omega) _ _, fun j hj => ?_,
    fun k hk => ?_, h.grows⟩
  · rw [storedInode_congr (Function.update_of_ne (by omega) _ _), h.stored j hj]
  · rw [Function.update_of_ne (by omega)]
    exact h.saved k hk

/-- While the mark of a new sector is saved. -/
theorem marking (h : Growing N i m₀ d m) {s : Nat} (hs : firstFree m = some s) {k : Nat} (hk : k ≤ 32) :
    Recoverable N (withBitmapUpTo k d (bitmapSet m s)) := by
  have hlt := (firstFree_some hs).2.1.trans_le h.owned.totalHi
  refine .of (h.sound.congr_disk fun l h1 _ => withBitmapUpTo_of_ge hk (by omega)) (fun j hj => ?_) fun t ht hm => ?_
  · rw [storedInode_withBitmapUpTo hk, h.stored j hj]
  · have hold := h.grows.marks h.sound.owned hm
    rw [storedBit_withBitmapUpTo k ht, h.saved.storedBit ht, bitSet_bitmapSet m hlt, hold]
    split <;> rfl

/-- The new sector is a block of the inode. -/
theorem assign (h : Growing N i m₀ d m) {s : Nat} (hs : firstFree m = some s) {b : Fin 32}
    (h0 : (m.inode i).direct b = 0) :
    Growing N i m₀ (withBitmap d (bitmapSet m s)) (assignBlock (bitmapSet m s) i b s) := by
  refine ⟨h.sound.congr_disk fun l h1 _ => withBitmap_agree d _ l (by omega), fun j hj => ?_, withBitmap_saved d _,
    h.grows.assign b s h0 hs⟩
  rw [storedInode_withBitmap, h.stored j hj]

end Growing

variable {i : Nat} {m₀ : FsMem}

theorem allocateSector_powered (hN : 97 ≤ N) (htot : m.superblock.totalSectors = N)
    (hJ : ∀ s, firstFree m = some s → (∀ k < 32, J (n + k + 1) (withBitmapUpTo (k + 1) d (bitmapSet m s))) ∧
      J (n + 33) (Function.update (withBitmap d (bitmapSet m s)) s fun _ => 0)) :
    allocateSector.wp (powered N J) (fun res g m' =>
      (∀ s, res = some s → firstFree m = some s ∧ m' = bitmapSet m s ∧
        g.2 = Function.update (withBitmap d (bitmapSet m s)) s fun _ => 0) ∧
      (res = none → m' = m ∧ g.2 = d)) (n, d) m := by
  unfold allocateSector
  rw [wp_bind, wp_load]
  cases hs : firstFree m with
  | none => exact ⟨by simp, fun _ => ⟨rfl, rfl⟩⟩
  | some s =>
    obtain ⟨-, s2, -⟩ := firstFree_some hs
    obtain ⟨hbitmap, hzero⟩ := hJ s hs
    simp only [wp_bind, wp_modify]
    refine (saveBitmap_powered (by omega) hbitmap).mono ?_
    rintro saved g m' ⟨rfl, rfl, rfl⟩
    simp only [Bool.not_true, Bool.false_eq_true, ↓reduceIte, wp_bind, wp_writeBlock]
    refine ⟨⟨by simp only [exact]; omega, ?_⟩, ?_⟩
    · rintro ok d₁ ⟨rfl, hok⟩
      obtain rfl : ok = true := by simpa using hok
      exact hzero
    · rintro ok ⟨_, _⟩ ⟨rfl, rfl, hok⟩
      obtain rfl : ok = true := by simpa using hok
      refine ⟨fun t ht => ?_, by simp⟩
      cases ht
      exact ⟨rfl, rfl, rfl⟩

theorem ensureBlock_powered (hJ : ∀ n d', Recoverable N d' → J n d') (h : Growing N i m₀ d m)
    (hi : 1 ≤ i) (b : Fin 32) :
    (ensureBlock i b).wp (powered N J) (fun res g m' => Growing N i m₀ g.2 m' ∧
      ∀ lba, res = some lba → 129 ≤ lba ∧ lba < N) (n, d) m := by
  have hN : 97 ≤ N := by have := h.sound.lo; omega
  unfold ensureBlock
  rw [wp_bind, wp_load]
  split
  · rename_i h0
    have hnext : ∀ s, firstFree m = some s →
      Growing N i m₀ (Function.update (withBitmap d (bitmapSet m s)) s fun _ => 0)
        (assignBlock (bitmapSet m s) i b s) := fun s hs => (h.assign hs h0).update (h.free_ge hi hs) _
    refine (allocateSector_powered hN h.total fun s hs =>
      ⟨fun k hk => hJ _ _ (h.marking hs hk), hJ _ _ (hnext s hs).recoverable⟩).seq ?_
    rintro (_ | s) ⟨_, d₁⟩ m₁ ⟨hsome, hnone⟩
    · obtain ⟨rfl, rfl⟩ := hnone rfl
      exact ⟨h, by simp⟩
    · obtain ⟨hs, rfl, rfl⟩ := hsome s rfl
      refine ⟨hnext s hs, fun lba hlba => ?_⟩
      cases hlba
      exact ⟨h.free_ge hi hs, (firstFree_some hs).2.1.trans_eq h.total⟩
  · rename_i hne
    refine ⟨h, fun lba hlba => ?_⟩
    cases hlba
    exact ⟨h.direct_ge hi hne, (h.owned.range i b hne).2.1.trans_eq h.total⟩

theorem fsWriteLoop_powered (hJ : ∀ n d', Recoverable N d' → J n d') (h : Growing N i m₀ d m) (hi : 1 ≤ i)
    (position size : Nat) (input : Nat → Byte) (done : Nat) :
    (fsWriteLoop i position size input done).wp (powered N J) (fun _ g m' => Growing N i m₀ g.2 m') (n, d) m := by
  induction hk : size - done using Nat.strong_induction_on generalizing done n d m with
  | _ k ih =>
    rw [fsWriteLoop]
    split
    · split
      · refine (ensureBlock_powered hJ h hi _).seq ?_
        rintro (_ | lba) ⟨n₁, d₁⟩ m₁ ⟨h₁, hlba⟩
        · exact h₁
        · obtain ⟨hlo, hhi⟩ := hlba lba rfl
          have hmod := Nat.mod_lt (position + done) (show 0 < 512 by omega)
          rw [wp_bind, wp_readBlock]
          refine ⟨hhi, ?_⟩
          rintro res ⟨_, d₂⟩ ⟨rfl, rfl, hres⟩
          obtain rfl : res = some (d₂ lba) := by simpa using hres
          simp only [wp_bind, wp_writeBlock]
          refine ⟨⟨hhi, ?_⟩, ?_⟩
          · rintro ok d₃ ⟨rfl, hok⟩
            obtain rfl : ok = true := by simpa using hok
            exact hJ _ _ (h₁.update hlo _).recoverable
          · rintro ok ⟨_, _⟩ ⟨rfl, rfl, hok⟩
            obtain rfl : ok = true := by simpa using hok
            simp only [↓reduceIte]
            exact ih _ (by omega) (h₁.update hlo _) _ rfl
      · exact h
    · exact h

/-- The inode and then the bitmap are saved. -/
theorem saved_powered (hJ : ∀ n d', Recoverable N d' → J n d') (h : Sound N d m) (hi : i < 128) (hb : BitmapSaved d m)
    (hst : ∀ j < 128, j ≠ i → storedInode d j = m.inode j) {α : Type} (a : α) :
    (do let _ ← saveInode i; let _ ← saveBitmap; return a : FsM α).wp (powered N J) (fun _ _ _ => True) (n, d) m := by
  have hN : 97 ≤ N := by have := h.lo; omega
  have hsynced := synced_withInode hb hst (h.fits i)
  have hsound : Sound N (withInode d i (m.inode i)) m :=
    h.congr_disk fun l h1 _ => Function.update_of_ne (by omega) _ _
  refine (saveInode_powered hN hi (hJ _ _ (hsynced.recoverable hsound))).seq ?_
  rintro ok g m₁ ⟨rfl, rfl, rfl⟩
  refine (saveBitmap_powered (by omega) fun k hk => hJ _ _ ?_).seq fun _ _ _ _ => trivial
  refine .of (hsound.congr_disk fun l h1 _ => withBitmapUpTo_of_ge (by omega) (by omega))
    (fun j hj => ?_) fun t ht hm => ?_
  · rw [storedInode_withBitmapUpTo (by omega), hsynced.inodes j hj]
  · rw [storedBit_withBitmapUpTo _ ht, hsynced.bitmap.storedBit ht, hm, ite_self]

theorem fsWrite_powered (h : Sound N d m) (hs : Synced d m) (hJ : ∀ n d', Recoverable N d' → J n d') (fd : Int)
    (buffer : Option (List Byte)) : (fsWrite fd buffer).wp (powered N J) (fun _ _ _ => True) (n, d) m := by
  have hN : 97 ≤ N := by have := h.lo; omega
  unfold fsWrite
  rw [wp_bind, wp_load]
  split
  · trivial
  · rename_i hu
    have hu : handleUsable m fd buffer.isSome = true := by simpa using hu
    obtain ⟨h1, h2, h3, -⟩ := h.usable hu
    dsimp only
    split
    · trivial
    · rename_i hpos
      simp only [fsMaxFileSize, ge_iff_le, not_le] at hpos
      have hloop := fsWriteLoop_exact (r := false) (w := false) hN h.total h.owned h3 (m.handles fd.toNat).position
        (min (buffer.getD []).length (fsMaxFileSize - (m.handles fd.toNat).position))
          (by simp only [fsMaxFileSize]; omega)
        ((buffer.getD []).getD · 0) 0 (Nat.zero_le _) (d := d)
      refine (hloop.and_guarded (fsWriteLoop_powered hJ ⟨h, hs.inodes, hs.bitmap, .refl⟩ h2 _ _ _ 0)).seq ?_
      rintro done ⟨n₁, d₁⟩ m₁ ⟨W, h₁⟩
      obtain ⟨-, hbitmap⟩ := finishWrite_bits m₁ fd.toNat (m.handles fd.toNat).inode.toNat
        ((m.handles fd.toNat).position + done)
      have hafter := WroteTo.sound h (.done done d₁ m₁ _ hu hpos W (fun l hl => ?_) fun _ _ => rfl)
      · rw [wp_bind, wp_modify]
        refine saved_powered hJ (hafter.congr_disk fun l h1 _ => ?_) h3 (fun k hk => ?_)
          (fun j hj hne => ?_) (done : Int)
        · rw [withBitmap_agree _ _ l (by omega), withInode, Function.update_of_ne (by omega)]
        · refine (h₁.saved k hk).trans ?_
          unfold bitmapSector
          rw [hbitmap]
        · rw [inode_finishWrite _ _ _ _ _ h3, if_neg hne, h₁.grows.inode_of_ne hne]
          exact h₁.stored j hj
      · rw [withBitmap_agree _ _ l (by omega), withInode, Function.update_of_ne (by omega)]

/-! ## Delete -/

/-- `n` writes of the call leave the file it deletes torn: the bitmap sector of one of the file's
sectors is saved and the inode is not. -/
def Tears (d : Nat → Sector) (m : FsMem) (call : Call) (n : Nat) : Prop :=
  ∃ name i, call = .delete name ∧ lookup d name = some i ∧
    ∃ k, (m.inode i).direct k ≠ 0 ∧ (m.inode i).direct k / 4096 < n ∧ n ≤ 32

/-- What `n` writes of the call leave. -/
def LeftBy (N : Nat) (d : Nat → Sector) (m : FsMem) (call : Call) (n : Nat) (d' : Nat → Sector) : Prop :=
  (Tears d m call n → Torn d') ∧ (¬ Tears d m call n → Recoverable N d')

theorem LeftBy.whole {call : Call} (h : ¬ Tears d m call n) (hr : Recoverable N d') : LeftBy N d m call n d' :=
  ⟨fun ht => absurd ht h, fun _ => hr⟩

theorem not_tears_of_gt (call : Call) (hn : 32 < n) : ¬ Tears d m call n := by
  rintro ⟨-, -, -, -, -, -, -, hle⟩
  omega

theorem not_tears_zero (call : Call) : ¬ Tears d m call 0 := by
  rintro ⟨_, _, _, _, _, _, hlt, _⟩
  omega

theorem bitSet_releaseInode {t : Nat} (hO : Owned m) : bitSet (releaseInode m i) t = true ↔
    bitSet m t = true ∧ ∀ k, (m.inode i).direct k ≠ 0 → (m.inode i).direct k ≠ t := by
  rw [(releaseInode_spec m i hO.totalHi).2.2.2.2]
  refine and_congr_right fun _ => ⟨fun hno k hne e => hno ?_, ?_⟩
  · obtain ⟨h1, h2, -⟩ := hO.range i k hne
    exact ⟨e ▸ h1, e ▸ h2, k, e⟩
  · rintro hno ⟨h97, -, k, rfl⟩
    exact hno k (by omega) rfl

/-- The writes of the bitmap in `fs_delete`. -/
theorem leftBy_releasing (h : Sound N d m) (hs : Synced d m) {name : CStr} (hl : lookup d name = some i)
    {k : Nat} (hk : k ≤ 32) :
    LeftBy N d m (.delete name) k (withBitmapUpTo k d (releaseInode m i)) := by
  obtain ⟨slot, hslot, hname, -, hi⟩ := lookup_eq_some.1 hl
  have hlt := (h.lookup_lt hl).2
  have hdir : ∀ l, 97 ≤ l → withBitmapUpTo k d (releaseInode m i) l = d l :=
    fun l _ => withBitmapUpTo_of_ge hk (by omega)
  have hstored : ∀ j < 128, storedInode (withBitmapUpTo k d (releaseInode m i)) j = m.inode j := fun j hj => by
    rw [storedInode_withBitmapUpTo hk, hs.inodes j hj]
  constructor
  · rintro ⟨name', i', he, hl', b, hne, hsector, -⟩
    obtain rfl : name = name' := by injection he
    obtain rfl : i = i' := Option.some.inj (hl.symm.trans hl')
    have hentry : entryAt (withBitmapUpTo k d (releaseInode m i)) slot = entryAt d slot :=
      entryAt_congr (hdir _ (by omega))
    have htotal := (h.owned.range i b hne).2.1.trans_le h.owned.totalHi
    refine ⟨slot, hslot, by rw [hentry]; exact hname.1, by rw [hentry, hi]; exact hlt, b, ?_⟩
    rw [hentry, hi, hstored i hlt]
    refine ⟨hne, htotal, ?_⟩
    rw [storedBit_withBitmapUpTo k htotal, if_pos hsector, Bool.eq_false_iff]
    exact fun hbit => ((bitSet_releaseInode h.owned).1 hbit).2 b hne rfl
  · intro hno
    refine .of (h.congr_disk fun l h1 _ => hdir l h1) hstored fun t ht hm => ?_
    rw [storedBit_withBitmapUpTo k ht, hs.bitmap.storedBit ht]
    split
    · rename_i hsector
      refine (bitSet_releaseInode h.owned).2 ⟨hm, fun b hne e => hno ⟨name, i, rfl, hl, b, hne, ?_, hk⟩⟩
      rwa [e]
    · exact hm

theorem fsDelete_powered (h : Working N d m) (hs : Synced d m) (name : CStr) :
    (fsDelete name).wp (powered N (LeftBy N d m (.delete name))) (fun _ g _ => (lookup d name).isSome → 32 < g.1)
      (0, d) m := by
  have hS := h.sound
  have hN : 97 ≤ N := by have := hS.lo; omega
  unfold fsDelete
  rw [wp_bind, wp_load]
  split
  · rename_i hno
    intro hsome
    obtain ⟨i, hi⟩ := Option.isSome_iff_exists.1 hsome
    rw [h.ready, h.linked.lookup_valid hi] at hno
    cases hno
  · refine ((findDirEntry_readsOnly name).guarded (findDirEntry_sound hS name)).seq ?_
    rintro inode g m₁ ⟨hg, hm, hd, hfound⟩
    obtain rfl : g = (0, d) := Prod.ext hg hd
    obtain rfl := hm.symm
    rcases hfound with ⟨hlt, hno⟩ | ⟨slot, hslot, rfl, h1, h2, hname, hfirst⟩
    · rw [if_pos (by omega)]
      intro hsome
      rw [lookup_eq_none.2 (hno rfl)] at hsome
      cases hsome
    · obtain ⟨i, hi⟩ : ∃ i, i = (entryAt d slot).inode := ⟨_, rfl⟩
      simp only [← hi] at h1 h2 ⊢
      have hl : lookup d name = some i := lookup_eq_some.2 ⟨slot, hslot, hname, hfirst rfl, hi.symm⟩
      have hrelease := hS.release (i := i) (by omega)
      rw [if_neg (by omega), wp_bind, wp_modify, Int.toNat_natCast]
      refine (saveBitmap_powered (by omega) fun k hk => ?_).seq ?_
      · rw [Nat.zero_add]
        exact leftBy_releasing hS hs hl hk
      rintro ok g m₁ ⟨rfl, rfl, rfl⟩
      simp only [Bool.not_true, Bool.false_eq_true, ↓reduceIte]
      have hsynced : Synced (withInode (withBitmap d (releaseInode m i)) i ((releaseInode m i).inode i))
        (releaseInode m i) := by
        obtain ⟨q1, -⟩ := releaseInode_spec m i hS.owned.totalHi
        refine synced_withInode (withBitmap_saved d _) (fun j hj hne => ?_) (hrelease.fits i)
        rw [storedInode_withBitmap, hs.inodes j hj, q1, if_neg fun e => hne e.1]
      have hsound : Sound N (withInode (withBitmap d (releaseInode m i)) i ((releaseInode m i).inode i))
        (releaseInode m i) := by
        refine hrelease.congr_disk fun l h1 _ => ?_
        rw [withInode, Function.update_of_ne (by omega), withBitmap_agree _ _ l (by omega)]
      refine (saveInode_powered hN h2 (.whole (not_tears_of_gt _ (by omega)) (hsynced.recoverable hsound))).seq ?_
      rintro ok g m₁ ⟨rfl, rfl, rfl⟩
      simp only [Bool.not_true, Bool.false_eq_true, ↓reduceIte]
      generalize withInode (withBitmap d (releaseInode m i)) i ((releaseInode m i).inode i) = d₁ at hsynced hsound ⊢
      refine wp.seq (Q := fun _ g _ => 32 < g.1) ?_ fun _ g _ hg _ => hg
      refine wp_findSomeM (J := fun _ g m' => m' = releaseInode m i ∧ g = (33, d₁)) _ ⟨rfl, rfl⟩ ?_ ?_
      · rintro pre slot post g m₁ - ⟨rfl, rfl⟩
        refine ((dirReadEntry_readsOnly slot).guarded (dirReadEntry_exact hS.lo hsound.root slot)).seq ?_
        rintro res g m₁ ⟨hg, rfl, hd, -, hout⟩
        obtain rfl : g = (33, d₁) := Prod.ext hg hd
        cases res with
        | none => exact ⟨rfl, rfl⟩
        | some entry =>
          have hlt : slot < slotCount := by
            by_contra hge
            cases hout (by omega)
          dsimp only
          split
          · have hentry : Sound N (withEntry d₁ slot .zero) (releaseInode m i) :=
              hsound.withEntry slot (by simp [Dirent.zero]) (by simp [Dirent.zero]) (by simp [Dirent.zero])
            have hwhole : Recoverable N (withEntry d₁ slot .zero) := (hsynced.withEntry .zero).recoverable hentry
            refine (dirWriteEntry_powered hS.lo hsound.root hlt (.whole (not_tears_of_gt _ (by omega)) hwhole)).seq ?_
            rintro ok g m₁ ⟨rfl, rfl, rfl⟩
            exact show 32 < 34 by omega
          · exact ⟨rfl, rfl⟩
      · rintro g m₁ ⟨rfl, rfl⟩
        exact show 32 < 33 by omega

/-! ## Every call -/

/-- What a loss of power during the call leaves; a call that would be torn does not end before. -/
theorem call_powered (h : Working N d m) (hs : Synced d m) (call : Call) :
    call.prog.wp (powered N (LeftBy N d m call)) (fun _ g _ => ∀ n, Tears d m call n → n < g.1) (0, d) m := by
  have hS := h.sound
  have hreads : ∀ {α : Type} {p : FsM α} {Q : α → (Nat → Sector) → FsMem → Prop}, (∀ name, call ≠ .delete name) →
      p.ReadsOnly → p.wp (exact N false false) Q d m →
      p.wp (powered N (LeftBy N d m call)) (fun _ g _ => ∀ n, Tears d m call n → n < g.1) (0, d) m := by
    intro α p Q hcall hp hQ
    refine (hp.guarded hQ).mono fun _ _ _ _ n ht => ?_
    obtain ⟨name, -, rfl, -⟩ := ht
    exact absurd rfl (hcall name)
  cases call with
  | create name =>
    have hwhole : ∀ n, ¬ Tears d m (.create name) n := by rintro n ⟨_, _, he, -⟩; cases he
    exact (fsCreate_powered hS hs (fun n d' => .whole (hwhole n)) name).seq fun _ _ _ _ n ht => absurd ht (hwhole n)
  | delete name =>
    refine (fsDelete_powered h hs name).seq fun _ g _ hlong n ht => ?_
    obtain ⟨name', i, he, hl, -, -, -, hle⟩ := ht
    obtain rfl : name = name' := by injection he
    have := hlong (by rw [hl]; rfl)
    show n < g.1
    omega
  | exist name => exact (hreads (by simp) (fsExists_readsOnly name) (fsExists_exact hS name)).seq fun _ _ _ h => h
  | «open» name => exact (hreads (by simp) (fsOpen_readsOnly name) (fsOpen_exact hS name)).seq fun _ _ _ h => h
  | close fd => exact (hreads (by simp) (fsClose_readsOnly fd) (fsClose_exact fd)).seq fun _ _ _ h => h
  | read fd buffer size =>
    exact (hreads (by simp) (fsRead_readsOnly fd buffer size) (fsRead_exact hS fd buffer size)).seq fun _ _ _ h => h
  | write fd buffer =>
    have hwhole : ∀ n, ¬ Tears d m (.write fd buffer) n := by rintro n ⟨_, _, he, -⟩; cases he
    exact (fsWrite_powered hS hs (fun n d' => .whole (hwhole n)) fd buffer).seq fun _ _ _ _ n ht => absurd ht (hwhole n)
  | list buffer size =>
    exact (hreads (by simp) (fsList_readsOnly buffer size) (fsList_exact hS buffer size)).seq fun _ _ _ h => h

end

end SpectreOS
