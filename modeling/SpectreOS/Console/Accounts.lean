/-
The account database on the disk: reading `users.dat` and `identity.dat` at boot (auth.c,
identity.c) through the filesystem calls, and when the login gate that follows offers to create a
first account although the disk has one. Each of `fs_exists`, `fs_open` and `fs_read` answers a
failed sector request like an absent or empty file, and `auth_db_load` begins with no accounts.
-/
import SpectreOS.Console.Auth
import SpectreOS.Fs.Contract
import SpectreOS.Fs.Counted
import SpectreOS.Fs.Faults
import SpectreOS.Fs.Handles

namespace SpectreOS

open BlockIO Prog

/-! ## Records on the disk -/

def usersDat : CStr := ⟨ascii "users.dat", by decide⟩

def identityDat : CStr := ⟨ascii "identity.dat", by decide⟩

/-- `sizeof(auth_database_t)`. -/
abbrev authDbSize : Nat := 344

/-- `sizeof(identity_record_t)`. -/
abbrev identitySize : Nat := 100

abbrev identityMagic : BitVec 32 := 0x53504944

def AuthRecord.ofImage (b : Nat → Byte) : AuthRecord where
  username k := b k
  salt k := b (32 + k)
  hash k := b (48 + k)
  inUse := BitVec.ofNat 32 (wordAt b 20)

def AuthDatabase.ofImage (b : Nat → Byte) : AuthDatabase where
  magic := BitVec.ofNat 32 (wordAt b 0)
  count := BitVec.ofNat 32 (wordAt b 1)
  users i := .ofImage fun k => b (8 + 84 * i + k)

/-- How both files are read: the bytes, if there are as many as the record has. -/
def readRecord (name : CStr) (size : Nat) : FsM (Option (List Byte)) := do
  if (← fsExists name) = 0 then pure none
  else
    let fd ← fsOpen name
    if fd < 0 then pure none
    else
      let (readBytes, bytes) ← fsRead fd true size
      let _ ← fsClose fd
      pure (if readBytes = size then some bytes else none)

/-- The database `auth_db_load` copies, if it does. -/
def authDbRead : FsM (Option AuthDatabase) := do
  match ← readRecord usersDat authDbSize with
  | none => pure none
  | some bytes =>
    let loaded := AuthDatabase.ofImage (bytes.getD · 0)
    pure (if loaded.magic = authDbMagic then some loaded else none)

/-- `identity_load`; the record itself is not used here. -/
def identityLoad : FsM Int := do
  match ← readRecord identityDat identitySize with
  | none => pure 0
  | some bytes => pure (if BitVec.ofNat 32 (wordAt (bytes.getD · 0) 0) = identityMagic then 1 else 0)

/-- The boot after the filesystem has been mounted: `identity_load`, `auth_init`, `auth_start`. -/
def accountsBoot {δ : Type} (D : Device δ Sector) (S : Services (Conf FsMem δ)) (a : Auth) (s : Conf FsMem δ) :
    Auth × Conf FsMem δ :=
  let S := { S with readDatabase := authDbRead.run D }
  let (a, s) := authInit S a (identityLoad.run D s).2
  authStart S a s

/-! ## A disk with accounts -/

/-- A drive with a mounted filesystem, no handle open, and a valid account database with an account
in `users.dat`, whose directory entry is in `slot`. -/
structure HoldsAccounts (a : Ata) (m : FsMem) (slot : Nat) : Prop where
  ready : m.filesystemReady = true
  closed : ∀ fd < 16, (m.handles fd).inode < 0
  root : m.inode 0 = rootInode 32
  directory : ∀ lba, 97 ≤ lba → lba < 129 → a.accepts lba = true
  slot_lt : slot < slotCount
  name : (entryAt a.disk slot).hasName usersDat
  unique : ∀ j < slotCount, (entryAt a.disk j).hasName usersDat → j = slot
  inode : (entryAt a.disk slot).inode < 128
  sectors : ∀ k, (m.inode (entryAt a.disk slot).inode).direct k ≠ 0 →
    a.accepts ((m.inode (entryAt a.disk slot).inode).direct k) = true
  valid : ∃ bytes, fileBytes a.disk m usersDat = some bytes ∧ authDbSize ≤ bytes.length ∧
    (AuthDatabase.ofImage (bytes.getD · 0)).magic = authDbMagic ∧ (AuthDatabase.ofImage (bytes.getD · 0)).count ≠ 0

section Counted

variable {a : Ata} {m : FsMem} {n slot : Nat}

/-! ## The file -/

/-- The header is in the first eight bytes. -/
theorem AuthDatabase.ofImage_congr {b b' : Nat → Byte} (h : ∀ k < 8, b k = b' k) :
    (AuthDatabase.ofImage b).magic = (AuthDatabase.ofImage b').magic ∧
      (AuthDatabase.ofImage b).count = (AuthDatabase.ofImage b').count := by
  simp only [AuthDatabase.ofImage]
  constructor
  · rw [wordAt_congr fun k _ hk => h k (by omega)]
  · rw [wordAt_congr fun k _ hk => h k (by omega)]

/-- What `HoldsAccounts` says of the file's first sector. -/
structure FirstSector (a : Ata) (m : FsMem) (i : Nat) : Prop where
  size : authDbSize ≤ (m.inode i).size
  sector : (m.inode i).direct 0 ≠ 0
  accepts : a.accepts ((m.inode i).direct 0) = true
  magic : (AuthDatabase.ofImage ((a.disk ((m.inode i).direct 0)).slice 0)).magic = authDbMagic
  count : (AuthDatabase.ofImage ((a.disk ((m.inode i).direct 0)).slice 0)).count ≠ 0

theorem HoldsAccounts.firstSector (h : HoldsAccounts a m slot) : FirstSector a m (entryAt a.disk slot).inode := by
  obtain ⟨bytes, hfile, hlen, hmagic, hcount⟩ := h.valid
  have hlook : lookup a.disk usersDat = some (entryAt a.disk slot).inode :=
    lookup_eq_some.2 ⟨slot, h.slot_lt, h.name,
      fun j hj hn => absurd (h.unique j (by have := h.slot_lt; omega) hn) (by omega), rfl⟩
  rw [fileBytes, hlook, Option.map_some, Option.some.injEq] at hfile
  have hsize : bytes.length = (m.inode (entryAt a.disk slot).inode).size := by
    rw [← hfile]
    simp [bytesFrom]
  rw [hsize] at hlen
  have hget : ∀ k < 8, bytes.getD k 0 = byteAt a.disk (m.inode (entryAt a.disk slot).inode) k := by
    intro k hk
    rw [← hfile, bytesFrom, List.getD_eq_getElem?_getD, List.getElem?_map,
      List.getElem?_range (by simp only [authDbSize] at hlen; omega)]
    simp
  have hblock : ∀ k < 8, (m.inode (entryAt a.disk slot).inode).blockOf k =
    (m.inode (entryAt a.disk slot).inode).direct 0 := by
    intro k hk
    rw [Inode.blockOf_eq (by omega)]
    congr 1
    exact Fin.ext (by simp; omega)
  -- a block without a sector reads as zeros, which is no magic
  have hsector : (m.inode (entryAt a.disk slot).inode).direct 0 ≠ 0 := by
    intro h0
    have hzero : ∀ k < 8, bytes.getD k 0 = 0 := by
      intro k hk
      rw [hget k hk, byteAt, if_pos ((hblock k hk).trans h0)]
    have hword : wordAt (bytes.getD · 0) 0 = wordAt (fun _ => 0) 0 := wordAt_congr fun k _ hk => hzero k (by omega)
    simp only [AuthDatabase.ofImage, hword] at hmagic
    exact absurd hmagic (by decide)
  have hslice : ∀ k < 8, bytes.getD k 0 =
      (a.disk ((m.inode (entryAt a.disk slot).inode).direct 0)).slice 0 k := by
    intro k hk
    rw [hget k hk, ← hblock k hk]
    exact (byteAt_slice (by rw [hblock k hk]; exact hsector) (by omega) (by omega)).symm
  obtain ⟨hm, hc⟩ := AuthDatabase.ofImage_congr hslice
  exact ⟨hlen, hsector, h.sectors 0 hsector, hm ▸ hmagic, hc ▸ hcount⟩

/-- The bytes `fs_read` gets of the first sector. -/
theorem ofImage_read (s : Sector) :
    (AuthDatabase.ofImage (((List.range authDbSize).map (s.slice 0)).getD · 0)).magic =
    (AuthDatabase.ofImage (s.slice 0)).magic ∧
      (AuthDatabase.ofImage (((List.range authDbSize).map (s.slice 0)).getD · 0)).count =
        (AuthDatabase.ofImage (s.slice 0)).count := by
  apply AuthDatabase.ofImage_congr
  intro k hk
  rw [List.getD_eq_getElem?_getD, List.getElem?_map, List.getElem?_range (by simp only [authDbSize]; omega)]
  simp

/-! ## Reading the database -/

theorem fsExists_counted (h : HoldsAccounts a m slot) :
    (fsExists usersDat).wp (counted (a.accepts · = true) a.faults) (fun r g' m' => m' = m ∧
      if a.faults (n + slot) = true then r = 0 else r = 1 ∧ g' = (n + slot + 1, a.disk)) (n, a.disk) m := by
  unfold fsExists
  simp only [wp_bind, wp_load]
  rw [if_neg (by rw [h.ready, show validName usersDat = true by decide]; decide)]
  refine (findDirEntry_unique h.root h.directory h.slot_lt h.name h.unique).seq ?_
  rintro r g' m' ⟨rfl, hr⟩
  refine ⟨rfl, ?_⟩
  by_cases hf : a.faults (n + slot) = true
  · rw [if_pos hf] at hr ⊢
    rw [hr.1]
    decide
  · rw [if_neg hf] at hr ⊢
    rw [hr.1, int32_of_lt h.inode, if_pos (by omega)]
    exact ⟨rfl, hr.2⟩

theorem fsOpen_counted (h : HoldsAccounts a m slot) :
    (fsOpen usersDat).wp (counted (a.accepts · = true) a.faults) (fun r g' m' =>
      if a.faults (n + slot) = true then r = -1
      else r = 0 ∧ g' = (n + slot + 1, a.disk) ∧ m' = setHandle m 0 ⟨(entryAt a.disk slot).inode, 0⟩)
      (n, a.disk) m := by
  unfold fsOpen
  simp only [wp_bind, wp_load]
  rw [if_neg (by rw [h.ready, show validName usersDat = true by decide]; decide)]
  refine (findDirEntry_unique h.root h.directory h.slot_lt h.name h.unique).seq ?_
  rintro r g' m' ⟨rfl, hr⟩
  by_cases hf : a.faults (n + slot) = true
  · simp only [hf, if_true] at hr ⊢
    rw [hr.1, if_pos (by decide)]
    rfl
  · simp only [hf] at hr ⊢
    rw [hr.1, int32_of_lt h.inode, if_neg (by omega)]
    have hfree : (List.range fsMaxHandles).find? (fun i => decide ((m'.handles i).inode < 0)) = some 0 := by
      rw [List.find?_range_eq_some]
      exact ⟨by simpa using h.closed 0 (by omega), by simp, by simp⟩
    simp only [wp_bind, wp_load, hfree]
    exact ⟨rfl, hr.2, rfl⟩

/-- One request brings the whole database. -/
theorem fsRead_counted {i : Nat} (hready : m.filesystemReady = true) (hh : m.handles 0 = ⟨i, 0⟩)
    (h : FirstSector a m i) :
    (fsRead 0 true authDbSize).wp (counted (a.accepts · = true) a.faults) (fun r _ _ =>
      if a.faults n = true then r.1 = 0
      else r = ((authDbSize : Int), (List.range authDbSize).map ((a.disk ((m.inode i).direct 0)).slice 0)))
      (n, a.disk) m := by
  have husable : handleUsable m 0 true = true := by
    simp [handleUsable, hready, hh]
  have hsize := h.size
  unfold fsRead
  simp only [wp_bind, wp_load]
  rw [husable]
  simp only [Bool.not_true, Bool.false_eq_true, if_false, Int.toNat_zero, hh, Int.toNat_natCast]
  rw [if_neg (by simp only [authDbSize] at hsize; omega), Nat.sub_zero, Nat.min_eq_left hsize]
  rw [fsReadLoop, dif_pos (by decide), dif_pos (by decide)]
  simp only [wp_bind, wp_load]
  have hzero : (⟨(0 + 0) / 512, by decide⟩ : Fin 32) = 0 := rfl
  rw [hzero, if_neg h.sector]
  simp only [wp_bind, wp_readBlock]
  refine ⟨h.accepts, ?_⟩
  rintro r n' ⟨rfl, rfl⟩
  by_cases hf : a.faults n = true
  · rw [if_pos hf]
    simp [hf]
  · rw [if_neg hf]
    dsimp only
    rw [fsReadLoop, dif_neg (by decide)]
    simp only [wp_pure, wp_modify, hf]
    rfl

/-- From request `n` on, the three requests of `auth_db_load` that bring the directory entry of
`users.dat`, in `fs_exists` and again in `fs_open`, and the file's first sector succeed. -/
def Fetches (f : Nat → Bool) (n slot : Nat) : Prop :=
  f (n + slot) = false ∧ f (n + 2 * slot + 1) = false ∧ f (n + 2 * slot + 2) = false

theorem readRecord_counted (h : HoldsAccounts a m slot) :
    (readRecord usersDat authDbSize).wp (counted (a.accepts · = true) a.faults) (fun r _ _ =>
      (Fetches a.faults n slot → r = some ((List.range authDbSize).map
        ((a.disk ((m.inode (entryAt a.disk slot).inode).direct 0)).slice 0))) ∧
      (¬ Fetches a.faults n slot → r = none)) (n, a.disk) m := by
  unfold readRecord Fetches
  refine (fsExists_counted h).seq ?_
  rintro r n₁ m₁ ⟨rfl, hr⟩
  by_cases h1 : a.faults (n + slot) = true
  · rw [if_pos h1] at hr
    rw [if_pos hr]
    simp [h1]
  · rw [if_neg h1] at hr
    obtain ⟨rfl, rfl⟩ := hr
    rw [if_neg (by decide)]
    refine (fsOpen_counted h).seq ?_
    intro fd n₂ m₂ hfd
    have e1 : n + slot + 1 + slot = n + 2 * slot + 1 := by omega
    rw [e1] at hfd
    by_cases h2 : a.faults (n + 2 * slot + 1) = true
    · rw [if_pos h2] at hfd
      rw [if_pos (by omega)]
      simp [h2]
    · rw [if_neg h2] at hfd
      obtain ⟨rfl, rfl, rfl⟩ := hfd
      rw [if_neg (by decide)]
      have e2 : n + 2 * slot + 1 + 1 = n + 2 * slot + 2 := by omega
      rw [e2]
      have hfirst : FirstSector a (setHandle m₁ 0 ⟨(entryAt a.disk slot).inode, 0⟩) (entryAt a.disk slot).inode :=
        ⟨h.firstSector.size, h.firstSector.sector, h.firstSector.accepts, h.firstSector.magic, h.firstSector.count⟩
      have hopen : (setHandle m₁ 0 ⟨(entryAt a.disk slot).inode, 0⟩).handles 0 = ⟨(entryAt a.disk slot).inode, 0⟩ := by
        simp [setHandle]
      refine wp.seq (fsRead_counted h.ready hopen hfirst) ?_
      rintro ⟨count, bytes⟩ n₃ m₃ hread
      unfold fsClose
      rw [if_neg (by decide)]
      simp only [wp_bind, wp_modify, wp_pure]
      by_cases h3 : a.faults (n + 2 * slot + 2) = true
      · rw [if_pos h3] at hread
        rw [if_neg (by rw [show count = 0 from hread]; decide)]
        simp [h3]
      · rw [if_neg h3, Prod.mk.injEq] at hread
        obtain ⟨rfl, rfl⟩ := hread
        rw [if_pos rfl]
        exact ⟨fun _ => rfl, fun hno => absurd ⟨by simpa using h1, by simpa using h2, by simpa using h3⟩ hno⟩

/-- The database is loaded exactly if the three requests succeed. -/
theorem authDbRead_counted (h : HoldsAccounts a m slot) :
    authDbRead.wp (counted (a.accepts · = true) a.faults) (fun r _ _ =>
      (Fetches a.faults n slot → ∃ db, r = some db ∧ db.count ≠ 0) ∧ (¬ Fetches a.faults n slot → r = none))
      (n, a.disk) m := by
  refine (readRecord_counted h).seq ?_
  rintro r n' m' ⟨hyes, hno⟩
  by_cases hf : Fetches a.faults n slot
  · rw [hyes hf]
    obtain ⟨hm, hc⟩ := ofImage_read (a.disk ((m.inode (entryAt a.disk slot).inode).direct 0))
    dsimp only
    rw [if_pos (hm.trans h.firstSector.magic)]
    exact ⟨fun _ => ⟨_, rfl, hc ▸ h.firstSector.count⟩, fun hf' => absurd hf hf'⟩
  · rw [hno hf]
    exact ⟨fun hf' => absurd hf' hf, fun _ => rfl⟩

/-! ## The identity -/

theorem readRecord_readOnly (name : CStr) (size : Nat) {m : FsMem} (hclosed : ∀ fd < 16, (m.handles fd).inode < 0) :
    (readRecord name size).wp readOnly (fun _ _ m' => m'.inodes = m.inodes ∧ m'.filesystemReady = m.filesystemReady ∧
      ∀ fd < 16, (m'.handles fd).inode < 0) () m := by
  unfold readRecord
  refine (fsExists_readOnly name m).seq ?_
  rintro r g m₁ rfl
  split
  · exact ⟨rfl, rfl, hclosed⟩
  · refine (fsOpen_readOnly name m₁).seq ?_
    rintro fd g m₂ (⟨rfl, rfl⟩ | ⟨fd', hfd, inode, rfl, -, hi, rfl⟩)
    · exact ⟨rfl, rfl, hclosed⟩
    · rw [if_neg (by omega)]
      refine (fsRead_readOnly _ true size _).seq ?_
      rintro ⟨count, bytes⟩ g m₃ hm₃
      unfold fsClose
      rw [if_neg (by simp only [fsMaxHandles]; omega)]
      simp only [wp_bind, wp_modify, wp_pure]
      -- the handle that was opened is closed again
      have hrest : ∀ fd < 16, fd ≠ fd' → (m₃.handles fd).inode < 0 := by
        intro fd hlt hne
        rcases hm₃ with rfl | ⟨position, rfl⟩
        · simpa [setHandle, Function.update_of_ne hne] using hclosed fd hlt
        · simpa [setHandle, Function.update_of_ne hne] using hclosed fd hlt
      refine ⟨?_, ?_, fun fd hlt => ?_⟩
      · rcases hm₃ with rfl | ⟨position, rfl⟩ <;> rfl
      · rcases hm₃ with rfl | ⟨position, rfl⟩ <;> rfl
      · by_cases hne : fd = fd'
        · subst hne
          simp [setHandle, Handle.closed]
        · simpa [setHandle, Function.update_of_ne hne] using hrest fd hlt hne

theorem identityLoad_readOnly {m : FsMem} (hclosed : ∀ fd < 16, (m.handles fd).inode < 0) :
    identityLoad.wp readOnly (fun _ _ m' => m'.inodes = m.inodes ∧ m'.filesystemReady = m.filesystemReady ∧
      ∀ fd < 16, (m'.handles fd).inode < 0) () m := by
  refine (readRecord_readOnly identityDat identitySize hclosed).seq ?_
  intro r g m' h
  cases r with
  | none => exact h
  | some bytes => exact h

theorem readOnly_ata (a : Ata) : Models readOnly ata fun _ a' => OnlyRead a a' :=
  ⟨fun g _ lba h _ => ⟨g, trivial, h.read lba⟩, fun _ _ _ _ _ h => absurd h id⟩

/-- Reading the identity leaves the accounts as they were. -/
theorem HoldsAccounts.identityLoad {c : Conf FsMem Ata} (h : HoldsAccounts c.dev c.mem slot) :
    HoldsAccounts (SpectreOS.identityLoad.run ata c).2.dev (SpectreOS.identityLoad.run ata c).2.mem slot ∧
      (SpectreOS.identityLoad.run ata c).2.dev.faults = c.dev.faults := by
  obtain ⟨-, ⟨hinodes, hready, hclosed⟩, hdisk, ⟨h1, h2, h3⟩, -⟩ :=
    wp_sound (readOnly_ata c.dev) SpectreOS.identityLoad (g := ()) (c := c) (identityLoad_readOnly h.closed)
      ⟨rfl, ⟨rfl, rfl, rfl⟩, .refl _ _⟩
  generalize (SpectreOS.identityLoad.run ata c).2 = c' at *
  have hacc : c'.dev.accepts = c.dev.accepts := by
    funext lba
    unfold Ata.accepts
    rw [h1, h2]
  have hinode : ∀ i, c'.mem.inode i = c.mem.inode i := inode_congr hinodes
  refine ⟨⟨hready.trans h.ready, hclosed, (hinode 0).trans h.root, hacc ▸ h.directory, h.slot_lt, hdisk ▸ h.name,
    hdisk ▸ h.unique, hdisk ▸ h.inode, ?_, ?_⟩, h3⟩
  · rw [hdisk, hinode, hacc]
    exact h.sectors
  · obtain ⟨bytes, hb, hrest⟩ := h.valid
    refine ⟨bytes, ?_, hrest⟩
    rw [← hb, hdisk]
    unfold fileBytes
    congr 1
    funext i
    rw [hinode]

end Counted

/-! ## The gate -/

/-- The drive as the filesystem's device shows it, on a plain disk and on an encrypted one. -/
inductive Shows (cp : Primitives) (m : Machine) : Ata → Prop
  | plain : OnAta m → Shows cp m m.ata
  | encrypted (slot : CryptoSlot) : Sealed slot m → Shows cp m (unsealed cp slot m.ata)

section Gate

variable {cp : Primitives} {a : Ata} {slot : Nat}

theorem Shows.same {m : Machine} (h : Shows cp m a) : a.faults = m.ata.faults ∧ a.log.length = m.ata.log.length := by
  cases h with
  | plain _ => exact ⟨rfl, rfl⟩
  | encrypted slot _ => exact ⟨rfl, List.length_map _⟩

/-- A run through the block layer is a run on the drive it shows. -/
theorem Shows.run {α : Type} {c : Conf FsMem Machine} (h : Shows cp c.dev a) (p : FsM α) :
    (p.run (fsDisk cp) c).1 = (p.run ata ⟨c.mem, a⟩).1 ∧ (p.run (fsDisk cp) c).2.mem = (p.run ata ⟨c.mem, a⟩).2.mem ∧
      Shows cp (p.run (fsDisk cp) c).2.dev (p.run ata ⟨c.mem, a⟩).2.dev := by
  cases h with
  | plain h =>
    obtain ⟨h1, h2, h3, h4⟩ := run_hom (onAta_hom cp) p c h
    exact ⟨h1, h2, h3 ▸ .plain h4⟩
  | encrypted slot h =>
    obtain ⟨h1, h2, h3, h4⟩ := run_hom (sealed_hom cp slot) p c h
    exact ⟨h1, h2, h3 ▸ .encrypted slot h4⟩

/-- Before the database has been read, the gate asks for a login exactly if reading it finds an
account. -/
theorem authStart_login {ω : Type} (S : Services ω) {auth : Auth} (hnew : auth.dbLoaded = false) (w : ω) :
    let r := authInit S auth w
    (authStart S r.1 r.2).1.stage ≠ .signupUsername ↔ ∃ db, (S.readDatabase w).1 = some db ∧ db.count ≠ 0 := by
  intro r
  have hr : r = authDbLoad S auth w := by
    show authInit S auth w = _
    rw [authInit, hnew]
    rfl
  have hload : authInit S r.1 r.2 = r := by
    rw [hr]
    rfl
  have hstage : (authStart S r.1 r.2).1.stage = if r.1.db.count = 0 then .signupUsername else .loginUsername := by
    rw [authStart, hload]
    rfl
  rw [hstage, hr]
  show (if ((S.readDatabase w).1.getD _).count = 0 then _ else _) ≠ _ ↔ _
  cases (S.readDatabase w).1 with
  | none => simp
  | some db => simp

theorem accountsBoot_login (D : Device Machine Sector) (S : Services (Conf FsMem Machine)) {auth : Auth}
    (hnew : auth.dbLoaded = false) (s : Conf FsMem Machine) :
    (accountsBoot D S auth s).1.stage ≠ .signupUsername ↔
      ∃ db, (authDbRead.run D (identityLoad.run D s).2).1 = some db ∧ db.count ≠ 0 :=
  authStart_login { S with readDatabase := authDbRead.run D } hnew _

/-- What `auth_db_load` finds after `identity_load`. -/
theorem authDbRead_boot {s : Conf FsMem Machine} (hshows : Shows cp s.dev a) (h : HoldsAccounts a s.mem slot) :
    let c := (identityLoad.run (fsDisk cp) s).2
    (Fetches s.dev.ata.faults (requests c) slot → ∃ db, (authDbRead.run (fsDisk cp) c).1 = some db ∧ db.count ≠ 0) ∧
      (¬ Fetches s.dev.ata.faults (requests c) slot → (authDbRead.run (fsDisk cp) c).1 = none) := by
  intro c
  obtain ⟨-, hmem, hshows'⟩ := hshows.run identityLoad
  obtain ⟨hholds, hfaults⟩ := HoldsAccounts.identityLoad (c := ⟨s.mem, a⟩) h
  rw [← hmem] at hholds
  have hpattern := hshows.same.1
  generalize (identityLoad.run ata ⟨s.mem, a⟩).2.dev = a' at *
  have hnumber : requests c = a'.log.length := hshows'.same.2.symm
  rw [hnumber, ← hpattern, ← show a'.faults = a.faults from hfaults]
  obtain ⟨-, hfound, -⟩ := wp_sound (counted_models (a'.accepts · = true) a'.faults) authDbRead
    (g := (a'.log.length, a'.disk)) (c := ⟨c.mem, a'⟩) (authDbRead_counted hholds) ⟨rfl, rfl, rfl, fun _ h => h⟩
  rw [(hshows'.run authDbRead).1]
  exact hfound

/-- On a disk with accounts the gate asks for a login, whatever other requests fail, exactly if the
requests that bring the directory entry of `users.dat` and its first sector succeed. -/
theorem authStart_closed_iff (S : Services (Conf FsMem Machine)) {auth : Auth} {s : Conf FsMem Machine}
    (hnew : auth.dbLoaded = false) (hshows : Shows cp s.dev a) (h : HoldsAccounts a s.mem slot) :
    (accountsBoot (fsDisk cp) S auth s).1.stage ≠ .signupUsername ↔
      Fetches s.dev.ata.faults (requests (identityLoad.run (fsDisk cp) s).2) slot := by
  obtain ⟨hyes, hno⟩ := authDbRead_boot hshows h
  rw [accountsBoot_login _ S hnew]
  constructor
  · rintro ⟨db, hdb, -⟩
    by_contra hf
    rw [hno hf] at hdb
    cases hdb
  · exact hyes

/-! ## A machine with one account -/

theorem HoldsAccounts.withFaults {m : FsMem} (h : HoldsAccounts a m slot) (f : Nat → Bool) :
    HoldsAccounts (a.withFaults f) m slot :=
  ⟨h.ready, h.closed, h.root, h.directory, h.slot_lt, h.name, h.unique, h.inode, h.sectors, h.valid⟩

theorem Shows.withFaults {m : Machine} (h : Shows cp m a) (f : Nat → Bool) :
    Shows cp (m.withFaults f) (a.withFaults f) := by
  cases h with
  | plain h => exact .plain h
  | encrypted slot h => exact .encrypted slot (h.withAta _)

/-- A mounted filesystem whose model has the accounts. -/
theorem Running.holdsAccounts {N : Nat} {s : Conf FsMem Machine} {files : Files} (h : Running cp N s files.closeAll)
    (hmem : usersDat ∈ files.names) (hlen : authDbSize ≤ (files.data usersDat).length)
    (hmagic : (AuthDatabase.ofImage ((files.data usersDat).getD · 0)).magic = authDbMagic)
    (hcount : (AuthDatabase.ofImage ((files.data usersDat).getD · 0)).count ≠ 0) :
    ∃ a slot, Shows cp s.dev a ∧ HoldsAccounts a s.mem slot := by
  obtain ⟨key, hsealed, hserves, hsound⟩ := h.live
  have hdisk := hsealed.logicalDisk_eq cp
  have hlinked := h.refines.linked
  have hfile := h.fileBytes usersDat
  rw [if_pos (show usersDat ∈ files.closeAll.names from hmem)] at hfile
  obtain ⟨i, hi⟩ := h.refines.agrees.mem_iff.1 (show usersDat ∈ files.closeAll.names from hmem)
  obtain ⟨slot, hlt, hname, -, -⟩ := lookup_eq_some.1 hi
  rw [hdisk] at hsound hlinked hfile hname hserves
  have hlo := hsound.lo
  have hacc : ∀ lba < N, (unsealed cp key s.dev.ata).accepts lba = true := by
    intro lba hlba
    have h1 := hserves.size
    have h2 := hserves.addressable
    unfold Ata.accepts
    rw [hserves.ready]
    simp only [Bool.true_and, Bool.and_eq_true, decide_eq_true_eq]
    omega
  refine ⟨_, slot, .encrypted key hsealed, h.refines.agrees.ready, fun fd hfd => ?_, hsound.root,
    fun lba _ hlba => hacc lba (by omega), hlt, hname, fun j hj hn => hlinked.unique j hj slot hlt _ hn hname,
    (hsound.entries slot hlt hname.1).2, fun k hk => ?_, _, hfile, hlen, hmagic, hcount⟩
  · exact (h.refines.agrees.handles fd hfd).neg_iff.2 rfl
  · obtain ⟨-, hb, -⟩ := hsound.owned.range _ k hk
    exact hacc _ (by rw [hsound.total] at hb; exact hb)

/-- The superblock of a disk in use is read and accepted. -/
theorem Running.loads {N : Nat} {s : Conf FsMem Machine} {files : Files} (h : Running cp N s files)
    {c : Conf FsMem Machine} (hdisk : c.dev.ata.disk = s.dev.ata.disk) (hready : c.dev.ata.diskReady = true)
    (hsize : N ≤ c.dev.ata.diskSectors) (hf : ∀ n, c.dev.ata.faults n = false) :
    (loadSuperblock.run rawDisk c).1 = true := by
  obtain ⟨material, hsb⟩ := h.superblock
  have hlo := h.refines.sound.lo
  have hhi := h.refines.sound.owned.totalHi
  rw [h.refines.sound.total] at hhi
  have hacc : c.dev.ata.accepts 0 = true := by
    unfold Ata.accepts
    rw [hready]
    simp only [Bool.true_and, Bool.and_eq_true, decide_eq_true_eq]
    omega
  have hread : (ataReadSector c.dev.ata 0).1 = some (superblockSector s.mem.superblock) := by
    rw [← h.sector, ← hdisk]
    simp [ataReadSector, hacc, hf]
  rw [show c = ⟨c.mem, c.dev⟩ from rfl, loadSuperblock_raw, hread]
  dsimp only
  rw [superblockSector_slice _ (by rw [hsb]; exact sealedSuperblock_fits material hhi)]
  exact accepted_of_layout _ hlo hhi hsb

/-- A database with the account `root`. -/
def oneAccount : List Byte :=
  [0x54, 0x55, 0x41, 0x53, 1, 0, 0, 0] ++ ascii "root" ++ List.replicate 76 0 ++ [1, 0, 0, 0] ++ List.replicate 252 0

/-- The calls that save it. -/
def firstAccount : List Call := [.create usersDat, .open usersDat, .write 0 (some oneAccount)]

/-- The variables of auth.c before the boot. -/
def blankAuth : Auth :=
  ⟨.ofImage fun _ => 0, false, .inactive, fun _ => 0, 0, fun _ => 0, fun _ => 0, false, fun _ => 0⟩

/-- Services that leave the machine alone. -/
def idleServices (ω : Type) : Services ω where
  pbkdf2HmacSha256 _ _ := fun _ => 0
  rngGetBytes w := (fun _ => 0, w)
  readDatabase w := (none, w)
  authDbSave _ w := w
  identityGenerate _ w := w
  readFile _ w := ([], w)
  replaceFile _ _ w := (false, w)
  command _ w := w

theorem oneAccount_valid : authDbSize ≤ oneAccount.length ∧
    (AuthDatabase.ofImage (oneAccount.getD · 0)).magic = authDbMagic ∧
    (AuthDatabase.ofImage (oneAccount.getD · 0)).count ≠ 0 := by
  refine ⟨?_, ?_, ?_⟩
  · simp only [oneAccount, List.length_append, List.length_replicate]
    decide
  · decide
  · decide

theorem firstAccount_saved : usersDat ∈ (Files.run firstAccount (Files.empty 71)).2.names ∧
    (Files.run firstAccount (Files.empty 71)).2.data usersDat = oneAccount := by
  constructor
  · decide
  · decide +kernel

/-- A disk with the account is mounted at the next boot, and has it still. -/
theorem Running.accounts_mounted {s : Conf FsMem Machine}
    (h : Running cp 200 s (Files.run firstAccount (Files.empty 71)).2) :
    let c := rebooted s.dev.ata.disk
    let r := fsInit (current cp) (fun _ => 0) c
    (loadSuperblock.run rawDisk { c with mem := { c.mem with filesystemReady := false } }).1 = true ∧ r.1 = true ∧
      (∀ n, r.2.dev.ata.faults n = false) ∧ ∃ a slot, Shows cp r.2.dev a ∧ HoldsAccounts a r.2.mem slot := by
  intro c r
  have hreg : Registry c.dev := Registry.boot _
  have hfaults : ∀ n, c.dev.ata.faults n = false := fun _ => rfl
  obtain ⟨hok, h₂⟩ := h.init (fun _ => 0) (c := c) hreg rfl ⟨0, by omega, rfl⟩ (show 1 < 8 by omega)
    rfl rfl le_rfl hfaults
  obtain ⟨hmem, hdata⟩ := firstAccount_saved
  refine ⟨h.loads rfl rfl le_rfl hfaults, hok, ?_, h₂.holdsAccounts hmem ?_ ?_ ?_⟩
  · obtain ⟨slot, -, hserves, -⟩ := h₂.live
    rcases hserves.faultless with ⟨hno, -⟩ | hno
    · cases hno
    · exact hno
  · rw [hdata]
    exact oneAccount_valid.1
  · rw [hdata]
    exact oneAccount_valid.2.1
  · rw [hdata]
    exact oneAccount_valid.2.2

/-- A disk formatted and given the account. -/
theorem running_firstAccount :
    ∃ s, s = (runCalls (fsDisk nullPrimitives) firstAccount
        (fsFormat (current nullPrimitives) (fun _ => 0) (bootConf (blankDrive 200))).2).2 ∧
      Running nullPrimitives 200 s (Files.run firstAccount (Files.empty 71)).2 := by
  have h := fsFormat_boot nullPrimitives (fun _ => 0) (a := blankDrive 200) rfl (by decide) fun _ => rfl
  have h₀ : Running nullPrimitives 200 _ (Files.empty 71) :=
    running_format (fun _ => 0) (Registry.boot _) (fun _ => rfl) rfl h
  exact ⟨_, rfl, (h₀.calls firstAccount ⟨trivial, trivial, trivial, trivial⟩).2⟩

/-- With all requests served, the gate of that machine asks for a login. -/
theorem authStart_closed_boot :
    ∃ s, s = (runCalls (fsDisk nullPrimitives) firstAccount
        (fsFormat (current nullPrimitives) (fun _ => 0) (bootConf (blankDrive 200))).2).2 ∧
      let r := fsInit (current nullPrimitives) (fun _ => 0) (rebooted s.dev.ata.disk)
      r.1 = true ∧ (accountsBoot (fsDisk nullPrimitives) (idleServices _) blankAuth r.2).1.stage ≠ .signupUsername := by
  obtain ⟨s, hs, hrun⟩ := running_firstAccount
  obtain ⟨-, hok, hfaults, a, slot, hshows, hholds⟩ := hrun.accounts_mounted
  have hclosed := @authStart_closed_iff _ a slot (idleServices _) blankAuth _ rfl hshows hholds
  exact ⟨s, hs, hok, hclosed.2 ⟨hfaults _, hfaults _, hfaults _⟩⟩

/-- When every request after the mount fails, it offers to create the first account. -/
theorem authStart_open_boot :
    ∃ s, s = (runCalls (fsDisk nullPrimitives) firstAccount
        (fsFormat (current nullPrimitives) (fun _ => 0) (bootConf (blankDrive 200))).2).2 ∧
      ∃ f, let r := fsInit (current nullPrimitives) (fun _ => 0) (withFaults (rebooted s.dev.ata.disk) f)
        r.1 = true ∧ (∃ a slot, Shows nullPrimitives r.2.dev a ∧ HoldsAccounts a r.2.mem slot) ∧
        (accountsBoot (fsDisk nullPrimitives) (idleServices _) blankAuth r.2).1.stage = .signupUsername := by
  obtain ⟨s, hs, hrun⟩ := running_firstAccount
  obtain ⟨hload, hok, hfaults, a, slot, hshows, hholds⟩ := hrun.accounts_mounted
  refine ⟨s, hs, ?_⟩
  generalize hr : (fsInit (current nullPrimitives) (fun _ => 0) (rebooted s.dev.ata.disk)).2 = s' at *
  -- the requests from the mount on
  obtain ⟨f, hf⟩ : ∃ f : Nat → Bool, ∀ n, f n = decide (requests s' ≤ n) := ⟨_, fun _ => rfl⟩
  have hmount := fsInit_withFaults (f := f) hload hok fun n _ hlt => by
    rw [hr] at hlt
    rw [hf, decide_eq_false (by omega)]
    rfl
  refine ⟨f, ?_⟩
  rw [hmount, hr]
  have hshows' := hshows.withFaults f
  have hholds' := hholds.withFaults f
  refine ⟨rfl, ⟨_, slot, hshows', hholds'⟩, ?_⟩
  have hnone := (authDbRead_boot (s := withFaults s' f) hshows' hholds').2 fun hfetch => by
    have hserved : f _ = false := hfetch.1
    have hlate := (run_requests nullPrimitives identityLoad (withFaults s' f)).2
    have hsame : requests (withFaults s' f) = requests s' := rfl
    rw [hf, decide_eq_false_iff_not] at hserved
    omega
  by_contra hstage
  obtain ⟨db, hdb, -⟩ := (accountsBoot_login (fsDisk nullPrimitives) (idleServices _) rfl _).1 hstage
  rw [hnone] at hdb
  cases hdb

end Gate

end SpectreOS
