/-
Accounts (auth.c): the account database, creating and verifying an account, and the line and the
stages of the login gate. What these functions use of the rest of the kernel is a record of
functions on the state `ω` of that rest; nothing is assumed of them.
-/
import SpectreOS.Console.Keyboard
import SpectreOS.Lib.Text

namespace SpectreOS

open BlockIO

abbrev authMaxUsers : Nat := 4
abbrev authUsernameMax : Nat := 32
abbrev authPasswordMax : Nat := 64
abbrev authSaltSize : Nat := 16
abbrev authHashSize : Nat := 32
abbrev authDbMagic : BitVec 32 := 0x53415554

/-- An `auth_record_t`. A username is read up to its NUL, which it is expected to have. -/
structure AuthRecord where
  username : Block authUsernameMax
  salt : Block authSaltSize
  hash : Block authHashSize
  inUse : BitVec 32

/-- An `auth_database_t`. -/
structure AuthDatabase where
  magic : BitVec 32
  count : BitVec 32
  users : Fin authMaxUsers → AuthRecord

inductive AuthStage where
  | inactive
  | signupUsername
  | signupPassword
  | signupConfirm
  | loginUsername
  | loginPassword
  deriving DecidableEq, Repr

/-- The static variables of auth.c. -/
structure Auth where
  db : AuthDatabase
  dbLoaded : Bool
  stage : AuthStage
  lineBuffer : Block (authPasswordMax + 1)
  lineLength : Nat
  pendingUsername : Block authUsernameMax
  pendingPassword : Block (authPasswordMax + 1)
  loggedIn : Bool
  activeUsername : Block authUsernameMax

/-- The rest of the kernel, as the login gate, the editor and the shell use it. -/
structure Services (ω : Type) where
  /-- `pbkdf2_hmac_sha256` with 4096 iterations and an output of 32 bytes. -/
  pbkdf2HmacSha256 : List Byte → Block authSaltSize → Block authHashSize
  rngGetBytes : ω → Block authSaltSize × ω
  /-- The database in `users.dat`, if it could be read whole and has its magic. -/
  readDatabase : ω → Option AuthDatabase × ω
  authDbSave : AuthDatabase → ω → ω
  /-- `identity_generate`, if `identity_exists` answers 0. -/
  identityGenerate : List Byte → ω → ω
  /-- What `buffer_load` reads of a file. -/
  readFile : List Byte → ω → List Byte × ω
  /-- The filesystem calls of `buffer_save`. -/
  replaceFile : List Byte → List Byte → ω → Bool × ω
  /-- The shell's commands other than `clear`, `logout` and `nano`. -/
  command : List Byte → ω → ω

/-! ## Strings -/

/-- `string_equals` on the bytes before the terminators. -/
def stringEquals : List Byte → List Byte → Bool
  | a :: as, b :: bs => if a ≠ b then false else stringEquals as bs
  | [], [] => true
  | _, _ => false

/-- `string_starts_with`. -/
def stringStartsWith : List Byte → List Byte → Bool
  | _, [] => true
  | [], _ :: _ => false
  | t :: text, p :: pre => if t ≠ p then false else stringStartsWith text pre

/-- `string_copy_bounded`. -/
def stringCopyBounded {n : Nat} (destination : Block n) (source : List Byte) (maxLength : Nat) : Block n :=
  destination.store (source.take (maxLength - 1))

/-- `constant_time_equal`. -/
def constantTimeEqual {n : Nat} (a b : Block n) : Bool :=
  (List.finRange n).foldl (fun diff i => diff ||| (a i ^^^ b i)) 0 == 0

theorem stringEquals_iff {a b : List Byte} : stringEquals a b = true ↔ a = b := by
  induction a generalizing b with
  | nil => cases b <;> simp [stringEquals]
  | cons x a ih =>
    cases b with
    | nil => simp [stringEquals]
    | cons y b =>
      simp only [stringEquals, ne_eq, ite_not, List.cons.injEq]
      by_cases h : x = y
      · simp [h, ih]
      · simp [h]

theorem constantTimeEqual_iff {n : Nat} {a b : Block n} : constantTimeEqual a b = true ↔ a = b := by
  have hfold : ∀ (l : List (Fin n)) (d : Byte),
      l.foldl (fun diff i => diff ||| (a i ^^^ b i)) d = 0 ↔ d = 0 ∧ ∀ i ∈ l, a i = b i := by
    intro l
    induction l with
    | nil => simp
    | cons i l ih =>
      intro d
      rw [List.foldl_cons, ih]
      simp [BitVec.or_eq_zero_iff, BitVec.xor_eq_zero_iff, and_assoc]
  rw [constantTimeEqual, beq_iff_eq, hfold]
  simp [funext_iff]

/-! ## Accounts -/

section Accounts

variable {ω : Type} (S : Services ω)

def authFindUser (db : AuthDatabase) (username : List Byte) : Option (Fin authMaxUsers) :=
  (List.finRange authMaxUsers).find? fun i =>
    (db.users i).inUse ≠ 0 && stringEquals (db.users i).username.text username

def authVerifyUser (db : AuthDatabase) (username password : List Byte) : Bool :=
  match authFindUser db username with
  | none => false
  | some i => constantTimeEqual (S.pbkdf2HmacSha256 password (db.users i).salt) (db.users i).hash

/-- `auth_create_user`: the new database, saved. -/
def authCreateUser (db : AuthDatabase) (username password : List Byte) (w : ω) : Option (AuthDatabase × ω) :=
  if authMaxUsers ≤ db.count.toNat then none
  else if (authFindUser db username).isSome then none
  else match (List.finRange authMaxUsers).find? fun i => (db.users i).inUse = 0 with
    | none => none
    | some slot =>
      let (salt, w) := S.rngGetBytes w
      let record : AuthRecord :=
        ⟨stringCopyBounded (db.users slot).username username authUsernameMax, salt,
          S.pbkdf2HmacSha256 password salt, 1⟩
      let db := { db with count := db.count + 1, users := Function.update db.users slot record }
      some (db, S.authDbSave db w)

/-- A verified password is that of a record in use. -/
theorem authVerifyUser_spec {db : AuthDatabase} {username password : List Byte}
    (h : authVerifyUser S db username password = true) :
    ∃ i, (db.users i).inUse ≠ 0 ∧ (db.users i).username.text = username ∧
      S.pbkdf2HmacSha256 password (db.users i).salt = (db.users i).hash := by
  unfold authVerifyUser at h
  split at h
  · cases h
  · rename_i i hi
    have hfound := List.find?_some hi
    simp only [Bool.and_eq_true, stringEquals_iff, ne_eq, decide_not, Bool.not_eq_true',
      decide_eq_false_iff_not] at hfound
    exact ⟨i, hfound.1, hfound.2, constantTimeEqual_iff.1 h⟩

end Accounts

/-! ## The login line -/

namespace Auth

variable (a : Auth)

def authLoginActive : Bool := a.stage ≠ .inactive

def authResetLine : Auth := { a with lineLength := 0, lineBuffer := a.lineBuffer.setByte 0 0 }

/-- The characters are signed: a byte from 128 on is below 32 too. -/
def authKeyboardCharacter (c : Byte) : Auth :=
  if c.toInt < 32 ∨ 126 < c.toInt then a
  else if authPasswordMax ≤ a.lineLength then a
  else
    { a with
      lineBuffer := (a.lineBuffer.setByte a.lineLength c).setByte (a.lineLength + 1) 0
      lineLength := a.lineLength + 1 }

def authKeyboardBackspace : Auth :=
  if a.lineLength = 0 then a
  else { a with lineBuffer := a.lineBuffer.setByte (a.lineLength - 1) 0, lineLength := a.lineLength - 1 }

/-- A prompt of another stage. -/
def toStage (stage : AuthStage) : Auth := { a with stage }.authResetLine

/-- `secure_wipe` of the pending password. -/
def wipePassword : Auth := { a with pendingPassword := fun _ => 0 }

/-- `auth_finish_session` up to `shell_init`. -/
def authFinishSession (username : List Byte) : Auth :=
  ({ a with
    activeUsername := stringCopyBounded a.activeUsername username authUsernameMax
    loggedIn := true
    stage := .inactive }.authResetLine).wipePassword

end Auth

section Gate

variable {ω : Type} (S : Services ω)

/-- `auth_db_load`. -/
def authDbLoad (a : Auth) (w : ω) : Auth × ω :=
  let blank : AuthDatabase := { a.db with
    magic := authDbMagic, count := 0, users := fun i => { a.db.users i with inUse := 0 } }
  let (loaded, w) := S.readDatabase w
  ({ a with db := loaded.getD blank, dbLoaded := true }, w)

def authInit (a : Auth) (w : ω) : Auth × ω := if a.dbLoaded then (a, w) else authDbLoad S a w

def authStart (a : Auth) (w : ω) : Auth × ω :=
  let (a, w) := authInit S a w
  let a := { a with loggedIn := false }
  (a.toStage (if a.db.count = 0 then .signupUsername else .loginUsername), w)

def authLogout (a : Auth) (w : ω) : Auth × ω :=
  authStart S { a with loggedIn := false, activeUsername := a.activeUsername.setByte 0 0 } w

/-- `auth_keyboard_enter`; a session that begins is told to the caller, who calls `shell_init`. -/
def authKeyboardEnter (a : Auth) (w : ω) : Auth × ω × Bool :=
  match a.stage with
  | .inactive => (a, w, false)
  | .signupUsername =>
    if a.lineLength = 0 then (a.toStage .signupUsername, w, false)
    else
      let a := { a with pendingUsername := stringCopyBounded a.pendingUsername a.lineBuffer.text authUsernameMax }
      (a.toStage .signupPassword, w, false)
  | .signupPassword =>
    if a.lineLength = 0 then (a.toStage .signupPassword, w, false)
    else
      let a := { a with
        pendingPassword := stringCopyBounded a.pendingPassword a.lineBuffer.text (authPasswordMax + 1) }
      (a.toStage .signupConfirm, w, false)
  | .signupConfirm =>
    if !stringEquals a.lineBuffer.text a.pendingPassword.text then (a.wipePassword.toStage .signupUsername, w, false)
    else match authCreateUser S a.db a.pendingUsername.text a.pendingPassword.text w with
      | none => (a.wipePassword.toStage .signupUsername, w, false)
      | some (db, w) =>
        ({ a with db }.authFinishSession a.pendingUsername.text, S.identityGenerate a.pendingUsername.text w, true)
  | .loginUsername =>
    let a := { a with pendingUsername := stringCopyBounded a.pendingUsername a.lineBuffer.text authUsernameMax }
    (a.toStage .loginPassword, w, false)
  | .loginPassword =>
    let a := { a with
      pendingPassword := stringCopyBounded a.pendingPassword a.lineBuffer.text (authPasswordMax + 1) }
    let ok := authVerifyUser S a.db a.pendingUsername.text a.pendingPassword.text
    let a := a.wipePassword
    if !ok then (a.toStage .loginUsername, w, false)
    else (a.authFinishSession a.pendingUsername.text, w, true)

end Gate

end SpectreOS
