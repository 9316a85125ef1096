/-
The login gate over whole runs of the keyboard: no handler of the shell or of the editor is entered
before somebody has logged in, and a session begins in two ways only. What was typed is read off
the keys by a visitor who sees the prompts, not off the buffers of auth.c.
-/
import SpectreOS.Console.Handler

namespace SpectreOS

open BlockIO

/-! ## What was typed -/

/-- What a visitor at the keyboard knows: the line being typed, the line last entered at the
username and at the new password prompt, and the number of accounts when the gate was started. -/
structure Visit where
  line : List Byte
  username : List Byte
  password : List Byte
  gateCount : BitVec 32

def printable (ch : Byte) : Prop := 32 ≤ ch.toInt ∧ ch.toInt ≤ 126

instance (ch : Byte) : Decidable (printable ch) := inferInstanceAs (Decidable (_ ∧ _))

/-- What the visitor knows after Enter at a prompt. -/
def Visit.enter (v : Visit) : AuthStage → Visit
  | .loginUsername => { v with line := [], username := v.line }
  | .signupPassword => { v with line := [], password := v.line }
  | _ => { v with line := [] }

section Visit

variable {ω : Type} (S : Services ω)

/-- What the visitor knows after a byte. -/
def Visit.see (v : Visit) (c : Console ω) (scancode : Byte) : Visit :=
  match c.entered scancode with
  | some (.auth, .character ch) =>
    if printable ch ∧ v.line.length < authPasswordMax then { v with line := v.line ++ [ch] } else v
  | some (.auth, .backspace) => { v with line := v.line.dropLast }
  | some (.auth, .enter) => v.enter c.auth.stage
  | some (.shell, .enter) =>
    if (c.keyboardHandler S scancode).auth.authLoginActive then { v with line := [], gateCount := c.auth.db.count }
      else v
  | _ => v

/-- What the visitor knows after a sequence of bytes. -/
def Visit.after (v : Visit) : Console ω → List Byte → Visit
  | _, [] => v
  | c, scancode :: rest => (v.see S c scancode).after (c.keyboardHandler S scancode) rest

/-- What the visitor knows when the gate is started at boot. -/
def Visit.start (db : AuthDatabase) : Visit := ⟨[], [], [], db.count⟩

end Visit

/-! ## The invariant -/

def AuthStage.signup : AuthStage → Bool
  | .signupUsername | .signupPassword | .signupConfirm => true
  | _ => false

/-- The gate is closed exactly while nobody is logged in, the editor runs in a session only, a
first account is offered only where there was none, and the buffers hold what was typed. -/
structure Gated {ω : Type} (c : Console ω) (v : Visit) : Prop where
  closed : c.auth.stage = .inactive ↔ c.auth.loggedIn = true
  editor : c.nano.active = true → c.auth.stage = .inactive
  loaded : c.auth.dbLoaded = true
  first : c.auth.stage.signup = true → v.gateCount = 0
  line : c.auth.stage ≠ .inactive → c.auth.lineBuffer.text = v.line ∧ v.line.length = c.auth.lineLength ∧
    c.auth.lineLength ≤ authPasswordMax
  username : c.auth.stage = .loginPassword → c.auth.pendingUsername.text = v.username.take (authUsernameMax - 1)
  password : c.auth.stage = .signupConfirm → c.auth.pendingPassword.text = v.password

section Lemmas

variable {ω : Type} {S : Services ω} {c : Console ω} {v : Visit}

/-! ## Buffers -/

theorem text_stringCopyBounded {n : Nat} (b : Block n) {t : List Byte} (h0 : 0 ∉ t) (hn : 0 < n) :
    (stringCopyBounded b t n).text = t.take (n - 1) := by
  apply Block.text_store
  · exact fun h => h0 (List.mem_of_mem_take h)
  · rw [List.length_take]
    omega

/-! ## What the handlers keep -/

/-- A handler of the editor keeps the accounts and does not open the editor. -/
theorem handle_nano (key : Key) :
    (c.handle S .nano key).auth = c.auth ∧ ((c.handle S .nano key).nano.active = true → c.nano.active = true) := by
  have hedit : ∀ f, (c.nano.edit f).active = c.nano.active := by
    intro f
    unfold Nano.edit
    split <;> rfl
  have hprompt : ∀ p f, (p c.nano).active = c.nano.active → (c.nano.promptOr p f).active = c.nano.active := by
    intro p f h
    unfold Nano.promptOr
    split_ifs
    · rfl
    · exact h
    · rfl
  cases key with
  | character ch => exact ⟨rfl, fun h => (hedit _).symm.trans h⟩
  | delete => exact ⟨rfl, fun h => (hedit _).symm.trans h⟩
  | up => exact ⟨rfl, fun h => (hedit _).symm.trans h⟩
  | down => exact ⟨rfl, fun h => (hedit _).symm.trans h⟩
  | home => exact ⟨rfl, fun h => (hprompt _ _ rfl).symm.trans h⟩
  | «end» => exact ⟨rfl, fun h => (hprompt _ _ rfl).symm.trans h⟩
  | left =>
    refine ⟨rfl, fun h => (hprompt _ _ ?_).symm.trans h⟩
    split <;> rfl
  | right =>
    refine ⟨rfl, fun h => (hprompt _ _ ?_).symm.trans h⟩
    split <;> rfl
  | backspace =>
    refine ⟨rfl, fun h => (hprompt _ _ ?_).symm.trans h⟩
    unfold Nano.promptBackspace
    split <;> rfl
  | enter =>
    simp only [Console.handle, Console.nanoKeyboardEnter]
    split_ifs
    · exact ⟨rfl, id⟩
    · exact ⟨rfl, id⟩
    · exact ⟨rfl, id⟩
  | ctrl letter =>
    refine ⟨rfl, fun _ => ?_⟩
    by_contra hoff
    simp_all [Console.handle, Nano.nanoKeyboardCtrl]

/-- A handler of the shell, Enter apart, works on the command line alone. -/
theorem handle_shell {key : Key} (hkey : key ≠ .enter) :
    (c.handle S .shell key).auth = c.auth ∧ (c.handle S .shell key).nano = c.nano := by
  cases key with
  | enter => exact absurd rfl hkey
  | _ => exact ⟨rfl, rfl⟩

/-- Enter in the shell ends the session or leaves the accounts alone. -/
theorem shellKeyboardEnter_cases :
    (c.shellKeyboardEnter S).auth = c.auth ∨
      (c.shellKeyboardEnter S).auth = (authLogout S c.auth c.world).1 ∧ (c.shellKeyboardEnter S).nano = c.nano := by
  simp only [Console.shellKeyboardEnter, Console.shellExecute]
  split_ifs
  · exact Or.inl rfl
  · exact Or.inr ⟨rfl, rfl⟩
  · refine Or.inl ?_
    unfold Console.shellCmdNano
    split
    · rfl
    · split <;> rfl
  · exact Or.inl rfl

theorem authLogout_spec (a : Auth) (w : ω) (h : a.dbLoaded = true) :
    (authLogout S a w).1.db = a.db ∧ (authLogout S a w).1.dbLoaded = true ∧ (authLogout S a w).1.loggedIn = false ∧
      (authLogout S a w).1.stage = (if a.db.count = 0 then .signupUsername else .loginUsername) ∧
      (authLogout S a w).1.lineBuffer.text = [] ∧ (authLogout S a w).1.lineLength = 0 := by
  simp only [authLogout, authStart, authInit, h, if_true, Auth.toStage, Auth.authResetLine, true_and, and_true]
  exact Block.text_setByte_zero _ (by omega)

theorem authLoginActive_eq_false {a : Auth} : a.authLoginActive = false ↔ a.stage = .inactive := by
  unfold Auth.authLoginActive
  cases a.stage <;> decide

/-- A gate that has just been started. -/
theorem Gated.started {a : Auth} (hstage : a.stage = if a.db.count = 0 then .signupUsername else .loginUsername)
    (hline : a.lineBuffer.text = []) (hlen : a.lineLength = 0) (hloaded : a.dbLoaded = true)
    (hout : a.loggedIn = false) (hauth : c.auth = a) (hnano : c.nano.active = false) (hv : v.line = [])
    (hcount : v.gateCount = a.db.count) : Gated c v := by
  subst hauth
  have hactive : c.auth.stage ≠ .inactive := by
    rw [hstage]
    split <;> exact nofun
  refine ⟨⟨fun h => absurd h hactive, fun h => absurd (hout.symm.trans h) nofun⟩,
    fun h => absurd (hnano.symm.trans h) nofun, hloaded, fun h => ?_, fun _ => ?_, fun h => ?_, fun h => ?_⟩
  · rw [hstage] at h
    split_ifs at h with h0
    · rw [hcount, h0]
    · cases h
  · rw [hline, hv, hlen]
    exact ⟨rfl, rfl, Nat.zero_le _⟩
  · rw [hstage] at h
    split_ifs at h
  · rw [hstage] at h
    split_ifs at h

/-! ## The login line -/

theorem Gated.congr {c' : Console ω} {v' : Visit} (h : Gated c v) (hauth : c'.auth = c.auth)
    (hnano : c'.nano.active = true → c.nano.active = true) (hv : v' = v) : Gated c' v' := by
  subst hv
  exact ⟨hauth ▸ h.closed, fun ha => hauth ▸ h.editor (hnano ha), hauth ▸ h.loaded, hauth ▸ h.first,
    hauth ▸ h.line, hauth ▸ h.username, hauth ▸ h.password⟩

/-- A change of the login line alone. -/
theorem Gated.relined {c' : Console ω} {buffer : Block (authPasswordMax + 1)} {len : Nat} {line : List Byte}
    (h : Gated c v) (hauth : c'.auth = { c.auth with lineBuffer := buffer, lineLength := len })
    (hnano : c'.nano = c.nano) (htext : buffer.text = line) (hlen : line.length = len) (hmax : len ≤ authPasswordMax) :
    Gated c' { v with line } := by
  refine ⟨?_, ?_, ?_, ?_, ?_, ?_, ?_⟩
  all_goals rw [hauth]
  · exact h.closed
  · rw [hnano]
    exact h.editor
  · exact h.loaded
  · exact h.first
  · exact fun _ => ⟨htext, hlen, hmax⟩
  · exact h.username
  · exact h.password

theorem Gated.character (h : Gated c v) (hactive : c.auth.stage ≠ .inactive) (ch : Byte) :
    Gated { c with auth := c.auth.authKeyboardCharacter ch }
      (if printable ch ∧ v.line.length < authPasswordMax then { v with line := v.line ++ [ch] } else v) := by
  obtain ⟨htext, hlen, hmax⟩ := h.line hactive
  unfold Auth.authKeyboardCharacter
  by_cases hp : printable ch
  · rw [if_neg (by unfold printable at hp; omega)]
    by_cases hroom : v.line.length < authPasswordMax
    · rw [if_neg (by omega), if_pos ⟨hp, hroom⟩]
      have hch : ch ≠ 0 := by
        rintro rfl
        exact absurd hp.1 (by decide)
      refine h.relined rfl rfl ?_ (by simp [hlen]) (by omega)
      rw [← hlen, ← htext]
      exact Block.text_append _ hch (by rw [htext]; omega)
    · rw [if_pos (by omega), if_neg fun h => hroom h.2]
      exact h.congr rfl id rfl
  · rw [if_pos (by unfold printable at hp; omega), if_neg fun h => hp h.1]
    exact h.congr rfl id rfl

theorem Gated.backspace (h : Gated c v) (hactive : c.auth.stage ≠ .inactive) :
    Gated { c with auth := c.auth.authKeyboardBackspace } { v with line := v.line.dropLast } := by
  obtain ⟨htext, hlen, hmax⟩ := h.line hactive
  unfold Auth.authKeyboardBackspace
  split
  · rename_i h0
    refine h.congr rfl id ?_
    rw [List.length_eq_zero_iff.1 (hlen.trans h0)]
    cases v
    simp_all
  · refine h.relined rfl rfl ?_ (by simp [hlen]) (by omega)
    rw [← hlen, ← htext]
    refine Block.text_dropLast _ (fun h0 => ?_) (by rw [htext]; omega)
    rw [← htext, h0] at hlen
    simp_all

/-! ## Enter at the gate -/

/-- The gate goes on with an empty line at another prompt. -/
theorem Gated.prompt {c' : Console ω} {v' : Visit} {a : Auth} {stage : AuthStage}
    (hauth : c'.auth = a.toStage stage) (hactive : stage ≠ .inactive) (hloaded : a.dbLoaded = true)
    (hout : a.loggedIn = false) (hnano : c'.nano.active = false) (hline : v'.line = [])
    (hfirst : stage.signup = true → v'.gateCount = 0)
    (huser : stage = .loginPassword → a.pendingUsername.text = v'.username.take (authUsernameMax - 1))
    (hpass : stage = .signupConfirm → a.pendingPassword.text = v'.password) : Gated c' v' := by
  refine ⟨?_, fun hn => absurd (hnano.symm.trans hn) nofun, ?_, ?_, fun _ => ?_, ?_, ?_⟩
  all_goals rw [hauth]
  · exact ⟨fun h => absurd h hactive, fun h => absurd (hout.symm.trans h) nofun⟩
  · exact hloaded
  · exact hfirst
  · rw [hline]
    exact ⟨Block.text_setByte_zero _ (by omega), rfl, Nat.zero_le _⟩
  · exact huser
  · exact hpass

/-- The gate opens. -/
theorem Gated.session {c' : Console ω} {v' : Visit} {a : Auth} {username : List Byte}
    (hauth : c'.auth = a.authFinishSession username) (hloaded : a.dbLoaded = true) : Gated c' v' := by
  refine ⟨?_, fun _ => ?_, ?_, ?_, ?_, ?_, ?_⟩
  all_goals rw [hauth]
  · exact ⟨fun _ => rfl, fun _ => rfl⟩
  · rfl
  · exact hloaded
  · exact nofun
  · exact fun h => absurd rfl h
  · exact nofun
  · exact nofun

theorem Gated.out (h : Gated c v) (hactive : c.auth.stage ≠ .inactive) :
    c.auth.loggedIn = false ∧ c.nano.active = false := by
  constructor
  · exact Bool.eq_false_iff.2 fun hin => hactive (h.closed.2 hin)
  · exact Bool.eq_false_iff.2 fun hn => hactive (h.editor hn)

/-- The password in the buffer is the line typed. -/
theorem Gated.typed (h : Gated c v) (hactive : c.auth.stage ≠ .inactive) (b : Block (authPasswordMax + 1)) :
    (stringCopyBounded b c.auth.lineBuffer.text (authPasswordMax + 1)).text = v.line := by
  obtain ⟨htext, hlen, hmax⟩ := h.line hactive
  rw [text_stringCopyBounded _ (Block.zero_notMem_text _) (by omega), htext, List.take_of_length_le (by omega)]

theorem Gated.enter (h : Gated c v) (hactive : c.auth.stage ≠ .inactive) :
    Gated (c.authEnter S) (v.enter c.auth.stage) := by
  obtain ⟨hout, hn⟩ := h.out hactive
  have hauth : (c.authEnter S).auth = (authKeyboardEnter S c.auth c.world).1 := rfl
  have hnano : (c.authEnter S).nano.active = false := hn
  generalize c.authEnter S = c' at hauth hnano
  cases hstage : c.auth.stage with
  | inactive => exact absurd hstage hactive
  | signupUsername =>
    have hfirst : v.gateCount = 0 := h.first (by rw [hstage]; rfl)
    simp only [authKeyboardEnter, hstage] at hauth
    split_ifs at hauth
    · exact Gated.prompt hauth nofun h.loaded hout hnano rfl (fun _ => hfirst) nofun nofun
    · exact Gated.prompt hauth nofun h.loaded hout hnano rfl (fun _ => hfirst) nofun nofun
  | signupPassword =>
    have hfirst : v.gateCount = 0 := h.first (by rw [hstage]; rfl)
    simp only [authKeyboardEnter, hstage] at hauth
    split_ifs at hauth
    · exact Gated.prompt hauth nofun h.loaded hout hnano rfl (fun _ => hfirst) nofun nofun
    · exact Gated.prompt hauth nofun h.loaded hout hnano rfl (fun _ => hfirst) nofun fun _ => h.typed hactive _
  | signupConfirm =>
    have hfirst : v.gateCount = 0 := h.first (by rw [hstage]; rfl)
    simp only [authKeyboardEnter, hstage] at hauth
    split_ifs at hauth
    · exact Gated.prompt hauth nofun h.loaded hout hnano rfl (fun _ => hfirst) nofun nofun
    · split at hauth
      · exact Gated.prompt hauth nofun h.loaded hout hnano rfl (fun _ => hfirst) nofun nofun
      · exact Gated.session hauth h.loaded
  | loginUsername =>
    simp only [authKeyboardEnter, hstage] at hauth
    refine Gated.prompt hauth nofun h.loaded hout hnano rfl nofun (fun _ => ?_) nofun
    rw [text_stringCopyBounded _ (Block.zero_notMem_text _) (show 0 < authUsernameMax by decide), (h.line hactive).1]
    rfl
  | loginPassword =>
    simp only [authKeyboardEnter, hstage] at hauth
    split_ifs at hauth
    · exact Gated.prompt hauth nofun h.loaded hout hnano rfl nofun nofun nofun
    · exact Gated.session hauth h.loaded

/-! ## One byte, and whole runs -/

/-- The gate gets keys only while it is active, and the others only in a session. -/
theorem Gated.target (h : Gated c v) {key : Key} {owner : Owner} (ht : c.target key = some owner) :
    (owner = .auth ∧ c.auth.stage ≠ .inactive) ∨ (owner ≠ .auth ∧ c.auth.stage = .inactive) := by
  have hmode : (c.mode = .auth ∧ c.auth.stage ≠ .inactive) ∨ (c.mode ≠ .auth ∧ c.auth.stage = .inactive) := by
    unfold Console.mode Auth.authLoginActive
    by_cases hs : c.auth.stage = .inactive
    · right
      simp only [hs, ne_eq, not_true_eq_false, decide_false, Bool.false_eq_true, if_false, and_true]
      split <;> exact nofun
    · left
      simp [hs]
  cases key with
  | ctrl letter =>
    simp only [Console.target] at ht
    split_ifs at ht with hn
    cases ht
    exact Or.inr ⟨nofun, h.editor hn⟩
  | character ch => cases ht; exact hmode
  | enter => cases ht; exact hmode
  | backspace => cases ht; exact hmode
  | _ =>
    simp only [Console.target] at ht
    split_ifs at ht
    cases ht
    exact hmode

theorem entered_target {scancode : Byte} {owner : Owner} {key : Key} (h : c.entered scancode = some (owner, key)) :
    c.target key = some owner := by
  simp only [Console.entered, Option.bind_eq_some_iff, Option.map_eq_some_iff, Prod.mk.injEq] at h
  obtain ⟨key', -, owner', ht, rfl, rfl⟩ := h
  exact ht

/-- One byte keeps the invariant. -/
theorem Gated.step (h : Gated c v) (scancode : Byte) : Gated (c.keyboardHandler S scancode) (v.see S c scancode) := by
  have hd : Gated (c.decoded scancode) v := h.congr rfl id rfl
  cases he : c.entered scancode with
  | none =>
    simp only [Console.keyboardHandler, Visit.see, he]
    exact hd
  | some entry =>
    obtain ⟨owner, key⟩ := entry
    have hstep : c.keyboardHandler S scancode = (c.decoded scancode).handle S owner key := by
      simp only [Console.keyboardHandler, he]
    rcases h.target (entered_target he) with ⟨rfl, hactive⟩ | ⟨hother, hstage⟩
    · rw [hstep]
      cases key with
      | character ch =>
        simp only [Visit.see, he]
        exact hd.character hactive ch
      | backspace =>
        simp only [Visit.see, he]
        exact hd.backspace hactive
      | enter =>
        simp only [Visit.see, he]
        exact hd.enter hactive
      | _ =>
        simp only [Visit.see, he]
        exact hd
    · cases owner with
      | auth => exact absurd rfl hother
      | nano =>
        rw [hstep]
        simp only [Visit.see, he]
        exact hd.congr (handle_nano key).1 (handle_nano key).2 rfl
      | shell =>
        by_cases hkey : key = .enter
        · subst hkey
          have hnano : (c.decoded scancode).nano.active = false := by
            have := entered_target he
            simp only [Console.target, Console.mode, Option.some.injEq] at this
            split_ifs at this with h1 h2
            exact Bool.eq_false_iff.2 h2
          have hsee : v.see S c scancode = if (c.keyboardHandler S scancode).auth.authLoginActive then
              { v with line := [], gateCount := c.auth.db.count } else v := by
            simp only [Visit.see, he]
          rw [hsee, hstep]
          show Gated ((c.decoded scancode).shellKeyboardEnter S) (if
            ((c.decoded scancode).shellKeyboardEnter S).auth.authLoginActive then _ else _)
          rcases @shellKeyboardEnter_cases _ S (c.decoded scancode) with hauth | ⟨hauth, hn⟩
          · rw [if_neg (by rw [hauth]; exact Bool.eq_false_iff.1 (authLoginActive_eq_false.2 hstage))]
            exact ⟨hauth ▸ hd.closed, fun _ => by rw [hauth]; exact hstage, hauth ▸ hd.loaded, hauth ▸ hd.first,
              hauth ▸ hd.line, hauth ▸ hd.username, hauth ▸ hd.password⟩
          · obtain ⟨hdb, hloaded, hout, hst, htext, hlen⟩ := @authLogout_spec _ S (c.decoded scancode).auth
              (c.decoded scancode).world hd.loaded
            rw [if_pos]
            · refine Gated.started (by rw [hst, hdb]) htext hlen hloaded hout hauth (by rw [hn]; exact hnano) rfl ?_
              rw [hdb]
              rfl
            · rw [hauth, Auth.authLoginActive, hst]
              split <;> rfl
        · have hsee : v.see S c scancode = v := by
            cases key with
            | enter => exact absurd rfl hkey
            | _ => simp only [Visit.see, he]
          rw [hstep, hsee]
          exact hd.congr (handle_shell hkey).1 (fun ha => (handle_shell hkey).2 ▸ ha) rfl

/-- The invariant holds after every run. -/
theorem Gated.run (h : Gated c v) (scancodes : List Byte) :
    Gated (c.keyboardRun S scancodes) (v.after S c scancodes) := by
  induction scancodes generalizing c v with
  | nil => exact h
  | cons scancode rest ih => exact ih (h.step scancode)

theorem Gated.start (db : AuthDatabase) (w : ω) : Gated (Console.start S db w) (Visit.start db) :=
  Gated.started rfl (Block.text_setByte_zero _ (by omega)) rfl rfl rfl rfl rfl rfl rfl

/-- Enter at the gate opens it for a verified password, or for the first account. -/
theorem Gated.opened (h : Gated c v) (hactive : c.auth.stage ≠ .inactive) (hin : (c.authEnter S).auth.loggedIn = true) :
    (c.auth.stage = .loginPassword ∧ ∃ i, (c.auth.db.users i).inUse ≠ 0 ∧
        (c.auth.db.users i).username.text = v.username.take (authUsernameMax - 1) ∧
        S.pbkdf2HmacSha256 v.line (c.auth.db.users i).salt = (c.auth.db.users i).hash) ∨
      (c.auth.stage = .signupConfirm ∧ v.line = v.password ∧ v.gateCount = 0) := by
  have hout := (h.out hactive).1
  have hauth : (c.authEnter S).auth = (authKeyboardEnter S c.auth c.world).1 := rfl
  rw [hauth] at hin
  cases hstage : c.auth.stage with
  | inactive => exact absurd hstage hactive
  | signupUsername =>
    simp only [authKeyboardEnter, hstage] at hin
    split_ifs at hin
    · exact absurd (hout.symm.trans hin) nofun
    · exact absurd (hout.symm.trans hin) nofun
  | signupPassword =>
    simp only [authKeyboardEnter, hstage] at hin
    split_ifs at hin
    · exact absurd (hout.symm.trans hin) nofun
    · exact absurd (hout.symm.trans hin) nofun
  | loginUsername =>
    simp only [authKeyboardEnter, hstage] at hin
    exact absurd (hout.symm.trans hin) nofun
  | signupConfirm =>
    right
    refine ⟨rfl, ?_, h.first (by rw [hstage]; rfl)⟩
    simp only [authKeyboardEnter, hstage] at hin
    split_ifs at hin with heq
    · exact absurd (hout.symm.trans hin) nofun
    · simp only [Bool.not_eq_true, Bool.not_eq_false', stringEquals_iff] at heq
      rw [← h.password hstage, ← heq, (h.line hactive).1]
  | loginPassword =>
    left
    refine ⟨rfl, ?_⟩
    simp only [authKeyboardEnter, hstage] at hin
    split_ifs at hin with hok
    · exact absurd (hout.symm.trans hin) nofun
    · simp only [Bool.not_eq_true, Bool.not_eq_false'] at hok
      obtain ⟨i, huse, hname, hhash⟩ := authVerifyUser_spec S hok
      rw [h.typed hactive] at hhash
      exact ⟨i, huse, hname.trans (h.username hstage), hhash⟩

end Lemmas

/-! ## The gate cannot be bypassed -/

section Gate

variable {ω : Type} (S : Services ω) (db : AuthDatabase) (w : ω)

/-- After every sequence of scancode bytes from `auth_start` on, with any database: the next byte
enters a handler of the shell or of the editor only in a session; and it begins a session only by
Enter at the password prompt with the password of an account of the name typed, or by Enter at the
confirmation prompt with the password chosen, when the gate was started without an account. -/
theorem login_gate (scancodes : List Byte) (scancode : Byte) :
    let c := (Console.start S db w).keyboardRun S scancodes
    let v := (Visit.start db).after S (Console.start S db w) scancodes
    (∀ owner key, c.entered scancode = some (owner, key) → owner ≠ .auth →
      (c.decoded scancode).auth.authLoginActive = false ∧ (c.decoded scancode).auth.loggedIn = true) ∧
    (c.auth.loggedIn = false → (c.keyboardHandler S scancode).auth.loggedIn = true →
      c.entered scancode = some (.auth, .enter) ∧
        ((c.auth.stage = .loginPassword ∧ ∃ i, (c.auth.db.users i).inUse ≠ 0 ∧
            (c.auth.db.users i).username.text = v.username.take 31 ∧
            S.pbkdf2HmacSha256 v.line (c.auth.db.users i).salt = (c.auth.db.users i).hash) ∨
          (c.auth.stage = .signupConfirm ∧ v.line = v.password ∧ v.gateCount = 0))) := by
  intro c v
  have h : Gated c v := (Gated.start db w).run scancodes
  constructor
  · intro owner key he hother
    rcases h.target (entered_target he) with ⟨rfl, -⟩ | ⟨-, hstage⟩
    · exact absurd rfl hother
    · exact ⟨authLoginActive_eq_false.2 hstage, h.closed.1 hstage⟩
  · intro hout hin
    cases he : c.entered scancode with
    | none =>
      simp only [Console.keyboardHandler, he] at hin
      exact absurd (hout.symm.trans hin) nofun
    | some entry =>
      obtain ⟨owner, key⟩ := entry
      simp only [Console.keyboardHandler, he] at hin
      rcases h.target (entered_target he) with ⟨rfl, hactive⟩ | ⟨-, hstage⟩
      · have hd : Gated (c.decoded scancode) v := h.congr rfl id rfl
        cases key with
        | enter => exact ⟨rfl, hd.opened hactive hin⟩
        | character ch =>
          simp only [Console.handle, Auth.authKeyboardCharacter] at hin
          split_ifs at hin
          all_goals exact absurd (hout.symm.trans hin) nofun
        | backspace =>
          simp only [Console.handle, Auth.authKeyboardBackspace] at hin
          split_ifs at hin
          all_goals exact absurd (hout.symm.trans hin) nofun
        | _ => exact absurd (hout.symm.trans hin) nofun
      · exact absurd (hout.symm.trans (h.closed.1 hstage)) nofun

end Gate

end SpectreOS
