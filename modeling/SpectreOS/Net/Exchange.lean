/-
A ping between two hosts of one subnet that hear each other's frames at once. The first request that
`shell_cmd_ping` manages to send is the only one, and the host that hears it answers only if it has
the sender in its ARP cache already; otherwise it asks for the address and drops the reply. So the
command gets its reply exactly when the sender has to ask first, or the other host knows the sender
(`ping_exchange`).
-/
import SpectreOS.Net.Segment

namespace SpectreOS

open BlockIO Wire

/-! ## Two hosts -/

/-- The hosts of a segment, and how many frames of each other two of them have heard. -/
structure Exchange (ι : Type) where
  hosts : ι → Host
  heardFirst : Nat
  heardSecond : Nat

section

variable {ι : Type} [DecidableEq ι] [Fintype ι]

/-- `i` goes on with its ping command on what `j` has sent meanwhile, then `j` polls what `i` has sent. -/
def exchangeRound (i j : ι) (x : Exchange ι) : Option (Exchange ι) := do
  let s ← segment.turn x.hosts (i, .pingRound ((x.hosts j).net.sent.drop x.heardFirst))
  let s' ← segment.turn s (j, .poll ((s i).net.sent.drop x.heardSecond))
  return ⟨s', (x.hosts j).net.sent.length, (s i).net.sent.length⟩

def exchange (i j : ι) : Nat → Exchange ι → Option (Exchange ι)
  | 0, x => some x
  | n + 1, x => (exchangeRound i j x).bind (exchange i j n)

theorem exchange_add {i j : ι} (m n : Nat) {x y : Exchange ι} (h : exchange i j m x = some y) :
    exchange i j (m + n) x = exchange i j n y := by
  induction m generalizing x with
  | zero =>
    cases h
    rw [Nat.zero_add]
  | succ m ih =>
    obtain ⟨mid, hmid, h⟩ := Option.bind_eq_some_iff.1 h
    rw [Nat.succ_add, exchange, hmid, Option.bind_some, ih h]

/-- The two hosts, and the frames of the second that the first has not heard. -/
structure Facing (i j : ι) (x : Exchange ι) (a b : Host) (pending : List (List Byte)) : Prop where
  first : x.hosts i = a
  second : x.hosts j = b
  pending : b.net.sent.drop x.heardFirst = pending
  heard : x.heardSecond = a.net.sent.length
  idle : b.ping = none

theorem Facing.round {i j : ι} (hij : i ≠ j) {x : Exchange ι} {a b a' : Host} {net' : Net}
    {pending out back : List (List Byte)} (h : Facing i j x a b pending) (hround : pingRound pending a = some a')
    (hout : a'.net.sent = a.net.sent ++ out) (hpoll : netPoll b.net out = some net')
    (hback : net'.sent = b.net.sent ++ back) :
    ∃ x', exchangeRound i j x = some x' ∧ Facing i j x' a' { b with net := net' } back := by
  obtain ⟨rfl, rfl, rfl, hheard, hidle⟩ := h
  have hfirst : segment.turn x.hosts (i, .pingRound ((x.hosts j).net.sent.drop x.heardFirst)) =
      some (Function.update x.hosts i a') :=
    Party.turn_eq_some.2 ⟨fun frame hf => ⟨j, List.mem_of_mem_drop (List.mem_of_mem_take hf)⟩, a', hround, rfl⟩
  have hnew : (Function.update x.hosts i a' i).net.sent.drop x.heardSecond = out := by
    rw [Function.update_self, hout, hheard, List.drop_left]
  have hsecond : segment.turn (Function.update x.hosts i a')
      (j, .poll ((Function.update x.hosts i a' i).net.sent.drop x.heardSecond)) =
      some (Function.update (Function.update x.hosts i a') j { x.hosts j with net := net' }) := by
    refine Party.turn_eq_some.2 ⟨fun frame hf => ⟨i, List.mem_of_mem_drop (List.mem_of_mem_take hf)⟩, _, ?_, rfl⟩
    rw [hnew, Function.update_of_ne (Ne.symm hij)]
    show (if (x.hosts j).ping.isSome then none else (netPoll (x.hosts j).net out).map _) = _
    rw [if_neg (by rw [hidle]; exact Bool.false_ne_true), hpoll]
    rfl
  refine ⟨⟨Function.update (Function.update x.hosts i a') j { x.hosts j with net := net' },
    (x.hosts j).net.sent.length, (Function.update x.hosts i a' i).net.sent.length⟩, ?_, ⟨?_, ?_, ?_, ?_, hidle⟩⟩
  · rw [exchangeRound, hfirst, Option.bind_eq_bind, Option.bind_some, hsecond]
    rfl
  · exact (Function.update_of_ne hij ..).trans (Function.update_self ..)
  · exact Function.update_self ..
  · show net'.sent.drop (x.hosts j).net.sent.length = back
    rw [hback, List.drop_left]
  · exact congrArg (fun h : Host => h.net.sent.length) (Function.update_self i a' x.hosts)

end

/-! ## The rounds of the loop -/

section

variable {a : Host} {p : PingLoop} {net net' : Net} {frames : List (List Byte)}

theorem pingRound_due (hp : a.ping = some p) (hmax : p.iteration < pingMaxIterations) (hsent : p.sent = false)
    (hdue : p.iteration % pingArpRetryEvery = 0) (hpoll : netPoll a.net frames = some net) {result : Int}
    (hsend : icmpSendEchoRequest net p.destIp 0xBEEF p.sequence = (result, net')) :
    pingRound frames a =
      some { a with net := net', ping := some { p with sent := result != 0, iteration := p.iteration + 1 } } := by
  simp only [pingRound, hp, if_pos hmax, hpoll, Option.bind_eq_bind, Option.bind_some, hsent, Bool.not_false, if_true,
    if_pos hdue, hsend]
  rfl

theorem pingRound_wait (hp : a.ping = some p) (hmax : p.iteration < pingMaxIterations)
    (hpoll : netPoll a.net frames = some net)
    (hwait : p.sent = false ∧ p.iteration % pingArpRetryEvery ≠ 0 ∨
      p.sent = true ∧ icmpReplyReceived net 0xBEEF p.sequence = false) :
    pingRound frames a = some { a with net, ping := some { p with iteration := p.iteration + 1 } } := by
  simp only [pingRound, hp, if_pos hmax, hpoll, Option.bind_eq_bind, Option.bind_some]
  rcases hwait with ⟨hsent, hdue⟩ | ⟨hsent, hno⟩
  · simp only [hsent, Bool.not_false, if_true, if_neg hdue]
    rfl
  · simp only [hsent, Bool.not_true, hno]
    rfl

theorem pingRound_replied (hp : a.ping = some p) (hmax : p.iteration < pingMaxIterations)
    (hpoll : netPoll a.net frames = some net) (hsent : p.sent = true)
    (hreply : icmpReplyReceived net 0xBEEF p.sequence = true) :
    pingRound frames a =
      some { a with net, ping := none, reports := a.reports ++ [(p.destIp, .replyReceived)] } := by
  simp only [pingRound, hp, if_pos hmax, hpoll, Option.bind_eq_bind, Option.bind_some, hsent, Bool.not_true, hreply]
  rfl

theorem pingRound_over (hp : a.ping = some p) (hmax : pingMaxIterations ≤ p.iteration) (hsent : p.sent = true) :
    pingRound frames a = some { a with ping := none, reports := a.reports ++ [(p.destIp, .noReply)] } := by
  simp only [pingRound, hp, if_neg (not_lt.2 hmax), hsent, if_true]
  rfl

end

section

variable {ι : Type} [DecidableEq ι] [Fintype ι] {i j : ι} {x : Exchange ι} {a b : Host} {p : PingLoop}

/-- Rounds in which nothing is sent and nothing is pending. -/
theorem Facing.wait (hij : i ≠ j) (h : Facing i j x a b []) (hp : a.ping = some p) (n : Nat)
    (hmax : p.iteration + n ≤ pingMaxIterations)
    (hwait : (p.sent = false ∧ ∀ k < n, (p.iteration + k) % pingArpRetryEvery ≠ 0) ∨
      p.sent = true ∧ icmpReplyReceived a.net 0xBEEF p.sequence = false) :
    ∃ x', exchange i j n x = some x' ∧
      Facing i j x' { a with ping := some { p with iteration := p.iteration + n } } b [] := by
  induction n generalizing x a p with
  | zero =>
    refine ⟨x, rfl, ?_⟩
    have hsame : { a with ping := some { p with iteration := p.iteration + 0 } } = a := by
      rw [Nat.add_zero, ← hp]
    rwa [hsame]
  | succ n ih =>
    have hnow : p.sent = false ∧ p.iteration % pingArpRetryEvery ≠ 0 ∨
        p.sent = true ∧ icmpReplyReceived a.net 0xBEEF p.sequence = false :=
      hwait.imp_left fun hw => ⟨hw.1, hw.2 0 (by omega)⟩
    obtain ⟨mid, hmid, hf⟩ := h.round hij (pingRound_wait hp (by omega) (netPoll_nil a.net) hnow)
      (List.append_nil _).symm (netPoll_nil b.net) (List.append_nil _).symm
    obtain ⟨x', hx', hf'⟩ := ih hf rfl (by simp only; omega) (hwait.imp_left fun hw => ⟨hw.1, fun k hk => by
      have := hw.2 (k + 1) (by omega)
      rwa [Nat.add_assoc, Nat.add_comm 1 k]⟩)
    refine ⟨x', by rw [exchange, hmid]; exact hx', ?_⟩
    simp only [Nat.add_assoc, Nat.add_comm 1 n] at hf'
    exact hf'

/-- What the command of `i` ends with after some rounds. -/
def EndsWith (i j : ι) (x : Exchange ι) (a : Host) (dest : Ip) (outcome : PingOutcome) (rounds : Nat) : Prop :=
  ∃ x', exchange i j rounds x = some x' ∧ (x'.hosts i).ping = none ∧
    (x'.hosts i).reports = a.reports ++ [(dest, outcome)]

variable {own peer : Ip} {nic other : Nic} {sequence : Word16} {iteration : Nat} {mac mac' : Mac}

/-- Both hosts know each other: the request is answered. -/
theorem Facing.asked (hij : i ≠ j) (h : Facing i j x a b []) (hp : a.ping = some ⟨peer, sequence, false, iteration⟩)
    (hdue : iteration % pingArpRetryEvery = 0) (hmax : iteration + 1 < pingMaxIterations)
    (ha : Ready own peer nic a.net) (hb : Ready peer own other b.net) (hsend : ∀ sent frame, nic.send sent frame ≠ 0)
    (hka : arpResolve a.net peer = some mac) (hkb : arpResolve b.net own = some mac') :
    EndsWith i j x a peer .replyReceived 2 := by
  obtain ⟨idA, netA, hreq, hra, hsentA, hpsA⟩ := ha.request_known hka 0xBEEF sequence
  obtain ⟨idB, netB, hrep, hrb, hsentB, -⟩ :=
    @Ready.send_known _ _ _ _ hb mac' hkb ipProtoIcmp (echoMessage 0 0xBEEF sequence)
      (by rw [length_echoMessage]; decide)
  have hpollB : netPoll b.net [ipFrame mac nic.mac idA own peer ipProtoIcmp (echoMessage 8 0xBEEF sequence)] =
    some netB := by
    rw [netPoll_one hb.nic, hb.hear_request, hrep]
  obtain ⟨x₁, hx₁, hf₁⟩ := h.round hij
    (pingRound_due hp (by simp only; omega) rfl hdue (netPoll_nil a.net) hreq) hsentA hpollB hsentB
  -- the reply is on its way
  obtain ⟨netA', hreply, hsentA', hreceived⟩ := hra.hear_reply mac' other.mac idB hpsA
  obtain ⟨x₂, hx₂, hf₂⟩ := hf₁.round hij
    (pingRound_replied rfl hmax (by rw [netPoll_one hra.nic]; exact hreply) (by simpa using hsend _ _) hreceived)
    (hsentA'.trans (List.append_nil _).symm) (netPoll_nil netB) (List.append_nil _).symm
  refine ⟨x₂, by rw [exchange, hx₁, Option.bind_some, exchange, hx₂]; rfl, ?_, ?_⟩ <;> rw [hf₂.first]

/-- The first host has to ask for the address: the other learns it from the question, and the request of
the next attempt is answered. -/
theorem Facing.resolved (hij : i ≠ j) (h : Facing i j x a b []) (hp : a.ping = some ⟨peer, sequence, false, 0⟩)
    (ha : Ready own peer nic a.net) (hb : Ready peer own other b.net) (hsend : ∀ sent frame, nic.send sent frame ≠ 0)
    (hka : arpResolve a.net peer = none) : EndsWith i j x a peer .replyReceived 50002 := by
  obtain ⟨netA, hask, hra, hsentA⟩ := ha.request_unknown hka 0xBEEF sequence
  obtain ⟨netB, hhear, hrb, hsentB, -, hkb⟩ := hb.hear_question nic
  obtain ⟨x₁, hx₁, hf₁⟩ :=
    h.round hij (pingRound_due hp (by simp [pingMaxIterations]) rfl rfl (netPoll_nil a.net) hask) hsentA
    (by rw [netPoll_one hb.nic]; exact hhear) hsentB
  obtain ⟨netA', hanswer, hra', hsentA', -, hka'⟩ := hra.hear_answer other
  obtain ⟨x₂, hx₂, hf₂⟩ := hf₁.round hij
    (pingRound_wait rfl (by simp [pingMaxIterations]) (by rw [netPoll_one hra.nic]; exact hanswer)
      (.inl ⟨rfl, by simp [pingArpRetryEvery]⟩))
    (hsentA'.trans (List.append_nil _).symm) (netPoll_nil netB) (List.append_nil _).symm
  obtain ⟨x₃, hx₃, hf₃⟩ := hf₂.wait hij rfl 49998 (by simp [pingMaxIterations])
    (.inl ⟨rfl, fun k hk => by simp only [pingArpRetryEvery]; omega⟩)
  obtain ⟨x₄, hx₄, hdone, hreport⟩ :=
    hf₃.asked hij rfl (by simp [pingArpRetryEvery]) (by simp [pingMaxIterations]) hra' hrb hsend hka' hkb
  refine ⟨x₄, ?_, hdone, hreport⟩
  have htwo : exchange i j 2 x = some x₂ := by
    rw [exchange, hx₁, Option.bind_some, exchange, hx₂]
    rfl
  rw [show 50002 = 2 + (49998 + 2) from rfl, exchange_add 2 _ htwo, exchange_add 49998 _ hx₃, hx₄]

/-- The first host knows the other, but not the other way round: the request is heard, the reply is
dropped for want of an address, and no request follows. -/
theorem Facing.unanswered (hij : i ≠ j) (h : Facing i j x a b []) (hp : a.ping = some ⟨peer, sequence, false, 0⟩)
    (ha : Ready own peer nic a.net) (hb : Ready peer own other b.net) (hsend : ∀ sent frame, nic.send sent frame ≠ 0)
    (hka : arpResolve a.net peer = some mac) (hkb : arpResolve b.net own = none) :
    EndsWith i j x a peer .noReply 3000001 := by
  obtain ⟨idA, netA, hreq, hra, hsentA, hpsA⟩ := ha.request_known hka 0xBEEF sequence
  obtain ⟨netB, hask, hrb, hsentB⟩ :=
    @Ready.send_unknown _ _ _ _ hb hkb ipProtoIcmp (echoMessage 0 0xBEEF sequence) (by rw [length_echoMessage]; decide)
  have hpollB : netPoll b.net [ipFrame mac nic.mac idA own peer ipProtoIcmp (echoMessage 8 0xBEEF sequence)] =
    some netB := by
    rw [netPoll_one hb.nic, hb.hear_request, hask]
  obtain ⟨x₁, hx₁, hf₁⟩ := h.round hij
    (pingRound_due hp (by simp [pingMaxIterations]) rfl rfl (netPoll_nil a.net) hreq) hsentA hpollB hsentB
  -- the question for the sender is answered, which is too late for the reply
  obtain ⟨netA', hhear, hra', hsentA', hpsA', -⟩ := hra.hear_question other
  obtain ⟨netB', hanswer, hrb', hsentB', -, -⟩ := hrb.hear_answer nic
  have hno : icmpReplyReceived netA' 0xBEEF sequence = false := by simp [icmpReplyReceived, hpsA', hpsA]
  obtain ⟨x₂, hx₂, hf₂⟩ := hf₁.round hij
    (pingRound_wait rfl (by simp [pingMaxIterations]) (by rw [netPoll_one hra.nic]; exact hhear)
      (.inr ⟨by simpa using hsend _ _, hno⟩))
    hsentA' (by rw [netPoll_one hrb.nic]; exact hanswer) (hsentB'.trans (List.append_nil _).symm)
  obtain ⟨x₃, hx₃, hf₃⟩ := hf₂.wait hij rfl 2999998 (by simp [pingMaxIterations])
    (.inr ⟨by simpa using hsend _ _, hno⟩)
  obtain ⟨x₄, hx₄, hf₄⟩ := hf₃.round hij (pingRound_over rfl (by simp [pingMaxIterations]) (by simpa using hsend _ _))
    (List.append_nil _).symm (netPoll_nil netB') (List.append_nil _).symm
  have htwo : exchange i j 2 x = some x₂ := by
    rw [exchange, hx₁, Option.bind_some, exchange, hx₂]
    rfl
  have hone : exchange i j 1 x₃ = some x₄ := by
    rw [exchange, hx₄]
    rfl
  refine ⟨x₄, ?_, ?_, ?_⟩
  · rw [show 3000001 = 2 + (2999998 + 1) from rfl, exchange_add 2 _ htwo, exchange_add 2999998 _ hx₃, hone]
  · rw [hf₄.first]
  · rw [hf₄.first]

/-- What the command reports: whether the sender has to ask for the address first, or the other host knows
the sender. -/
def exchangeOutcome (a b : Net) (own peer : Ip) : PingOutcome :=
  if arpResolve a peer = none ∨ arpResolve b own ≠ none then .replyReceived else .noReply

theorem Facing.ends (hij : i ≠ j) (h : Facing i j x a b []) (hp : a.ping = some ⟨peer, sequence, false, 0⟩)
    (ha : Ready own peer nic a.net) (hb : Ready peer own other b.net) (hsend : ∀ sent frame, nic.send sent frame ≠ 0) :
    ∃ rounds, EndsWith i j x a peer (exchangeOutcome a.net b.net own peer) rounds := by
  unfold exchangeOutcome
  cases hka : arpResolve a.net peer with
  | none =>
    rw [if_pos (.inl rfl)]
    exact ⟨_, h.resolved hij hp ha hb hsend hka⟩
  | some mac =>
    cases hkb : arpResolve b.net own with
    | none =>
      rw [if_neg (by simp)]
      exact ⟨_, h.unanswered hij hp ha hb hsend hka hkb⟩
    | some mac' =>
      rw [if_pos (.inr (by simp))]
      exact ⟨_, h.asked hij hp rfl (by simp [pingMaxIterations]) ha hb hsend hka hkb⟩

/-- The rounds of an exchange are a run of the segment. -/
theorem exchange_run {n : Nat} {x' : Exchange ι} (h : exchange i j n x = some x') :
    ∃ events, segment.run x.hosts events = some x'.hosts := by
  induction n generalizing x with
  | zero =>
    cases h
    exact ⟨[], rfl⟩
  | succ n ih =>
    obtain ⟨mid, hmid, h⟩ := Option.bind_eq_some_iff.1 h
    obtain ⟨s, hs, hmid⟩ := Option.bind_eq_some_iff.1 hmid
    obtain ⟨s', hs', hmid⟩ := Option.bind_eq_some_iff.1 hmid
    cases hmid
    obtain ⟨events, hrun⟩ := ih h
    exact ⟨_ :: _ :: events, by rw [Party.run_cons hs, Party.run_cons hs', hrun]⟩

/-! ## The command -/

/-- The host once a ping command has been typed. -/
def Host.pinging (h : Host) (dest : Ip) : Host :=
  { h with pingSequence := h.pingSequence + 1, ping := some ⟨dest, h.pingSequence + 1, false, 0⟩ }

theorem turn_ping {s : ι → Host} (hidle : (s i).ping = none) (hnic : (s i).net.nic = some nic) {argument : CStr}
    (hdest : pingDest argument = some (true, peer)) :
    segment.turn s (i, .ping argument) = some (Function.update s i ((s i).pinging peer)) := by
  refine Party.turn_eq_some.2 ⟨fun f hf => (by cases hf), _, ?_, rfl⟩
  show (if (s i).ping.isSome then none else shellCmdPing argument (s i)) = _
  rw [if_neg (by rw [hidle]; exact Bool.false_ne_true)]
  simp only [shellCmdPing, hnic, hdest, Option.bind_eq_bind, Option.bind_some, if_true]
  rfl

/-- The exchange that starts when the command has been typed at `i`. -/
def Exchange.start (i j : ι) (s : ι → Host) (dest : Ip) : Exchange ι :=
  ⟨Function.update s i ((s i).pinging dest), (s j).net.sent.length, (s i).net.sent.length⟩

omit [Fintype ι] in
theorem Exchange.start_facing (hij : i ≠ j) {s : ι → Host} (hidle : (s j).ping = none) (dest : Ip) :
    Facing i j (Exchange.start i j s dest) ((s i).pinging dest) (s j) [] where
  first := Function.update_self ..
  second := Function.update_of_ne (Ne.symm hij) ..
  pending := List.drop_eq_nil_of_le le_rfl
  heard := rfl
  idle := hidle

end

section

variable {ι : Type} [DecidableEq ι] [Fintype ι] {addr : ι → Ip} {nics : ι → Nic} {events : List (ι × HostEvent)}
  {s : ι → Host} {nets : ι → Net} {gateway mask : ι → Ip} {i j : ι}

/-- A reply that is reported for the `n`-th ping of a host comes from a host that has heard one of its
requests with the same sequence number: the request of this ping, at the host it went to, unless at
least 65536 pings have been sent. -/
theorem segment_ping_sound (hnic : ∀ i, (nets i).nic = some (nics i)) (haddr : Function.Injective addr)
    (hrun : segment.run (bootSegment nets addr gateway mask) events = some s) {i : ι} {n : Nat} {dest : Ip}
    (h : (s i).reports[n]? = some (dest, .replyReceived)) :
    (pingsOf events i)[n]? = some dest ∧ ∃ j m, PingHeard addr events i j m ∧ m ≤ n ∧ m % 65536 = n % 65536 ∧
      (n < 65536 → m = n ∧ addr j = dest) := by
  obtain ⟨hdest, hreply⟩ := (segment_run hnic haddr hrun i).reports n _ h
  obtain ⟨j, m, hm, hnum, hheard⟩ := hreply rfl
  have hmod : m % 65536 = n % 65536 := by
    have := congrArg BitVec.toNat hnum
    simp only [pingNumber, BitVec.toNat_ofNat] at this
    omega
  refine ⟨hdest, j, m, hheard, hm, hmod, fun hn => ?_⟩
  obtain rfl : m = n := by omega
  exact ⟨rfl, Option.some_inj.1 (hheard.asked.symm.trans hdest)⟩

def firstText : CStr := ⟨[0x30, 0x2E, 0x30, 0x2E, 0x30, 0x2E, 0x31], by decide⟩

def secondText : CStr := ⟨[0x30, 0x2E, 0x30, 0x2E, 0x30, 0x2E, 0x32], by decide⟩

/-- The first host of a pair has to ask for the second's address, then its request is answered. -/
theorem segment_ping_sound_pair : ∃ events s, segment.run bootPair events = some s ∧
    (s 0).reports = [(2, .replyReceived)] ∧ (pingsOf events 0)[0]? = some 2 ∧
    ∃ j m, PingHeard pairAddr events 0 j m ∧ m ≤ 0 ∧ m % 65536 = 0 % 65536 ∧ (0 < 65536 → m = 0 ∧ pairAddr j = 2) := by
  have ha : Ready 1 2 (pairNic 0) (bootPair 0).net := ⟨rfl, rfl, fun _ _ hu => (by cases hu), by decide⟩
  have hb : Ready 2 1 (pairNic 1) (bootPair 1).net := ⟨rfl, rfl, fun _ _ hu => (by cases hu), by decide⟩
  have hdest : pingDest secondText = some (true, 2) := by decide
  have hturn := turn_ping (s := bootPair) (i := 0) rfl ha.nic hdest
  have hfacing : Facing (0 : Fin 2) 1 (Exchange.start 0 1 bootPair 2) _ _ _ := Exchange.start_facing (by decide) rfl 2
  obtain ⟨x', hx', -, hreports⟩ := hfacing.resolved (by decide) rfl ha hb (fun _ _ => Int.one_ne_zero) (by decide)
  obtain ⟨events, hrun⟩ := exchange_run hx'
  have hall : segment.run bootPair ((0, .ping secondText) :: events) = some x'.hosts := by
    rw [Party.run_cons hturn]
    exact hrun
  refine ⟨_, _, hall, hreports, ?_⟩
  exact segment_ping_sound (fun _ => rfl) pairAddr_injective hall (by rw [hreports]; rfl)

/-- From any state the hosts can reach, let two idle hosts of one subnet hear each other's frames at once
while one of them pings the other: the command ends, and it reports a reply exactly if the other's
address is not in the sender's cache or the sender's is in the other's. -/
theorem ping_exchange (hnic : ∀ i, (nets i).nic = some (nics i)) (haddr : Function.Injective addr)
    (hrun : segment.run (bootSegment nets addr gateway mask) events = some s) (hij : i ≠ j)
    (hidle : (s i).ping = none) (hidle' : (s j).ping = none) (hsend : ∀ sent frame, (nics i).send sent frame ≠ 0)
    (hhop : resolveNextHop (s i).net (addr j) = addr j) (hhop' : resolveNextHop (s j).net (addr i) = addr i)
    {argument : CStr} (hdest : pingDest argument = some (true, addr j)) :
    segment.turn s (i, .ping argument) = some (Exchange.start i j s (addr j)).hosts ∧
      ∃ rounds x', exchange i j rounds (Exchange.start i j s (addr j)) = some x' ∧ (x'.hosts i).ping = none ∧
        (x'.hosts i).reports = (s i).reports ++ [(addr j,
          if arpResolve (s i).net (addr j) = none ∨ arpResolve (s j).net (addr i) ≠ none then .replyReceived
          else .noReply)] := by
  have hok := fun k => (segment_run hnic haddr hrun k).net
  have ha : Ready (addr i) (addr j) (nics i) (s i).net := ⟨(hok i).localIp, (hok i).nic, (hok i).unique, hhop⟩
  have hb : Ready (addr j) (addr i) (nics j) (s j).net := ⟨(hok j).localIp, (hok j).nic, (hok j).unique, hhop'⟩
  obtain ⟨rounds, x', hx', hdone, hreports⟩ :=
    (Exchange.start_facing hij hidle' (addr j)).ends hij rfl ha hb hsend
  exact ⟨turn_ping hidle ha.nic hdest, rounds, x', hx', hdone, hreports⟩

/-- Once the first host has asked, the second knows it without being known to it: its ping is not
answered. -/
theorem ping_exchange_asked : ∃ rounds x', exchange 1 0 rounds (Exchange.start 1 0 pairAsked 1) = some x' ∧
    (x'.hosts 1).reports = [(1, .noReply)] := by
  have hdest : pingDest firstText = some (true, pairAddr 0) := by decide
  obtain ⟨-, rounds, x', hx', -, hreports⟩ := ping_exchange (i := 1) (j := 0) (fun _ => rfl) pairAddr_injective
    run_askedEvents (by decide) (by decide) (by decide) (fun _ _ => Int.one_ne_zero) (by decide) (by decide) hdest
  refine ⟨rounds, x', hx', hreports.trans ?_⟩
  decide

end

end SpectreOS
