/-
The table of bound UDP ports over a whole history of `udp_bind` and `udp_unbind`: it is the partial
function from each port to the callback of its latest successful binding, `udp_bind` fails only for
want of a callback or a slot, and a datagram is handed to the callback of its port and to no other.
-/
import SpectreOS.Lib.Slots
import SpectreOS.Net.Udp

namespace SpectreOS

open BlockIO

/-! ## The calls -/

def udpInit (net : Net) : Net := { net with bindings := fun i => { net.bindings i with inUse := false } }

/-- `udp_bind`; the callback may be null. -/
def udpBindCallback (net : Net) (port : Word16) : Option Nat → Bool × Net
  | none => (false, net)
  | some callback => udpBind net port callback

def udpUnbind (net : Net) (port : Word16) : Net :=
  { net with
    bindings := fun i =>
      if (net.bindings i).inUse && (net.bindings i).port == port then { net.bindings i with inUse := false }
      else net.bindings i }

inductive PortCall where
  | bind (port : Word16) (callback : Option Nat)
  | unbind (port : Word16)

/-- A call, and what it adds to the history: a port bound when it succeeds, or unbound. -/
def portStep (s : Net × List (TableEvent Word16 Nat)) : PortCall → Net × List (TableEvent Word16 Nat)
  | .bind port callback =>
    match callback, udpBindCallback s.1 port callback with
    | some c, (true, net) => (net, s.2 ++ [.put port c])
    | _, (_, net) => (net, s.2)
  | .unbind port => (udpUnbind s.1 port, s.2 ++ [.drop port])

def portRun (net : Net) (calls : List PortCall) : Net × List (TableEvent Word16 Nat) :=
  calls.foldl portStep (net, [])

/-! ## The table -/

def bindingSlots : Slots UdpBinding Word16 Nat where
  used b := b.inUse
  key b := b.port
  value b := b.callback

/-- The table is the partial function that the history leaves. -/
structure TableFollows (net : Net) (history : List (TableEvent Word16 Nat)) : Prop where
  unique : bindingSlots.Unique net.bindings
  latest : ∀ port c, bindingSlots.Binds net.bindings port c ↔ Latest history port c

theorem udpInit_follows (net : Net) : TableFollows (udpInit net) [] := by
  constructor
  · intro i j hi
    cases hi
  · intro port c
    refine iff_of_false ?_ not_latest_nil
    rintro ⟨i, hi, -⟩
    cases hi

section Step

variable {net : Net} {history : List (TableEvent Word16 Nat)}

/-- Setting a slot that was free or the port's to the port, which no other slot has. -/
theorem TableFollows.put (h : TableFollows net history) {after : Net} {i : Fin 4} {port : Word16} {c : Nat}
    (hafter : after.bindings = Function.update net.bindings i ⟨port, c, true⟩)
    (hothers : ∀ j, j ≠ i → (net.bindings j).inUse = true → (net.bindings j).port ≠ port)
    (hold : (net.bindings i).inUse = true → (net.bindings i).port = port) :
    TableFollows after (history ++ [.put port c]) := by
  constructor
  · rw [hafter]
    exact h.unique.update bindingSlots (s := ⟨port, c, true⟩) hothers
  · intro port' c'
    rw [hafter, bindingSlots.binds_update (t := net.bindings) (i := i) (s := ⟨port, c, true⟩) hothers rfl hold,
      latest_snoc, h.latest, TableEvent.put.injEq]
    by_cases hp : port' = port
    · subst hp
      simp [bindingSlots, TableEvent.key, eq_comm]
    · simp [bindingSlots, TableEvent.key, hp, Ne.symm hp]

/-- Where `udp_bind` succeeds, for a port that was bound or with a slot that was free, the port has the
callback and the others are as before; where it fails, the port was unbound and no slot free. -/
theorem TableFollows.bind (h : TableFollows net history) (port : Word16) (c : Nat) :
    (∃ after, udpBind net port c = (true, after) ∧ TableFollows after (history ++ [.put port c]) ∧
      ((∃ c', Latest history port c') ∨ bindingSlots.free net.bindings ≠ none)) ∨
      udpBind net port c = (false, net) ∧ (∀ c', ¬ Latest history port c') ∧ bindingSlots.free net.bindings = none := by
  unfold udpBind
  cases hf : udpFind net port with
  | some i =>
    obtain ⟨hi, hport⟩ := bindingSlots.used_of_find hf
    have hentry : { net.bindings i with callback := c } = (⟨port, c, true⟩ : UdpBinding) := by
      rw [← show (net.bindings i).port = port from hport, ← show (net.bindings i).inUse = true from hi]
    refine .inl ⟨_, rfl, h.put (congrArg (Function.update net.bindings i) hentry)
      (fun j hj hin hp => hj ?_) fun _ => hport, .inl ⟨_, (h.latest port _).1 ⟨i, hi, hport, rfl⟩⟩⟩
    exact h.unique j i hin hi (hp.trans hport.symm)
  | none =>
    have hnone := bindingSlots.find_eq_none.1 hf
    cases hfree : bindingSlots.free net.bindings with
    | some i =>
      have hunused := bindingSlots.not_used_of_free hfree
      refine .inl ⟨_, by rw [show (List.finRange 4).find? (fun i => !(net.bindings i).inUse) = some i from hfree],
        h.put rfl (fun j _ hin => hnone j hin) fun hin => ?_, .inr nofun⟩
      exact absurd hin (by rw [show (net.bindings i).inUse = false from hunused]; decide)
    | none =>
      refine .inr ⟨by rw [show (List.finRange 4).find? (fun i => !(net.bindings i).inUse) = none from hfree],
        fun c' hc => ?_, rfl⟩
      exact bindingSlots.not_binds_of_find hf ((h.latest port c').2 hc)

theorem TableFollows.unbind (h : TableFollows net history) (port : Word16) :
    TableFollows (udpUnbind net port) (history ++ [.drop port]) := by
  have hclear : ∀ i, (bindingSlots.used ((udpUnbind net port).bindings i) = true ↔
      bindingSlots.used (net.bindings i) = true ∧ bindingSlots.key (net.bindings i) ≠ port) ∧
      bindingSlots.key ((udpUnbind net port).bindings i) = bindingSlots.key (net.bindings i) ∧
      bindingSlots.value ((udpUnbind net port).bindings i) = bindingSlots.value (net.bindings i) := by
    intro i
    simp only [udpUnbind, bindingSlots]
    split <;> simp_all
  constructor
  · exact h.unique.clear bindingSlots hclear
  · intro port' c
    rw [bindingSlots.binds_clear hclear, latest_snoc, h.latest]
    simp [TableEvent.key, ne_comm]

theorem TableFollows.step (h : TableFollows net history) (call : PortCall) :
    TableFollows (portStep (net, history) call).1 (portStep (net, history) call).2 := by
  cases call with
  | bind port callback =>
    cases callback with
    | none => exact h
    | some c =>
      rcases h.bind port c with ⟨after, hbind, hafter, -⟩ | ⟨hbind, -⟩
      · simp only [portStep, udpBindCallback, hbind]
        exact hafter
      · simp only [portStep, udpBindCallback, hbind]
        exact h
  | unbind port => exact h.unbind port

theorem TableFollows.run (h : TableFollows net history) (calls : List PortCall) :
    TableFollows (calls.foldl portStep (net, history)).1 (calls.foldl portStep (net, history)).2 := by
  induction calls generalizing net history with
  | nil => exact h
  | cons call calls ih => exact ih (h.step call)

/-- `udp_bind` fails exactly without a callback, or for an unbound port when four others are bound. -/
theorem TableFollows.bind_fails (h : TableFollows net history) (port : Word16) (callback : Option Nat) :
    (udpBindCallback net port callback).1 = false ↔ callback = none ∨
      (∀ c, ¬ Latest history port c) ∧
        ∃ others : Finset Word16, others.card = 4 ∧ port ∉ others ∧ ∀ other ∈ others, ∃ c, Latest history other c := by
  have hfull : bindingSlots.free net.bindings = none ↔
      ∃ ports : Finset Word16, ports.card = 4 ∧ ∀ other ∈ ports, ∃ c, Latest history other c := by
    rw [bindingSlots.full_iff h.unique]
    simp only [h.latest]
  cases callback with
  | none => exact iff_of_true rfl (.inl rfl)
  | some c =>
    rw [or_iff_right (by simp)]
    rcases h.bind port c with ⟨after, hbind, -, hroom⟩ | ⟨hbind, hunbound, hfree⟩
    · refine iff_of_false (by rw [udpBindCallback, hbind]; simp) ?_
      rintro ⟨hunbound, others, hcard, -, hall⟩
      rcases hroom with ⟨c', hc'⟩ | hfree
      · exact hunbound c' hc'
      · exact hfree (hfull.2 ⟨others, hcard, hall⟩)
    · obtain ⟨ports, hcard, hall⟩ := hfull.1 hfree
      refine iff_of_true (by rw [udpBindCallback, hbind]) ⟨hunbound, ports, hcard, fun hp => ?_, hall⟩
      obtain ⟨c', hc'⟩ := hall port hp
      exact hunbound c' hc'

end Step

/-! ## Delivery -/

/-- `udp_handle_packet` accepts the datagram, from and to these ports and with this data. -/
def Accepted (net : Net) (sourceIp : Ip) (payload : List Byte) (length : Nat) (sourcePort destPort : Word16)
    (data : List Byte) : Prop :=
  ∃ udpLength checksum, udpHeaderLen ≤ length ∧ netRead16 payload 0 = some sourcePort ∧
    netRead16 payload 2 = some destPort ∧ netRead16 payload 4 = some udpLength ∧ netRead16 payload 6 = some checksum ∧
    udpHeaderLen ≤ udpLength.toNat ∧ udpLength.toNat ≤ length ∧ udpLength.toNat ≤ udpHeaderLen + udpMaxPayload ∧
    udpVerified net sourceIp payload udpLength.toNat checksum = some true ∧
    readBytes (payload.drop udpHeaderLen) (udpLength.toNat - udpHeaderLen) = some data

theorem netRead16_inside (payload : List Byte) (off : Nat) (h : off + 1 < payload.length) :
    ∃ v, netRead16 payload off = some v := by
  unfold netRead16
  rw [List.getElem?_eq_getElem (by omega), List.getElem?_eq_getElem h]
  exact ⟨_, rfl⟩

theorem readBytes_inside (payload : List Byte) (length : Nat) (h : length ≤ payload.length) :
    readBytes payload length = some (payload.take length) := if_pos h

theorem udpVerified_inside (net : Net) (sourceIp : Ip) {payload : List Byte} {udpLength : Nat} (checksum : Word16)
    (h : udpLength ≤ payload.length) : ∃ ok, udpVerified net sourceIp payload udpLength checksum = some ok := by
  unfold udpVerified
  split
  · exact ⟨true, rfl⟩
  · rw [readBytes_inside payload _ (by omega)]
    exact ⟨_, rfl⟩

/-- An accepted datagram goes to the callback found for its port, if there is one; nothing else happens. -/
theorem udpHandlePacket_cases (net : Net) (sourceIp : Ip) {payload : List Byte} {length : Nat}
    (hlen : length ≤ payload.length) :
    (∃ sourcePort destPort data, Accepted net sourceIp payload length sourcePort destPort data ∧
      udpHandlePacket net sourceIp payload length = some
        { net with
          delivered := net.delivered ++
            (((udpFind net destPort).map fun i => ⟨(net.bindings i).callback, sourceIp, sourcePort, data⟩).toList) }) ∨
    (∀ sourcePort destPort data, ¬ Accepted net sourceIp payload length sourcePort destPort data) ∧
      udpHandlePacket net sourceIp payload length = some net := by
  unfold udpHandlePacket
  by_cases hheader : length < udpHeaderLen
  · exact .inr ⟨fun _ _ _ ⟨_, _, h, _⟩ => absurd hheader (not_lt.2 h), by rw [if_pos hheader]⟩
  have hlong : 8 ≤ payload.length := by
    simp only [udpHeaderLen] at hheader
    omega
  obtain ⟨sourcePort, h0⟩ := netRead16_inside payload 0 (by omega)
  obtain ⟨destPort, h2⟩ := netRead16_inside payload 2 (by omega)
  obtain ⟨udpLength, h4⟩ := netRead16_inside payload 4 (by omega)
  obtain ⟨checksum, h6⟩ := netRead16_inside payload 6 (by omega)
  have hfields : ∀ {sp dp : Word16} {data : List Byte}, Accepted net sourceIp payload length sp dp data →
      udpHeaderLen ≤ udpLength.toNat ∧ udpLength.toNat ≤ length ∧ udpLength.toNat ≤ udpHeaderLen + udpMaxPayload ∧
        udpVerified net sourceIp payload udpLength.toNat checksum = some true := by
    rintro sp dp data ⟨l, k, -, -, -, hl, hk, hlo, hhi, hmax, hok, -⟩
    obtain rfl : udpLength = l := Option.some_inj.1 (h4.symm.trans hl)
    obtain rfl : checksum = k := Option.some_inj.1 (h6.symm.trans hk)
    exact ⟨hlo, hhi, hmax, hok⟩
  rw [if_neg hheader]
  simp only [h0, h2, h4, h6, Option.bind_eq_bind, Option.bind_some]
  by_cases hbounds : udpLength.toNat > length ∨ udpLength.toNat < udpHeaderLen
  · exact .inr ⟨fun sp dp data h => by have := hfields h; omega, by rw [if_pos hbounds]; rfl⟩
  rw [if_neg hbounds]
  by_cases hmax : udpLength.toNat > udpHeaderLen + udpMaxPayload
  · exact .inr ⟨fun sp dp data h => by have := hfields h; omega, by rw [if_pos hmax]; rfl⟩
  rw [if_neg hmax]
  obtain ⟨ok, hok⟩ := udpVerified_inside net sourceIp checksum (by omega : udpLength.toNat ≤ payload.length)
  simp only [hok, Option.bind_some]
  cases ok with
  | false =>
    refine .inr ⟨fun sp dp data h => ?_, rfl⟩
    rw [hok] at hfields
    cases (hfields h).2.2.2
  | true =>
    have hdata := readBytes_inside (payload.drop udpHeaderLen) (udpLength.toNat - udpHeaderLen)
      (by rw [List.length_drop]; omega)
    refine .inl ⟨sourcePort, destPort, _, ⟨udpLength, checksum, by omega, h0, h2, h4, h6, by omega, by omega, by omega,
      hok, hdata⟩, ?_⟩
    cases hf : udpFind net destPort with
    | none => simp
    | some i => simp [hdata]

theorem Accepted.unique {net : Net} {sourceIp : Ip} {payload : List Byte} {length : Nat} {sp dp sp' dp' : Word16}
    {data data' : List Byte} (h : Accepted net sourceIp payload length sp dp data)
    (h' : Accepted net sourceIp payload length sp' dp' data') : sp' = sp ∧ dp' = dp ∧ data' = data := by
  obtain ⟨l, k, -, h0, h2, h4, -, -, -, -, -, hdata⟩ := h
  obtain ⟨l', k', -, h0', h2', h4', -, -, -, -, -, hdata'⟩ := h'
  obtain rfl : l = l' := Option.some_inj.1 (h4.symm.trans h4')
  exact ⟨Option.some_inj.1 (h0'.symm.trans h0), Option.some_inj.1 (h2'.symm.trans h2),
    Option.some_inj.1 (hdata'.symm.trans hdata)⟩

/-- What a datagram does, by the history of its port. -/
theorem TableFollows.deliver {net : Net} {history : List (TableEvent Word16 Nat)}
    (h : TableFollows net history) (sourceIp : Ip) {payload : List Byte} {length : Nat}
    (hlen : length ≤ payload.length) :
    ∃ calls : List Delivery, calls.length ≤ 1 ∧
      udpHandlePacket net sourceIp payload length = some { net with delivered := net.delivered ++ calls } ∧
      ∀ d, d ∈ calls ↔ d.sourceIp = sourceIp ∧ ∃ destPort,
        Accepted net sourceIp payload length d.sourcePort destPort d.data ∧ Latest history destPort d.callback := by
  rcases udpHandlePacket_cases net sourceIp hlen with ⟨sourcePort, destPort, data, hacc, hrun⟩ | ⟨hno, hrun⟩
  · refine ⟨_, ?_, hrun, fun d => ?_⟩
    · cases udpFind net destPort <;> simp
    · cases hf : udpFind net destPort with
      | none =>
        refine iff_of_false (by simp) ?_
        rintro ⟨-, destPort', hacc', hlatest⟩
        obtain ⟨-, rfl, -⟩ := hacc.unique hacc'
        exact bindingSlots.not_binds_of_find hf ((h.latest _ _).2 hlatest)
      | some i =>
        have hbinds : ∀ c, Latest history destPort c ↔ (net.bindings i).callback = c := fun c =>
          (h.latest destPort c).symm.trans (bindingSlots.binds_of_find h.unique hf)
        rw [Option.map_some, Option.toList_some, List.mem_singleton]
        constructor
        · rintro rfl
          exact ⟨rfl, destPort, hacc, (hbinds _).2 rfl⟩
        · rintro ⟨hip, destPort', hacc', hlatest⟩
          obtain ⟨hport, rfl, hdata⟩ := hacc.unique hacc'
          obtain ⟨callback, ip, port, bytes⟩ := d
          simp only at hip hport hdata hlatest
          rw [hip, hport, hdata, ← (hbinds callback).1 hlatest]
  · refine ⟨[], by simp, by rw [hrun, List.append_nil], fun d => iff_of_false (by simp) ?_⟩
    rintro ⟨-, destPort, hacc, -⟩
    exact hno _ _ _ hacc

/-- After any calls from `udp_init`: no two bindings in use share a port, `udp_bind` fails exactly without
a callback or for an unbound port when four others are bound, and a datagram is delivered at most once,
to the callback of the latest successful binding of its port if that has not been unbound since. -/
theorem udp_ports (net : Net) (calls : List PortCall) :
    bindingSlots.Unique (portRun (udpInit net) calls).1.bindings ∧
    (∀ port callback, (udpBindCallback (portRun (udpInit net) calls).1 port callback).1 = false ↔ callback = none ∨
      (∀ c, ¬ Latest (portRun (udpInit net) calls).2 port c) ∧
        ∃ others : Finset Word16, others.card = 4 ∧ port ∉ others ∧
          ∀ other ∈ others, ∃ c, Latest (portRun (udpInit net) calls).2 other c) ∧
    ∀ now : Net, now.bindings = (portRun (udpInit net) calls).1.bindings →
      ∀ sourceIp payload length, length ≤ payload.length →
        ∃ deliveries : List Delivery, deliveries.length ≤ 1 ∧
          udpHandlePacket now sourceIp payload length = some { now with delivered := now.delivered ++ deliveries } ∧
          ∀ d, d ∈ deliveries ↔ d.sourceIp = sourceIp ∧ ∃ destPort,
            Accepted now sourceIp payload length d.sourcePort destPort d.data ∧
              Latest (portRun (udpInit net) calls).2 destPort d.callback := by
  have h := (udpInit_follows net).run calls
  refine ⟨h.unique, h.bind_fails, fun now hnow sourceIp payload length hlen => ?_⟩
  have hat : TableFollows now (portRun (udpInit net) calls).2 :=
    ⟨hnow ▸ h.unique, fun port c => by rw [hnow]; exact h.latest port c⟩
  exact hat.deliver sourceIp hlen

/-- Bound, unbound and bound again, a port has the later callback. -/
theorem udp_ports_rebound :
    let calls : List PortCall := [.bind 53 (some 1), .unbind 53, .bind 53 (some 2)]
    let net := (portRun (udpInit (peerHost 1 2)) calls).1
    ∃ deliveries : List Delivery, ⟨2, 7, 1, [65]⟩ ∈ deliveries ∧
      udpHandlePacket net 7 [0, 1, 0, 53, 0, 9, 0, 0, 65] 9 =
        some { net with delivered := net.delivered ++ deliveries } := by
  intro calls net
  obtain ⟨deliveries, -, hrun, hmem⟩ :=
    (udp_ports (peerHost 1 2) calls).2.2 net rfl 7 [0, 1, 0, 53, 0, 9, 0, 0, 65] 9 (by decide)
  refine ⟨deliveries, (hmem _).2 ⟨rfl, 53, ⟨9, 0, ?_⟩, ?_⟩, hrun⟩
  · refine ⟨by decide, by decide, by decide, by decide, by decide, by decide, by decide, by decide, rfl, by decide⟩
  · exact ⟨[.put 53 1, .drop 53], [], rfl, by simp⟩

/-- Without a callback `udp_bind` fails though no port is bound. -/
theorem udpBind_null : ¬ ∀ (net : Net) (calls : List PortCall) (port : Word16) (callback : Option Nat),
    (udpBindCallback (portRun (udpInit net) calls).1 port callback).1 = false →
      (∀ c, ¬ Latest (portRun (udpInit net) calls).2 port c) ∧
        ∃ others : Finset Word16, others.card = 4 ∧ port ∉ others ∧
          ∀ other ∈ others, ∃ c, Latest (portRun (udpInit net) calls).2 other c := by
  intro h
  obtain ⟨-, others, hcard, -, hall⟩ := h (peerHost 1 2) [] 53 none rfl
  obtain ⟨other, hother⟩ := Finset.card_pos.1 (hcard ▸ (by decide : 0 < 4))
  obtain ⟨c, hc⟩ := hall other hother
  exact not_latest_nil hc

end SpectreOS
