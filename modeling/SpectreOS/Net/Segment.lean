/-
What the hosts of a segment come to believe, in every interleaving of their events and whatever frames
are lost, delayed, reordered or repeated: an ARP cache only holds addresses as their owners have them,
a reported ping was heard by the host it went to, and a delivered datagram was sent as it is delivered.
Each frame is justified by the events before it (`Honest`), and each host keeps `HostOk` because it
hears justified frames only.
-/
import SpectreOS.Net.Lan

namespace SpectreOS

open BlockIO Wire

/-! ## The history -/

/-- The destination of the ping that an event starts. -/
def HostEvent.pings : HostEvent → Option Ip
  | .ping argument => (pingDest argument).bind fun d => if d.1 then some d.2 else none
  | _ => none

/-- The sequence number of the `n`-th ping of a host, from 0. -/
def pingNumber (n : Nat) : Word16 := BitVec.ofNat 16 (n + 1)

section

variable {ι : Type} [DecidableEq ι]

/-- The destinations of the pings of a host, in order. -/
def pingsOf (past : List (ι × HostEvent)) (i : ι) : List Ip :=
  past.filterMap fun a => if a.1 = i then a.2.pings else none

variable (addr : ι → Ip) (nics : ι → Nic)

/-- The `n`-th ping of `i` went to `j`, and `j` has heard its request. -/
structure PingHeard (past : List (ι × HostEvent)) (i j : ι) (n : Nat) : Prop where
  asked : (pingsOf past i)[n]? = some (addr j)
  heard : ∃ e dest src identification, (j, e) ∈ past ∧
    ipFrame dest src identification (addr i) (addr j) ipProtoIcmp (echoMessage 8 0xBEEF (pingNumber n)) ∈ e.hears

/-- What `j` has reason to send to an address. -/
inductive Conveys (past : List (ι × HostEvent)) (j : ι) : Ip → Byte → List Byte → Prop
  | request {n : Nat} {dest : Ip} (h : (pingsOf past j)[n]? = some dest) :
      Conveys past j dest ipProtoIcmp (echoMessage 8 0xBEEF (pingNumber n))
  | reply {i : ι} {n : Nat} (h : PingHeard addr past i j n) :
      Conveys past j (addr i) ipProtoIcmp (echoMessage 0 0xBEEF (pingNumber n))
  | datagram {dest : Ip} {destPort srcPort : Word16} {data : List Byte}
      (h : (j, .udpSend dest destPort srcPort data) ∈ past) (hlen : data.length ≤ udpMaxPayload) :
      Conveys past j dest ipProtoUdp (udpPacket (addr j) dest destPort srcPort data)

/-- A frame that some host built from its own addresses and for a reason. -/
inductive Honest (past : List (ι × HostEvent)) : List Byte → Prop
  | arp (j : ι) (dest : Mac) (opcode : Word16) (targetMac : Mac) (targetIp : Ip) :
      Honest past (arpFrame dest (nics j).mac (arpPacket opcode (nics j).mac (addr j) targetMac targetIp))
  | ip {j : ι} {destIp : Ip} {protocol : Byte} {payload : List Byte} (dest : Mac) (identification : Word16)
      (h : Conveys addr past j destIp protocol payload) (hlen : payload.length ≤ ipMaxPacket) :
      Honest past (ipFrame dest (nics j).mac identification (addr j) destIp protocol payload)

/-- What the stack of host `i` holds is so. -/
structure NetOk (past : List (ι × HostEvent)) (i : ι) (net : Net) : Prop where
  localIp : net.localIp = addr i
  nic : net.nic = some (nics i)
  unique : UniqueIps net.cache
  learnt : ∀ k, (net.cache k).inUse = true → ∃ j, (net.cache k).ip = addr j ∧ (net.cache k).mac = (nics j).mac
  bound : ∀ k, (net.bindings k).inUse = true →
    (i, .udpBind (net.bindings k).port (net.bindings k).callback) ∈ past
  delivered : ∀ d ∈ net.delivered, ∃ j destPort, addr j = d.sourceIp ∧
    (j, .udpSend (addr i) destPort d.sourcePort d.data) ∈ past ∧ (i, .udpBind destPort d.callback) ∈ past
  replied : net.pingState.replyReceived = true → ∃ j n, PingHeard addr past i j n ∧
    net.pingState.identifier = 0xBEEF ∧ net.pingState.sequence = pingNumber n

/-- A report is of the ping of its place, and a reply is to one with the same sequence number. -/
def ReportOk (past : List (ι × HostEvent)) (i : ι) (n : Nat) (report : Ip × PingOutcome) : Prop :=
  (pingsOf past i)[n]? = some report.1 ∧
    (report.2 = .replyReceived → ∃ j m, m ≤ n ∧ pingNumber m = pingNumber n ∧ PingHeard addr past i j m)

/-- The ping command a host is in the middle of is its last. -/
def LoopOk (past : List (ι × HostEvent)) (i : ι) (reported : Nat) : Option PingLoop → Prop
  | none => reported = (pingsOf past i).length
  | some p => reported + 1 = (pingsOf past i).length ∧ (pingsOf past i)[reported]? = some p.destIp ∧
      p.sequence = pingNumber reported

structure HostOk (past : List (ι × HostEvent)) (i : ι) (h : Host) : Prop where
  net : NetOk addr nics past i h.net
  count : h.pingSequence = BitVec.ofNat 16 (pingsOf past i).length
  loop : LoopOk past i h.reports.length h.ping
  reports : ∀ n report, h.reports[n]? = some report → ReportOk addr past i n report

variable {addr nics} {past past' : List (ι × HostEvent)} {i j : ι} {n : Nat}

/-! ## As more happens -/

theorem pingsOf_snoc (a : ι × HostEvent) :
    pingsOf (past ++ [a]) i = pingsOf past i ++ (if a.1 = i then a.2.pings else none).toList := by
  rw [pingsOf, List.filterMap_append]
  cases h : (if a.1 = i then a.2.pings else none) <;> simp [pingsOf, h]

theorem pingsOf_other {a : ι × HostEvent} (h : a.1 ≠ i ∨ a.2.pings = none) :
    pingsOf (past ++ [a]) i = pingsOf past i := by
  have hnone : (if a.1 = i then a.2.pings else none) = none := by
    rcases h with h | h
    · rw [if_neg h]
    · rw [h, ite_self]
  rw [pingsOf_snoc, hnone, Option.toList_none, List.append_nil]

theorem pingsOf_mono (h : past <+: past') {dest : Ip} (hn : (pingsOf past i)[n]? = some dest) :
    (pingsOf past' i)[n]? = some dest := by
  obtain ⟨rest, hrest⟩ : pingsOf past i <+: pingsOf past' i := h.filterMap _
  rw [← hrest, List.getElem?_append_left (List.getElem?_eq_some_iff.1 hn).1]
  exact hn

theorem PingHeard.mono (h : past <+: past') (hp : PingHeard addr past i j n) : PingHeard addr past' i j n := by
  obtain ⟨e, dest, src, identification, he, hf⟩ := hp.heard
  exact ⟨pingsOf_mono h hp.asked, e, dest, src, identification, h.subset he, hf⟩

theorem Conveys.mono (h : past <+: past') {dest : Ip} {protocol : Byte} {payload : List Byte}
    (hc : Conveys addr past j dest protocol payload) : Conveys addr past' j dest protocol payload := by
  cases hc with
  | request hn => exact .request (pingsOf_mono h hn)
  | reply hp => exact .reply (hp.mono h)
  | datagram hs hlen => exact .datagram (h.subset hs) hlen

theorem Honest.mono (h : past <+: past') {frame : List Byte} (hf : Honest addr nics past frame) :
    Honest addr nics past' frame := by
  cases hf with
  | arp j dest opcode targetMac targetIp => exact .arp j dest opcode targetMac targetIp
  | ip dest identification hc hlen => exact .ip dest identification (hc.mono h) hlen

theorem NetOk.mono (h : past <+: past') {net : Net} (hn : NetOk addr nics past i net) :
    NetOk addr nics past' i net := by
  refine { hn with bound := fun k hk => h.subset (hn.bound k hk), delivered := fun d hd => ?_, replied := fun hr => ?_ }
  · obtain ⟨j, destPort, hj, hsent, hbound⟩ := hn.delivered d hd
    exact ⟨j, destPort, hj, h.subset hsent, h.subset hbound⟩
  · obtain ⟨j, n, hp, hid, hseq⟩ := hn.replied hr
    exact ⟨j, n, hp.mono h, hid, hseq⟩

theorem ReportOk.mono (h : past <+: past') {report : Ip × PingOutcome} (hr : ReportOk addr past i n report) :
    ReportOk addr past' i n report := by
  refine ⟨pingsOf_mono h hr.1, fun ho => ?_⟩
  obtain ⟨j, m, hm, hnum, hp⟩ := hr.2 ho
  exact ⟨j, m, hm, hnum, hp.mono h⟩

theorem HostOk.congr {h : Host} (hh : HostOk addr nics past i h) (hpast : past <+: past')
    (hpings : pingsOf past' i = pingsOf past i) : HostOk addr nics past' i h where
  net := hh.net.mono hpast
  count := by rw [hpings]; exact hh.count
  loop := by
    have hl := hh.loop
    unfold LoopOk at hl ⊢
    rw [hpings]
    exact hl
  reports := fun n report hr => (hh.reports n report hr).mono hpast

/-! ## Sending -/

/-- The host stays as it should be, and what it has sent it had reason to. -/
structure Keeps (addr : ι → Ip) (nics : ι → Nic) (past : List (ι × HostEvent)) (i : ι) (net net' : Net) : Prop where
  ok : NetOk addr nics past i net'
  sent : ∀ frame ∈ net'.sent, frame ∈ net.sent ∨ Honest addr nics past frame

theorem Keeps.trans {a b c : Net} (h : Keeps addr nics past i a b) (h' : Keeps addr nics past i b c) :
    Keeps addr nics past i a c where
  ok := h'.ok
  sent := fun frame hf => (h'.sent frame hf).elim (h.sent frame) .inr

section

variable {net : Net}

theorem NetOk.keeps (h : NetOk addr nics past i net) : Keeps addr nics past i net net := ⟨h, fun _ hf => .inl hf⟩

/-- Another identification and more frames sent change nothing else. -/
theorem NetOk.push (h : NetOk addr nics past i net) (identification : Word16) {frame : List Byte}
    (hf : Honest addr nics past frame) :
    Keeps addr nics past i net { net with nextIdentification := identification, sent := net.sent ++ [frame] } where
  ok := ⟨h.localIp, h.nic, h.unique, h.learnt, h.bound, h.delivered, h.replied⟩
  sent := fun f hm => by
    rcases List.mem_append.1 hm with hm | hm
    · exact .inl hm
    · rw [List.mem_singleton.1 hm]
      exact .inr hf

theorem NetOk.honest_arp (h : NetOk addr nics past i net) (dest : Mac) (opcode : Word16)
    (targetMac : Mac) (targetIp : Ip) :
    Honest addr nics past (arpFrame dest (nics i).mac
      (arpPacket opcode (nics i).mac net.localIp targetMac targetIp)) := by
  rw [h.localIp]
  exact .arp i _ _ _ _

theorem NetOk.arpRequest (h : NetOk addr nics past i net) (ip : Ip) :
    Keeps addr nics past i net (arpRequest net ip) := by
  rw [arpRequest_sent h.nic]
  exact h.push net.nextIdentification (h.honest_arp _ _ _ _)

theorem NetOk.ipSend (h : NetOk addr nics past i net) {dest : Ip} {protocol : Byte} {payload : List Byte}
    (hc : Conveys addr past i dest protocol payload) (hlen : payload.length ≤ ipMaxPacket) :
    Keeps addr nics past i net (ipSend net dest protocol payload).2 := by
  rcases ipSend_sent h.nic dest protocol hlen with ⟨destMac, -, hsent⟩ | ⟨-, hsent⟩
  · have hf : Honest addr nics past
        (ipFrame destMac (nics i).mac net.nextIdentification net.localIp dest protocol payload) := by
      rw [h.localIp]
      exact .ip destMac _ hc hlen
    rw [hsent]
    exact h.push _ hf
  · rw [hsent]
    exact h.arpRequest _

theorem NetOk.udpSend (h : NetOk addr nics past i net) {dest : Ip} {destPort srcPort : Word16} {data : List Byte}
    (hs : (i, .udpSend dest destPort srcPort data) ∈ past) :
    Keeps addr nics past i net (udpSend net dest destPort srcPort data).2 := by
  by_cases hlen : data.length ≤ udpMaxPayload
  · have hcar : Conveys addr past i dest ipProtoUdp (udpPacket net.localIp dest destPort srcPort data) := by
      rw [h.localIp]
      exact .datagram hs hlen
    have hmax : (udpPacket net.localIp dest destPort srcPort data).length ≤ ipMaxPacket := by
      rw [length_udpPacket]
      simp only [udpHeaderLen, udpMaxPayload, ipMaxPacket] at *
      omega
    rw [udpSend_packet _ _ _ _ hlen]
    exact h.ipSend hcar hmax
  · rw [SpectreOS.udpSend, if_pos (not_le.1 hlen)]
    exact h.keeps

/-! ## Learning and hearing -/

theorem NetOk.learn (h : NetOk addr nics past i net) (j : ι) :
    NetOk addr nics past i (cacheLearn net (addr j) (nics j).mac) := by
  obtain ⟨slot, hcache, hslot⟩ := cacheLearn_cache h.unique (addr j) (nics j).mac
  have hrest : (cacheLearn net (addr j) (nics j).mac) =
    { net with cache := (cacheLearn net (addr j) (nics j).mac).cache } := by
    unfold cacheLearn
    split <;> rfl
  have hlearnt : ∀ k, ((cacheLearn net (addr j) (nics j).mac).cache k).inUse = true →
      ∃ j', ((cacheLearn net (addr j) (nics j).mac).cache k).ip = addr j' ∧
        ((cacheLearn net (addr j) (nics j).mac).cache k).mac = (nics j').mac := by
    intro k hk
    rw [hcache] at hk ⊢
    by_cases hks : k = slot
    · subst hks
      exact ⟨j, by rw [Function.update_self], by rw [Function.update_self]⟩
    · rw [Function.update_of_ne hks] at hk ⊢
      exact h.learnt k hk
  rw [hrest]
  exact { h with unique := (cacheLearn_resolve h.unique rfl).1, learnt := hlearnt }

theorem NetOk.arpReceived (h : NetOk addr nics past i net) (j : ι) (opcode : Word16) (targetIp : Ip) :
    Keeps addr nics past i net (arpReceived net opcode (nics j).mac (addr j) targetIp) := by
  have hl := h.learn j
  have hsent : (cacheLearn net (addr j) (nics j).mac).sent = net.sent := by
    unfold cacheLearn
    split <;> rfl
  have hkeep : Keeps addr nics past i net (cacheLearn net (addr j) (nics j).mac) := ⟨hl, fun f hf => .inl (hsent ▸ hf)⟩
  unfold SpectreOS.arpReceived
  simp only
  split
  · have hmac : netGetLocalMac (cacheLearn net (addr j) (nics j).mac) = (nics i).mac := by rw [netGetLocalMac, hl.nic]
    refine hkeep.trans ?_
    rw [ethSend_sent hl.nic _ _ (by rw [length_arpPacket]; decide), hmac]
    exact hl.push _ (hl.honest_arp _ _ _ _)
  · exact hkeep

/-- A host that hears an honest frame handles it and stays as it should be. -/
theorem NetOk.hear (h : NetOk addr nics past i net) (haddr : Function.Injective addr)
    {e : HostEvent} (he : (i, e) ∈ past) {frame : List Byte} (hf : frame ∈ e.hears)
    (hhon : Honest addr nics past frame) :
    ∃ net', ethHandleFrame net frame = some net' ∧ Keeps addr nics past i net net' := by
  cases hhon with
  | arp j dest opcode targetMac targetIp =>
    exact ⟨_, ethHandleFrame_arp net dest (nics j).mac opcode (nics j).mac targetMac (addr j) targetIp,
      h.arpReceived j opcode targetIp⟩
  | @ip j destIp protocol payload dest identification hc hlen =>
    by_cases hdest : destIp = net.localIp
    · obtain ⟨own, hown⟩ : ∃ own, own = addr i := ⟨_, rfl⟩
      have hlocal : net.localIp = own := h.localIp.trans hown.symm
      rw [hdest, hlocal] at hc hf ⊢
      cases hc with
      | @request n _ hn =>
        have hheard : PingHeard addr past j i n := ⟨hown ▸ hn, e, dest, (nics j).mac, identification, he, hown ▸ hf⟩
        refine ⟨_, ?_, h.ipSend (.reply hheard) hlen⟩
        rw [← hlocal]
        exact ethHandleFrame_request 0xBEEF (pingNumber n)
      | @reply i' n hp =>
        obtain rfl : i' = i := haddr hown
        have hrun := @ethHandleFrame_reply net dest (nics j).mac identification (addr j) 0xBEEF (pingNumber n)
        refine ⟨_, by rw [← hlocal]; exact hrun, ?_⟩
        split
        · rename_i hmatch
          exact ⟨{ h with replied := fun _ => ⟨j, n, hp, hmatch.2.1, hmatch.2.2⟩ }, fun f hf => .inl hf⟩
        · exact h.keeps
      | @datagram _ destPort srcPort data hs hdata =>
        have hrun := @ethHandleFrame_datagram net dest (nics j).mac identification (addr j) destPort srcPort data hdata
        have hok : NetOk addr nics past i { net with
            delivered := net.delivered ++
              ((udpFind net destPort).map fun k => ⟨(net.bindings k).callback, addr j, srcPort, data⟩).toList } := by
          refine { h with delivered := fun d hd => ?_ }
          rcases List.mem_append.1 hd with hd | hd
          · exact h.delivered d hd
          · obtain ⟨k, hfind, rfl⟩ := Option.map_eq_some_iff.1 (Option.mem_toList.1 hd)
            obtain ⟨hin, hport⟩ := bindingSlots.used_of_find hfind
            have hbound := h.bound k hin
            rw [show (net.bindings k).port = destPort from hport] at hbound
            exact ⟨j, destPort, rfl, hown ▸ hs, hbound⟩
        exact ⟨_, by rw [← hlocal]; exact hrun, hok, fun f hf => .inl hf⟩
    · exact ⟨net, ethHandleFrame_other hlen hdest, h.keeps⟩

theorem NetOk.hearAll (h : NetOk addr nics past i net) (haddr : Function.Injective addr)
    {e : HostEvent} (he : (i, e) ∈ past) (frames : List (List Byte))
    (hf : ∀ frame ∈ frames, frame ∈ e.hears ∧ Honest addr nics past frame) :
    ∃ net', frames.foldlM ethHandleFrame net = some net' ∧ Keeps addr nics past i net net' := by
  induction frames generalizing net with
  | nil => exact ⟨net, rfl, h.keeps⟩
  | cons frame frames ih =>
    rw [List.forall_mem_cons] at hf
    obtain ⟨mid, hmid, hkeep⟩ := h.hear haddr he hf.1.1 hf.1.2
    obtain ⟨net', hrun, hkeep'⟩ := ih hkeep.ok hf.2
    refine ⟨net', ?_, hkeep.trans hkeep'⟩
    rw [List.foldlM_cons, hmid]
    exact hrun

/-- `net_poll` on frames that the event hears. -/
theorem NetOk.poll (h : NetOk addr nics past i net) (haddr : Function.Injective addr)
    {e : HostEvent} (he : (i, e) ∈ past) {frames : List (List Byte)}
    (hears : e.hears = frames.take netPollMaxFramesPerCall) (hf : ∀ frame ∈ e.hears, Honest addr nics past frame) :
    ∃ net', netPoll net frames = some net' ∧ Keeps addr nics past i net net' := by
  unfold netPoll
  rw [h.nic]
  simp only
  rw [← hears]
  exact h.hearAll haddr he e.hears fun frame hm => ⟨hm, hf frame hm⟩

end

/-! ## Events -/

section

variable {h h' : Host}

theorem NetOk.bind {net : Net} (hn : NetOk addr nics past i net) {port : Word16} {callback : Nat}
    (he : (i, .udpBind port callback) ∈ past) : NetOk addr nics past i (udpBind net port callback).2 := by
  unfold udpBind
  split
  · rename_i k hk
    refine { hn with bound := fun k' hk' => ?_ }
    obtain ⟨-, hport⟩ := bindingSlots.used_of_find hk
    by_cases e : k' = k
    · subst e
      simp only [Function.update_self] at hk' ⊢
      rw [show (net.bindings k').port = port from hport]
      exact he
    · simp only [Function.update_of_ne e] at hk' ⊢
      exact hn.bound k' hk'
  · split
    · rename_i k hk
      refine { hn with bound := fun k' hk' => ?_ }
      by_cases e : k' = k
      · subst e
        simp only [Function.update_self]
        exact he
      · simp only [Function.update_of_ne e] at hk' ⊢
        exact hn.bound k' hk'
    · exact hn

theorem NetOk.unbind {net : Net} (hn : NetOk addr nics past i net) (port : Word16) :
    NetOk addr nics past i (udpUnbind net port) := by
  refine { hn with bound := fun k hk => ?_ }
  simp only [udpUnbind] at hk ⊢
  split
  · rename_i hmatch
    rw [if_pos hmatch] at hk
    cases hk
  · rename_i hmatch
    rw [if_neg hmatch] at hk
    exact hn.bound k hk

/-- With a new stack that is as it should be, the host is. -/
theorem HostOk.withNet (hh : HostOk addr nics past i h) {net : Net} (hn : NetOk addr nics past i net) :
    HostOk addr nics past i { h with net } := ⟨hn, hh.count, hh.loop, hh.reports⟩

theorem HostOk.ping (hh : HostOk addr nics past i h) {argument : CStr} (hidle : h.ping = none)
    (hstep : shellCmdPing argument h = some h') :
    HostOk addr nics (past ++ [(i, .ping argument)]) i h' ∧ h'.net = h.net := by
  have hpre : past <+: past ++ [(i, HostEvent.ping argument)] := List.prefix_append ..
  simp only [shellCmdPing, hh.net.nic, Option.bind_eq_bind, Option.bind_eq_some_iff] at hstep
  obtain ⟨⟨ok, destIp⟩, hdest, hstep⟩ := hstep
  cases ok with
  | false =>
    cases hstep
    refine ⟨hh.congr hpre (pingsOf_other (.inr ?_)), rfl⟩
    simp [HostEvent.pings, hdest]
  | true =>
    cases hstep
    have hnew : pingsOf (past ++ [(i, HostEvent.ping argument)]) i = pingsOf past i ++ [destIp] := by
      rw [pingsOf_snoc]
      simp [HostEvent.pings, hdest]
    have hloop := hh.loop
    rw [hidle] at hloop
    simp only [LoopOk] at hloop
    refine ⟨⟨hh.net.mono hpre, ?_, ?_, fun n report hr => (hh.reports n report hr).mono hpre⟩, rfl⟩
    · rw [hnew, hh.count, List.length_append, List.length_singleton, BitVec.ofNat_add]
      rfl
    · refine ⟨by rw [hnew, List.length_append, List.length_singleton, ← hloop], ?_, ?_⟩
      · rw [hnew, hloop, List.getElem?_concat_length]
      · rw [hh.count, ← hloop, pingNumber, BitVec.ofNat_add]
        rfl

theorem NetOk.echoRequest {net : Net} (hn : NetOk addr nics past i net) {n : Nat} {dest : Ip}
    (hasked : (pingsOf past i)[n]? = some dest) :
    Keeps addr nics past i net (icmpSendEchoRequest net dest 0xBEEF (pingNumber n)).2 := by
  have hcleared : NetOk addr nics past i { net with pingState := ⟨true, 0xBEEF, pingNumber n, false⟩ } :=
    { hn with replied := fun hr => by cases hr }
  have hsend := hcleared.ipSend (.request hasked) (by rw [length_echoMessage]; decide)
  exact ⟨hsend.ok, hsend.sent⟩

/-- The command ends with a report. -/
theorem HostOk.report (hh : HostOk addr nics past i h) {p : PingLoop} (hp : h.ping = some p) {net : Net}
    (hn : NetOk addr nics past i net) {outcome : PingOutcome}
    (hreport : outcome = .replyReceived → icmpReplyReceived net 0xBEEF p.sequence = true) :
    HostOk addr nics past i { h with net, ping := none, reports := h.reports ++ [(p.destIp, outcome)] } := by
  have hloop := hh.loop
  rw [hp] at hloop
  obtain ⟨hlen, hdest, hseq⟩ := hloop
  refine ⟨hn, hh.count, by rw [LoopOk, List.length_append, List.length_singleton]; exact hlen, fun n report hr => ?_⟩
  by_cases hlt : n < h.reports.length
  · rw [List.getElem?_append_left hlt] at hr
    exact hh.reports n report hr
  · obtain ⟨rfl, hn'⟩ : (p.destIp, outcome) = report ∧ n = h.reports.length := by
      rw [List.getElem?_append_right (by omega)] at hr
      obtain ⟨hzero, he⟩ := List.getElem?_eq_some_iff.1 hr
      rw [List.length_singleton] at hzero
      exact ⟨by rw [← he]; simp, by omega⟩
    subst hn'
    refine ⟨hdest, fun ho => ?_⟩
    have hreply := hreport ho
    simp only [icmpReplyReceived, Bool.and_eq_true, beq_iff_eq] at hreply
    obtain ⟨j, m, hheard, -, hnum⟩ := hn.replied hreply.1.1
    have hm := (List.getElem?_eq_some_iff.1 hheard.asked).1
    exact ⟨j, m, by omega, by rw [← hnum, hreply.2, hseq], hheard⟩

/-- A round of the ping loop. -/
theorem HostOk.round (hh : HostOk addr nics past i h) (haddr : Function.Injective addr) {frames : List (List Byte)}
    (he : (i, .pingRound frames) ∈ past)
    (hf : ∀ frame ∈ (HostEvent.pingRound frames).hears, Honest addr nics past frame)
    (hstep : pingRound frames h = some h') :
    HostOk addr nics past i h' ∧ ∀ frame ∈ h'.net.sent, frame ∈ h.net.sent ∨ Honest addr nics past frame := by
  unfold pingRound at hstep
  split at hstep
  · cases hstep
  rename_i p hp
  have hloop := hh.loop
  rw [hp] at hloop
  split at hstep
  · obtain ⟨net, hpoll, hkeep⟩ := hh.net.poll haddr he rfl hf
    -- going on with the loop needs nothing but the new stack
    have hgo : ∀ {net' : Net} (sent : Bool) (iteration : Nat), Keeps addr nics past i h.net net' →
        HostOk addr nics past i { h with net := net', ping := some { p with sent, iteration } } ∧
          ∀ frame ∈ net'.sent, frame ∈ h.net.sent ∨ Honest addr nics past frame := fun _ _ hk =>
      ⟨⟨hk.ok, hh.count, hloop, hh.reports⟩, hk.sent⟩
    simp only [hpoll, Option.bind_eq_bind, Option.bind_some] at hstep
    split at hstep
    · split at hstep
      · cases hstep
        have hreq := hkeep.ok.echoRequest hloop.2.1
        rw [← hloop.2.2] at hreq
        exact hgo _ _ (hkeep.trans hreq)
      · cases hstep
        exact hgo _ _ hkeep
    · split at hstep
      · rename_i hreply
        cases hstep
        exact ⟨hh.report hp hkeep.ok fun _ => hreply, hkeep.sent⟩
      · cases hstep
        exact hgo _ _ hkeep
  · cases hstep
    refine ⟨hh.report hp hh.net fun ho => ?_, fun frame hm => .inl hm⟩
    split at ho <;> cases ho

/-- Any event of a host, on honest frames. -/
theorem HostOk.step (hh : HostOk addr nics past i h) (haddr : Function.Injective addr) {e : HostEvent}
    (hf : ∀ frame ∈ e.hears, Honest addr nics past frame) (hstep : hostStep e h = some h') :
    HostOk addr nics (past ++ [(i, e)]) i h' ∧
      ∀ frame ∈ h'.net.sent, frame ∈ h.net.sent ∨ Honest addr nics (past ++ [(i, e)]) frame := by
  have hpre : past <+: past ++ [(i, e)] := List.prefix_append ..
  have he : (i, e) ∈ past ++ [(i, e)] := by simp
  have hf' : ∀ frame ∈ e.hears, Honest addr nics (past ++ [(i, e)]) frame := fun frame hm => (hf frame hm).mono hpre
  have hh' : e.pings = none → HostOk addr nics (past ++ [(i, e)]) i h := fun hnone =>
    hh.congr hpre (pingsOf_other (.inr hnone))
  cases e with
  | poll frames =>
    have hok := hh' rfl
    simp only [hostStep] at hstep
    split at hstep
    · cases hstep
    · obtain ⟨net, hpoll, hkeep⟩ := hok.net.poll haddr he rfl hf'
      rw [hpoll, Option.map_some, Option.some.injEq] at hstep
      subst hstep
      exact ⟨hok.withNet hkeep.ok, hkeep.sent⟩
  | ping argument =>
    simp only [hostStep] at hstep
    split at hstep
    · cases hstep
    · rename_i hidle
      obtain ⟨hok, hnet⟩ := hh.ping (by simpa using hidle) hstep
      exact ⟨hok, fun frame hm => .inl (hnet ▸ hm)⟩
  | pingRound frames => exact (hh' rfl).round haddr he hf' hstep
  | udpSend dest destPort srcPort data =>
    cases hstep
    have hkeep := (hh' rfl).net.udpSend he
    exact ⟨(hh' rfl).withNet hkeep.ok, hkeep.sent⟩
  | udpBind port callback =>
    cases hstep
    refine ⟨(hh' rfl).withNet ((hh' rfl).net.bind he), fun frame hm => .inl ?_⟩
    have hsent : (udpBind h.net port callback).2.sent = h.net.sent := by
      unfold udpBind
      split
      · rfl
      · split <;> rfl
    exact hsent ▸ hm
  | udpUnbind port =>
    cases hstep
    exact ⟨(hh' rfl).withNet ((hh' rfl).net.unbind port), fun frame hm => .inl hm⟩

end

/-! ## Runs -/

section

theorem segment_sound (haddr : Function.Injective addr) :
    Party.Sound segment (Honest addr nics) (HostOk addr nics) where
  good_mono := fun hf => hf.mono (List.prefix_append ..)
  inv_mono := fun hh hne => hh.congr (List.prefix_append ..) (pingsOf_other (.inl hne))
  step := fun hh hf hstep => hh.step haddr hf hstep

/-- The hosts of a segment after `net_init`, with these addresses. -/
def bootSegment (nets : ι → Net) (addr gateway mask : ι → Ip) (i : ι) : Host :=
  Host.boot (nets i) (addr i) (gateway i) (mask i)

variable {nets : ι → Net} {gateway mask : ι → Ip}

theorem bootSegment_ok (hnic : ∀ i, (nets i).nic = some (nics i)) (i : ι) :
    HostOk addr nics [] i (bootSegment nets addr gateway mask i) := by
  refine ⟨⟨rfl, hnic i, fun _ _ hu => (by cases hu), fun _ hu => (by cases hu), fun _ hu => (by cases hu),
    fun _ hd => (by cases hd), fun hr => (by cases hr)⟩, rfl, rfl, fun _ _ hr => (by cases hr)⟩

variable [Fintype ι] {events : List (ι × HostEvent)} {s : ι → Host}

/-- In every state that the hosts can reach, each is as it should be. -/
theorem segment_run (hnic : ∀ i, (nets i).nic = some (nics i)) (haddr : Function.Injective addr)
    (hrun : segment.run (bootSegment nets addr gateway mask) events = some s) (i : ι) :
    HostOk addr nics events i (s i) := by
  have hquiet : ∀ frame, segment.OnWire (bootSegment nets addr gateway mask) frame → Honest addr nics [] frame := by
    rintro frame ⟨j, hj⟩
    cases hj
  exact ((segment_sound haddr).run (bootSegment_ok hnic) hquiet hrun).1 i

end

end

/-! ## Two hosts -/

/-- Two hosts that know nothing of each other yet. -/
def pairNic (i : Fin 2) : Nic := ⟨Vector.replicate 6 (BitVec.ofNat 8 (i.val + 2)), fun _ _ => 1⟩

def pairNets (i : Fin 2) : Net := { peerHost 0 0 with nic := some (pairNic i) }

def pairAddr (i : Fin 2) : Ip := BitVec.ofNat 32 (i.val + 1)

def bootPair : Fin 2 → Host := bootSegment pairNets pairAddr (fun _ => 0) fun _ => 0

theorem pairAddr_injective : Function.Injective pairAddr := by decide

/-- The first host binds a port and has something to send, so it asks for the second's address. -/
def askedEvents : List (Fin 2 × HostEvent) :=
  [(0, .udpBind 9 4), (0, .udpSend 2 7 5 []), (1, .poll [question 1 2 (pairNic 0)])]

def pairAsked : Fin 2 → Host := (segment.run bootPair askedEvents).getD bootPair

theorem run_askedEvents : segment.run bootPair askedEvents = some pairAsked := by
  obtain ⟨s, hs⟩ := Option.isSome_iff_exists.1 (by decide : (segment.run bootPair askedEvents).isSome = true)
  rw [pairAsked, hs, Option.getD_some]

theorem pairAsked_ready (i j : Fin 2) : Ready (pairAddr i) (pairAddr j) (pairNic i) (pairAsked i).net := by
  have hok := (segment_run (fun _ => rfl) pairAddr_injective run_askedEvents i).net
  exact ⟨hok.localIp, hok.nic, hok.unique,
    (by decide : ∀ i j, resolveNextHop (pairAsked i).net (pairAddr j) = pairAddr j) i j⟩

/-! ## What the hosts believe -/

section

variable {ι : Type} [DecidableEq ι] [Fintype ι] {addr : ι → Ip} {nics : ι → Nic} {events : List (ι × HostEvent)}
  {s : ι → Host} {nets : ι → Net} {gateway mask : ι → Ip}

/-- No cache is ever wrong: an address resolves only to the hardware address of the host that has it. -/
theorem segment_arp_agrees (hnic : ∀ i, (nets i).nic = some (nics i)) (haddr : Function.Injective addr)
    (hrun : segment.run (bootSegment nets addr gateway mask) events = some s) {i : ι} {ip : Ip} {mac : Mac}
    (h : arpResolve (s i).net ip = some mac) : ∃! j, addr j = ip ∧ (nics j).mac = mac := by
  have hok := (segment_run hnic haddr hrun i).net
  obtain ⟨k, hin, rfl, rfl⟩ := (arpResolve_eq_some hok.unique).1 h
  obtain ⟨j, hip, hmac⟩ := hok.learnt k hin
  exact ⟨j, ⟨hip.symm, hmac.symm⟩, fun j' hj' => haddr (hj'.1.trans hip)⟩

theorem segment_arp_agrees_asked :
    arpResolve (pairAsked 1).net 1 = some (pairNic 0).mac ∧ ∃! j, pairAddr j = 1 ∧
    (pairNic j).mac = (pairNic 0).mac := by
  have hknown : arpResolve (pairAsked 1).net 1 = some (pairNic 0).mac := by decide
  exact ⟨hknown, segment_arp_agrees (fun _ => rfl) pairAddr_injective run_askedEvents hknown⟩

/-- What a UDP callback is handed was sent just so: by the host with the source address, to this host, on
a port that this host has bound to the callback. -/
theorem segment_udp_sound (hnic : ∀ i, (nets i).nic = some (nics i)) (haddr : Function.Injective addr)
    (hrun : segment.run (bootSegment nets addr gateway mask) events = some s) {i : ι} {d : Delivery}
    (h : d ∈ (s i).net.delivered) :
    ∃ j destPort, addr j = d.sourceIp ∧ (j, .udpSend (addr i) destPort d.sourcePort d.data) ∈ events ∧
      (i, .udpBind destPort d.callback) ∈ events :=
  (segment_run hnic haddr hrun i).net.delivered d h

/-- The second host sends a byte to the port of the first. -/
theorem segment_udp_sound_sent : ∃ events s, segment.run bootPair events = some s ∧
    (s 0).net.delivered = [⟨4, 2, 5, [65]⟩] ∧
    ∃ j destPort, pairAddr j = 2 ∧ (j, .udpSend (pairAddr 0) destPort 5 [65]) ∈ events ∧
      (0, .udpBind destPort 4) ∈ events := by
  have hknown : arpResolve (pairAsked 1).net 1 = some (pairNic 0).mac := by decide
  have hlen : (udpPacket 2 1 9 5 [65]).length ≤ ipMaxPacket := by rw [length_udpPacket]; decide
  obtain ⟨identification, net', hsend, hready, hsent, -⟩ := (pairAsked_ready 1 0).send_known hknown ipProtoUdp hlen
  obtain ⟨frame, hframe⟩ : ∃ frame, frame =
    ipFrame (pairNic 0).mac (pairNic 1).mac identification (pairAddr 1) (pairAddr 0)
    ipProtoUdp (udpPacket 2 1 9 5 [65]) := ⟨_, rfl⟩
  rw [← hframe] at hsent
  have hhear : ethHandleFrame (pairAsked 0).net frame =
      some { (pairAsked 0).net with delivered := [⟨4, 2, 5, [65]⟩] } := by
    have hrun := @ethHandleFrame_datagram (pairAsked 0).net (pairNic 0).mac (pairNic 1).mac
      identification (pairAddr 1) 9 5
      [65] (by decide)
    rw [(pairAsked_ready 0 1).localIp] at hrun
    rw [hframe]
    exact hrun
  have hturn : segment.turn pairAsked (1, .udpSend 1 9 5 [65]) =
      some (Function.update pairAsked 1 { pairAsked 1 with net := net' }) := by
    refine Party.turn_eq_some.2 ⟨fun f hf => (by cases hf), _, rfl, ?_⟩
    rw [udpSend_packet _ _ _ _ (by decide), (pairAsked_ready 1 0).localIp]
    exact congrArg (fun r : Int × Net => Function.update pairAsked 1 { pairAsked 1 with net := r.2 }) hsend
  obtain ⟨s, hs⟩ : ∃ s, s = Function.update pairAsked 1 { pairAsked 1 with net := net' } := ⟨_, rfl⟩
  rw [← hs] at hturn
  have hfirst : s 0 = pairAsked 0 := by rw [hs, Function.update_of_ne (by decide)]
  have hwire : segment.OnWire s frame := by
    refine ⟨1, ?_⟩
    show frame ∈ (s 1).net.sent
    rw [hs, Function.update_self, hsent]
    simp
  have hpoll : segment.turn s (0, .poll [frame]) = some (Function.update s 0
      { pairAsked 0 with net := { (pairAsked 0).net with delivered := [⟨4, 2, 5, [65]⟩] } }) := by
    refine Party.turn_eq_some.2 ⟨fun f hf => ?_, _, ?_, rfl⟩
    · rw [show f = frame by simpa [segment, HostEvent.hears, netPollMaxFramesPerCall] using hf]
      exact hwire
    · show (if (s 0).ping.isSome then none else (netPoll (s 0).net [frame]).map _) = _
      rw [hfirst, if_neg (by decide), netPoll_one (pairAsked_ready 0 1).nic, hhear]
      rfl
  have hrun : segment.run bootPair (askedEvents ++ [(1, .udpSend 1 9 5 [65]), (0, .poll [frame])]) =
      some (Function.update s 0 { pairAsked 0 with
        net := { (pairAsked 0).net with delivered := [⟨4, 2, 5, [65]⟩] } }) := by
    rw [Party.run_append run_askedEvents, Party.run_cons hturn, Party.run_cons hpoll]
    rfl
  refine ⟨_, _, hrun, by rw [Function.update_self], ?_⟩
  exact segment_udp_sound (fun _ => rfl) pairAddr_injective hrun (i := 0) (d := ⟨4, 2, 5, [65]⟩)
    (by rw [Function.update_self]; exact List.mem_singleton_self _)

end

end SpectreOS
