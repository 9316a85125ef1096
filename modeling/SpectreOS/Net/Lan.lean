/-
Hosts that all run this stack on one Ethernet segment: net.c, the sending half of icmp.c and the loop of
`shell_cmd_ping` over the stack, and the segment as a medium that may lose, delay, reorder and repeat
frames. Each frame a host can hear was built by a host, out of its own addresses and what it was asked
to send; so the handlers are described here on just such frames.
-/
import SpectreOS.Lib.Wire
import SpectreOS.Net.Ping
import SpectreOS.Net.Arp
import SpectreOS.Net.Ports
import SpectreOS.Console.Address
import SpectreOS.Fs.Store

namespace SpectreOS

open BlockIO

/-! ## net.c and icmp.c -/

abbrev netPollMaxFramesPerCall : Nat := 8

/-- `net_init` for a host with a NIC, with the addresses that are set at its end. -/
def netInit (net : Net) (localIp gatewayIp subnetMask : Ip) : Net :=
  let net := arpInit { net with nextIdentification := 1 }
  let net := { net with pingState := { net.pingState with outstanding := false, replyReceived := false } }
  { udpInit net with localIp, gatewayIp, subnetMask }

/-- `net_poll`; `frames` are those the driver hands over, one a call, before it answers 0. -/
def netPoll (net : Net) (frames : List (List Byte)) : Option Net :=
  match net.nic with
  | none => some net
  | some _ => (frames.take netPollMaxFramesPerCall).foldlM ethHandleFrame net

/-- An echo message of 8 bytes, the checksum computed with zeros in its place. -/
def echoMessage (type : Byte) (identifier sequence : Word16) : List Byte :=
  let packet := fun checksum => [type, 0] ++ net16 checksum ++ net16 identifier ++ net16 sequence
  packet (internetChecksum (packet 0))

def icmpSendEchoRequest (net : Net) (destIp : Ip) (identifier sequence : Word16) : Int × Net :=
  ipSend { net with pingState := ⟨true, identifier, sequence, false⟩ } destIp ipProtoIcmp
    (echoMessage 8 identifier sequence)

def icmpReplyReceived (net : Net) (identifier sequence : Word16) : Bool :=
  net.pingState.replyReceived && net.pingState.identifier == identifier && net.pingState.sequence == sequence

/-! ## shell_cmd_ping -/

abbrev pingMaxIterations : Nat := 3000000
abbrev pingArpRetryEvery : Nat := 50000

/-- The local variables of the loop of `shell_cmd_ping`. -/
structure PingLoop where
  destIp : Ip
  sequence : Word16
  sent : Bool
  iteration : Nat

/-- What the loop ends with: the reply, or one of the two ways of timing out. -/
inductive PingOutcome where
  | replyReceived
  | noReply
  | unresolved
  deriving DecidableEq

/-- A host: its stack, `ping_sequence`, the ping command it is in the middle of, and what the commands so
far have reported. -/
structure Host where
  net : Net
  pingSequence : Word16
  ping : Option PingLoop
  reports : List (Ip × PingOutcome)

def pingDest (argument : CStr) : Option (Bool × Ip) :=
  shellParseIp (argument.val.length + 1) (fun i => argument.val.getD i.toNat 0) 0

/-- `shell_cmd_ping` up to its loop. -/
def shellCmdPing (argument : CStr) (h : Host) : Option Host :=
  match h.net.nic with
  | none => some h
  | some _ => do
    let (ok, destIp) ← pingDest argument
    if ok then
      return { h with pingSequence := h.pingSequence + 1, ping := some ⟨destIp, h.pingSequence + 1, false, 0⟩ }
    else return h

/-- One iteration of the loop, on the frames that have arrived; or what comes after the last. -/
def pingRound (frames : List (List Byte)) (h : Host) : Option Host :=
  match h.ping with
  | none => none
  | some p =>
    if p.iteration < pingMaxIterations then do
      let net ← netPoll h.net frames
      if !p.sent then
        if p.iteration % pingArpRetryEvery = 0 then
          let (result, net) := icmpSendEchoRequest net p.destIp 0xBEEF p.sequence
          return { h with net, ping := some { p with sent := result != 0, iteration := p.iteration + 1 } }
        else return { h with net, ping := some { p with iteration := p.iteration + 1 } }
      else if icmpReplyReceived net 0xBEEF p.sequence then
        return { h with net, ping := none, reports := h.reports ++ [(p.destIp, .replyReceived)] }
      else return { h with net, ping := some { p with iteration := p.iteration + 1 } }
    else
      return { h with ping := none, reports := h.reports ++ [(p.destIp, if p.sent then .noReply else .unresolved)] }

/-! ## The segment -/

/-- What a host does next: poll in the main loop, take a ping command or go on with it, or send, bind
and unbind UDP ports. -/
inductive HostEvent where
  | poll (frames : List (List Byte))
  | ping (argument : CStr)
  | pingRound (frames : List (List Byte))
  | udpSend (destIp : Ip) (destPort srcPort : Word16) (data : List Byte)
  | udpBind (port : Word16) (callback : Nat)
  | udpUnbind (port : Word16)

def HostEvent.hears : HostEvent → List (List Byte)
  | poll frames => frames.take netPollMaxFramesPerCall
  | pingRound frames => frames.take netPollMaxFramesPerCall
  | _ => []

/-- A ping command holds up the main loop and the shell until it is done. -/
def hostStep : HostEvent → Host → Option Host
  | .poll frames, h => if h.ping.isSome then none else (netPoll h.net frames).map fun net => { h with net }
  | .ping argument, h => if h.ping.isSome then none else shellCmdPing argument h
  | .pingRound frames, h => SpectreOS.pingRound frames h
  | .udpSend destIp destPort srcPort data, h => some { h with net := (udpSend h.net destIp destPort srcPort data).2 }
  | .udpBind port callback, h => some { h with net := (udpBind h.net port callback).2 }
  | .udpUnbind port, h => some { h with net := udpUnbind h.net port }

/-- The segment: a frame handed to a NIC may be heard by any host. -/
def segment : Wire.Party Host HostEvent (List Byte) where
  hears := HostEvent.hears
  step := hostStep
  sent h := h.net.sent

/-- A host after `net_init`, with no frame sent yet. -/
def Host.boot (net : Net) (localIp gatewayIp subnetMask : Ip) : Host :=
  ⟨{ netInit net localIp gatewayIp subnetMask with sent := [], delivered := [] }, 0, none, []⟩

/-! ## Frames -/

def arpFrame (dest src : Mac) (packet : List Byte) : List Byte :=
  padFrame (ethBuildHeader dest src ethertypeArp ++ packet)

/-- The frame of an IPv4 packet as `ip_send` builds it. -/
def ipFrame (dest src : Mac) (identification : Word16) (sourceIp destIp : Ip) (protocol : Byte) (payload : List Byte) :
    List Byte :=
  let header := fun checksum => ipHeader (BitVec.ofNat 16 (ipHeaderLen + payload.length)) identification checksum
    protocol sourceIp destIp
  padFrame (ethBuildHeader dest src ethertypeIpv4 ++ (header (internetChecksum (header 0)) ++ payload))

/-- The packet `udp_send` hands to `ip_send`. -/
def udpPacket (sourceIp destIp : Ip) (destPort srcPort : Word16) (data : List Byte) : List Byte :=
  let header := udpHeader srcPort destPort (BitVec.ofNat 16 (udpHeaderLen + data.length))
  header (udpChecksum sourceIp destIp (header 0 ++ data)) ++ data

@[simp] theorem length_echoMessage (type : Byte) (identifier sequence : Word16) :
    (echoMessage type identifier sequence).length = 8 := rfl

@[simp] theorem length_arpPacket (op : Word16) (sm : Mac) (si : Ip) (tm : Mac) (ti : Ip) :
    (arpPacket op sm si tm ti).length = 28 := by
  simp [arpPacket]

theorem length_udpPacket (sourceIp destIp : Ip) (destPort srcPort : Word16) (data : List Byte) :
    (udpPacket sourceIp destIp destPort srcPort data).length = udpHeaderLen + data.length := by
  simp [udpPacket]

theorem udpSend_packet (net : Net) (destIp : Ip) (destPort srcPort : Word16) {data : List Byte}
    (hlen : data.length ≤ udpMaxPayload) :
    udpSend net destIp destPort srcPort data =
      ipSend net destIp ipProtoUdp (udpPacket net.localIp destIp destPort srcPort data) := if_neg (not_lt.2 hlen)

theorem echoMessage_verifies (type : Byte) (identifier sequence : Word16) :
    internetChecksum (echoMessage type identifier sequence) = 0 := by
  have hzero : netRead16 ([type, 0] ++ net16 0 ++ net16 identifier ++ net16 sequence) 2 = some 0 := netRead16_net16 rfl
  exact internetChecksum_insert (by simp) (show 2 % 2 = 0 from rfl) hzero

/-- The reply to an echo request repeats its identifier and sequence. -/
theorem echoReply_echoMessage (identifier sequence : Word16) :
    echoReply (echoMessage 8 identifier sequence) = echoMessage 0 identifier sequence := rfl

/-! ## Sending -/

section

variable {net : Net} {nic : Nic}

theorem ethSend_sent (hnic : net.nic = some nic) (dest : Mac) (ethertype : Word16) {payload : List Byte}
    (hlen : payload.length ≤ ethMaxFrame - ethHeaderLen) :
    (ethSend net dest ethertype payload).2 =
      { net with sent := net.sent ++ [padFrame (ethBuildHeader dest nic.mac ethertype ++ payload)] } := by
  unfold ethSend
  simp only [hnic]
  rw [if_neg (by omega)]

theorem arpRequest_sent (hnic : net.nic = some nic) (ip : Ip) :
    arpRequest net ip = { net with
      sent := net.sent ++ [arpFrame ethBroadcastMac nic.mac
        (arpPacket 1 nic.mac net.localIp (Vector.replicate 6 0) ip)] } := by
  have hmac : netGetLocalMac net = nic.mac := by rw [netGetLocalMac, hnic]
  rw [arpRequest, ethSend_sent hnic _ _ (by rw [length_arpPacket]; decide), hmac]
  rfl

/-- `ip_send` puts one frame on the wire: the packet, or the question for its next hop. -/
theorem ipSend_sent (hnic : net.nic = some nic) (dest : Ip) (protocol : Byte) {payload : List Byte}
    (hlen : payload.length ≤ ipMaxPacket) :
    (∃ mac, arpResolve net (resolveNextHop net dest) = some mac ∧
      let frame := ipFrame mac nic.mac net.nextIdentification net.localIp dest protocol payload
      ipSend net dest protocol payload = (nic.send net.sent frame,
        { net with nextIdentification := net.nextIdentification + 1, sent := net.sent ++ [frame] })) ∨
    (arpResolve net (resolveNextHop net dest) = none ∧
      ipSend net dest protocol payload = (0, arpRequest net (resolveNextHop net dest))) := by
  cases hmac : arpResolve net (resolveNextHop net dest) with
  | some mac => exact .inl ⟨mac, rfl, ipSend_resolved hnic hmac protocol hlen⟩
  | none =>
    refine .inr ⟨rfl, ?_⟩
    unfold ipSend
    rw [if_neg (by omega)]
    simp only [hmac]

end

/-! ## Receiving -/

/-- What a host does with an ARP packet. -/
def arpReceived (net : Net) (opcode : Word16) (senderMac : Mac) (senderIp targetIp : Ip) : Net :=
  let learnt := cacheLearn net senderIp senderMac
  if opcode = 1 ∧ targetIp = learnt.localIp then
    (ethSend learnt senderMac ethertypeArp
      (arpPacket 2 (netGetLocalMac learnt) learnt.localIp senderMac senderIp)).2
  else learnt

section

variable (net : Net)

theorem readMac_mac {p rest : List Byte} {mac : Mac} {off : Nat} (h : p.drop off = mac.toList ++ rest) :
    readMac p off = some mac := by
  have hlen := congrArg List.length h
  rw [List.length_drop, List.length_append, Vector.length_toList] at hlen
  unfold readMac
  rw [dif_pos (by omega)]
  refine congrArg some (Vector.ext fun i hi => ?_)
  have hget : p[off + i]? = mac.toList[i]? := by
    rw [← List.getElem?_drop, h, List.getElem?_append_left (by rw [Vector.length_toList]; exact hi)]
  rw [List.getElem?_eq_getElem (by omega), List.getElem?_eq_getElem (by rw [Vector.length_toList]; exact hi),
    Option.some_inj] at hget
  rw [Vector.getElem_ofFn]
  exact hget.trans (Vector.getElem_toList _)

theorem ethHandleFrame_arp (dest src : Mac) (opcode : Word16) (senderMac targetMac : Mac) (senderIp targetIp : Ip) :
    ethHandleFrame net (arpFrame dest src (arpPacket opcode senderMac senderIp targetMac targetIp)) =
      some (arpReceived net opcode senderMac senderIp targetIp) := by
  unfold arpFrame padFrame
  generalize List.replicate _ (0 : Byte) = pad
  obtain ⟨packet, hpacket⟩ : ∃ packet, packet = arpPacket opcode senderMac senderIp targetMac targetIp := ⟨_, rfl⟩
  have htype : netRead16 (ethBuildHeader dest src ethertypeArp ++ packet ++ pad) 12 = some ethertypeArp := by
    have hat : (ethBuildHeader dest src ethertypeArp ++ packet ++ pad).drop 12 =
        net16 ethertypeArp ++ (packet ++ pad) := by
      rw [List.append_assoc, ethBuildHeader, List.append_assoc (dest.toList ++ src.toList), List.drop_left' (by simp)]
    exact netRead16_net16 hat
  have hdrop : (ethBuildHeader dest src ethertypeArp ++ packet ++ pad).drop ethHeaderLen = packet ++ pad := by
    rw [List.append_assoc, List.drop_left' (by simp)]
  have hsm : packet ++ pad = (net16 1 ++ net16 0x0800 ++ [6, 4] ++ net16 opcode) ++ (senderMac.toList ++
      (net32 senderIp ++ targetMac.toList ++ net32 targetIp ++ pad)) := by
    rw [hpacket]
    simp [arpPacket]
  have hsi : packet ++ pad = (net16 1 ++ net16 0x0800 ++ [6, 4] ++ net16 opcode ++ senderMac.toList) ++
      (net32 senderIp ++ (targetMac.toList ++ net32 targetIp ++ pad)) := by
    rw [hpacket]
    simp [arpPacket]
  have hti : packet ++ pad = (net16 1 ++ net16 0x0800 ++ [6, 4] ++ net16 opcode ++ senderMac.toList ++ net32 senderIp ++
      targetMac.toList) ++ (net32 targetIp ++ pad) := by
    rw [hpacket]
    simp [arpPacket]
  have h0 : netRead16 (packet ++ pad) 0 = some 1 := by
    rw [hsm]
    exact netRead16_net16 rfl
  have h2 : netRead16 (packet ++ pad) 2 = some 0x0800 := by
    rw [hsm]
    exact netRead16_net16 rfl
  have h6 : netRead16 (packet ++ pad) 6 = some opcode := by
    rw [hsm]
    exact netRead16_net16 rfl
  have h8 : readMac (packet ++ pad) 8 = some senderMac := readMac_mac (by rw [hsm]; exact List.drop_left' (by simp))
  have h14 : netRead32 (packet ++ pad) 14 = some senderIp :=
    netRead32_net32 (by rw [hsi]; exact List.drop_left' (by simp))
  have h24 : netRead32 (packet ++ pad) 24 = some targetIp :=
    netRead32_net32 (by rw [hti]; exact List.drop_left' (by simp))
  have hlen : (ethBuildHeader dest src ethertypeArp ++ packet ++ pad).length - ethHeaderLen = 28 + pad.length := by
    simp [hpacket]
  unfold ethHandleFrame
  rw [← hpacket, if_neg (by simp)]
  simp only [htype, hdrop, hlen, Option.bind_eq_bind, Option.bind_some, if_true]
  unfold arpHandlePacket
  rw [if_neg (by simp only [arpHeaderLen]; omega)]
  simp only [h0, h2, h6, h8, h14, h24, Option.bind_eq_bind, Option.bind_some]
  rw [if_neg (by decide)]
  unfold arpReceived
  simp only
  split <;> rfl

/-- A packet for another host is dropped. -/
theorem ipHandlePacket_other (identification : Word16) (protocol : Byte) (source dest : Ip) (payload pad : List Byte)
    (hlen : payload.length ≤ ipMaxPacket) (hdest : dest ≠ net.localIp) :
    let header := fun c =>
      ipHeader (BitVec.ofNat 16 (ipHeaderLen + payload.length)) identification c protocol source dest
    ipHandlePacket net (header (internetChecksum (header 0)) ++ payload ++ pad)
      (header (internetChecksum (header 0)) ++ payload ++ pad).length = some net := by
  intro header
  have hver : internetChecksum (header (internetChecksum (header 0))) = 0 := internetChecksum_ipHeader ..
  generalize internetChecksum (header 0) = c at hver
  have hhead : readBytes (header c ++ payload ++ pad) 20 = some (header c) := by
    rw [List.append_assoc]
    exact readBytes_append rfl
  have htl : netRead16 (header c ++ payload ++ pad) 2 = some (BitVec.ofNat 16 (ipHeaderLen + payload.length)) :=
    netRead16_net16 rfl
  have hflags : netRead16 (header c ++ payload ++ pad) 6 = some 0 := netRead16_net16 rfl
  have hsrc : netRead32 (header c ++ payload ++ pad) 12 = some source := netRead32_net32 rfl
  have hdst : netRead32 (header c ++ payload ++ pad) 16 = some dest := netRead32_net32 rfl
  have htot : (BitVec.ofNat 16 (ipHeaderLen + payload.length)).toNat = 20 + payload.length := by
    rw [BitVec.toNat_ofNat, Nat.mod_eq_of_lt (by simp only [ipHeaderLen, ipMaxPacket] at *; omega)]
  have hl : (header c ++ payload ++ pad).length = 20 + payload.length + pad.length := by
    simp only [List.length_append]
    rfl
  have h0 : (header c ++ payload ++ pad)[0]? = some 0x45 := rfl
  have h9 : (header c ++ payload ++ pad)[9]? = some protocol := rfl
  have hihl : BitVec.toNat (0x45 : Byte) % 16 * 4 = 20 := rfl
  rw [hl]
  unfold ipHandlePacket
  rw [if_neg (by simp only [ipHeaderLen]; omega)]
  simp only [h0, Option.bind_eq_bind, Option.bind_some]
  rw [hihl, if_neg (by decide), if_neg (by omega)]
  simp only [hhead, Option.bind_some, hver, ne_eq, not_true_eq_false, if_false, hflags, htl, h9, hsrc, hdst]
  rw [if_neg (by decide), htot, if_neg (by omega), if_pos hdest]
  rfl

section

variable {net} {dest src : Mac} {identification : Word16} {source : Ip}

theorem ethHandleFrame_other {destIp : Ip} {protocol : Byte} {payload : List Byte} (hlen : payload.length ≤ ipMaxPacket)
    (hdest : destIp ≠ net.localIp) :
    ethHandleFrame net (ipFrame dest src identification source destIp protocol payload) = some net := by
  obtain ⟨pad, hpad⟩ := ethHandleFrame_ipv4 net dest src
    (ipHeader (BitVec.ofNat 16 (ipHeaderLen + payload.length)) identification
      (internetChecksum (ipHeader (BitVec.ofNat 16 (ipHeaderLen + payload.length)) identification 0
        protocol source destIp))
      protocol source destIp ++ payload)
  exact hpad.trans (ipHandlePacket_other net identification protocol source destIp payload pad hlen hdest)

/-- A packet for this host reaches the handler of its protocol. -/
theorem ethHandleFrame_ip (protocol : Byte) {payload : List Byte} (hlen : payload.length ≤ ipMaxPacket) :
    ∃ pad, ethHandleFrame net (ipFrame dest src identification source net.localIp protocol payload) =
      if protocol = ipProtoIcmp then icmpHandlePacket net source (payload ++ pad) payload.length
      else if protocol = ipProtoUdp then udpHandlePacket net source (payload ++ pad) payload.length
      else some net := by
  obtain ⟨pad, hpad⟩ := ethHandleFrame_ipv4 net dest src
    (ipHeader (BitVec.ofNat 16 (ipHeaderLen + payload.length)) identification
      (internetChecksum
        (ipHeader (BitVec.ofNat 16 (ipHeaderLen + payload.length)) identification 0 protocol source net.localIp))
      protocol source net.localIp ++ payload)
  exact ⟨pad, hpad.trans (ipHandlePacket_send net identification protocol source payload pad hlen)⟩

theorem ethHandleFrame_request (identifier sequence : Word16) :
    ethHandleFrame net (ipFrame dest src identification source net.localIp ipProtoIcmp
      (echoMessage 8 identifier sequence)) =
      some (ipSend net source ipProtoIcmp (echoMessage 0 identifier sequence)).2 := by
  obtain ⟨pad, hpad⟩ := @ethHandleFrame_ip net dest src identification source ipProtoIcmp
    (echoMessage 8 identifier sequence) (by rw [length_echoMessage]; decide)
  have htake : (echoMessage 8 identifier sequence ++ pad).take 8 = echoMessage 8 identifier sequence := rfl
  have hver : internetChecksum ((echoMessage 8 identifier sequence ++ pad).take 8) = 0 := by
    rw [htake, echoMessage_verifies]
  rw [hpad, if_pos rfl, length_echoMessage,
    icmpHandlePacket_request net source le_rfl (by simp) hver rfl, htake, echoReply_echoMessage]

theorem ethHandleFrame_reply (identifier sequence : Word16) :
    ethHandleFrame net (ipFrame dest src identification source net.localIp ipProtoIcmp
      (echoMessage 0 identifier sequence)) =
      some (if net.pingState.outstanding ∧ net.pingState.identifier = identifier ∧
        net.pingState.sequence = sequence then
        { net with pingState := { net.pingState with replyReceived := true } } else net) := by
  obtain ⟨pad, hpad⟩ := @ethHandleFrame_ip net dest src identification source ipProtoIcmp
    (echoMessage 0 identifier sequence) (by rw [length_echoMessage]; decide)
  have hdata : readBytes (echoMessage 0 identifier sequence ++ pad) 8 = some (echoMessage 0 identifier sequence) :=
    readBytes_append rfl
  have htype : (echoMessage 0 identifier sequence ++ pad)[0]? = some 0 := rfl
  have h4 : netRead16 (echoMessage 0 identifier sequence ++ pad) 4 = some identifier := netRead16_net16 rfl
  have h6 : netRead16 (echoMessage 0 identifier sequence ++ pad) 6 = some sequence := netRead16_net16 rfl
  rw [hpad, if_pos rfl, length_echoMessage]
  unfold icmpHandlePacket
  rw [if_neg (by decide)]
  simp only [hdata, htype, h4, h6, Option.bind_eq_bind, Option.bind_some, echoMessage_verifies, ne_eq,
    not_true_eq_false, if_false, if_true]
  rw [if_neg (by decide)]
  split <;> rfl

/-- A datagram is handed to the callback of its port, if there is one, with its source and bytes. -/
theorem ethHandleFrame_datagram (destPort srcPort : Word16) {data : List Byte} (hdata : data.length ≤ udpMaxPayload) :
    ethHandleFrame net (ipFrame dest src identification source net.localIp ipProtoUdp
      (udpPacket source net.localIp destPort srcPort data)) = some
      { net with
        delivered := net.delivered ++
          ((udpFind net destPort).map fun k => ⟨(net.bindings k).callback, source, srcPort, data⟩).toList } := by
  obtain ⟨packet, hpacket⟩ : ∃ packet, packet = udpPacket source net.localIp destPort srcPort data := ⟨_, rfl⟩
  have hplen : packet.length = udpHeaderLen + data.length := by rw [hpacket, length_udpPacket]
  obtain ⟨pad, hpad⟩ := @ethHandleFrame_ip net dest src identification source ipProtoUdp packet (by
    rw [hplen]
    simp only [udpHeaderLen, udpMaxPayload, ipMaxPacket] at *
    omega)
  rw [if_neg (by decide), if_pos rfl] at hpad
  rw [← hpacket, hpad]
  cases hfind : udpFind net destPort with
  | some k =>
    rw [hpacket]
    exact udpHandlePacket_deliver net source srcPort destPort data pad hdata hfind
  | none =>
    rcases udpHandlePacket_cases net source (show packet.length ≤ (packet ++ pad).length by simp) with
      ⟨sourcePort, destPort', bytes, ⟨-, -, -, -, h2, -⟩, hrun⟩ | ⟨-, hrun⟩
    · have hport : destPort' = destPort :=
        Option.some_inj.1 (h2.symm.trans (by rw [hpacket]; exact netRead16_net16 rfl))
      rw [hrun, hport, hfind]
      rfl
    · rw [hrun]
      simp

end

end

/-! ## A host and its peer -/

theorem netPoll_nil (net : Net) : netPoll net [] = some net := by
  unfold netPoll
  split <;> rfl

theorem netPoll_one {net : Net} {nic : Nic} (hnic : net.nic = some nic) (frame : List Byte) :
    netPoll net [frame] = ethHandleFrame net frame := by
  rw [netPoll, hnic]
  simp [netPollMaxFramesPerCall]

/-- A host with the address `own`, and one of its subnet with the address `peer`. -/
structure Ready (own peer : Ip) (nic : Nic) (net : Net) : Prop where
  localIp : net.localIp = own
  nic : net.nic = some nic
  unique : UniqueIps net.cache
  hop : resolveNextHop net peer = peer

/-- The broadcast that asks for an address, and the answer to it. -/
def question (own target : Ip) (nic : Nic) : List Byte :=
  arpFrame ethBroadcastMac nic.mac (arpPacket 1 nic.mac own (Vector.replicate 6 0) target)

def answer (own peer : Ip) (peerMac : Mac) (nic : Nic) : List Byte :=
  arpFrame peerMac nic.mac (arpPacket 2 nic.mac own peerMac peer)

section

variable {own peer : Ip} {nic : Nic} {net : Net}

theorem cacheLearn_eq (net : Net) (ip : Ip) (mac : Mac) :
    cacheLearn net ip mac = { net with cache := (cacheLearn net ip mac).cache } := by
  unfold cacheLearn
  split <;> rfl

theorem Ready.learn (h : Ready own peer nic net) (ip : Ip) (mac : Mac) :
    Ready own peer nic (cacheLearn net ip mac) := by
  obtain ⟨hu, -, -⟩ := cacheLearn_resolve h.unique (rfl : (cacheLearn net ip mac).cache = _)
  rw [cacheLearn_eq]
  exact ⟨h.localIp, h.nic, hu, h.hop⟩

/-- One that asks for this host's address is learnt and answered. -/
theorem Ready.hear_question (h : Ready own peer nic net) (other : Nic) :
    ∃ net', ethHandleFrame net (question peer own other) = some net' ∧ Ready own peer nic net' ∧
      net'.sent = net.sent ++ [answer own peer other.mac nic] ∧ net'.pingState = net.pingState ∧
      arpResolve net' peer = some other.mac := by
  obtain rfl := h.localIp
  have hl := h.learn peer other.mac
  obtain ⟨-, hself, -⟩ := cacheLearn_resolve h.unique (rfl : (cacheLearn net peer other.mac).cache = _)
  have hmac : netGetLocalMac (cacheLearn net peer other.mac) = nic.mac := by rw [netGetLocalMac, hl.nic]
  have hrun := ethHandleFrame_arp net ethBroadcastMac other.mac 1 other.mac (Vector.replicate 6 0) peer net.localIp
  rw [arpReceived] at hrun
  simp only at hrun
  rw [if_pos ⟨trivial, hl.localIp.symm⟩, ethSend_sent hl.nic _ _ (by rw [length_arpPacket]; decide), hmac] at hrun
  have hkept : (cacheLearn net peer other.mac).sent = net.sent ∧
      (cacheLearn net peer other.mac).pingState = net.pingState := by
    rw [cacheLearn_eq]
    exact ⟨rfl, rfl⟩
  refine ⟨_, hrun, ⟨hl.localIp, hl.nic, hl.unique, hl.hop⟩, ?_, hkept.2, hself⟩
  show (cacheLearn net peer other.mac).sent ++ [arpFrame other.mac nic.mac
    (arpPacket 2 nic.mac (cacheLearn net peer other.mac).localIp other.mac peer)] = _
  rw [hkept.1, hl.localIp]
  rfl

/-- The answer is learnt. -/
theorem Ready.hear_answer (h : Ready own peer nic net) (other : Nic) :
    ∃ net', ethHandleFrame net (answer peer own nic.mac other) = some net' ∧ Ready own peer nic net' ∧
      net'.sent = net.sent ∧ net'.pingState = net.pingState ∧ arpResolve net' peer = some other.mac := by
  have hl := h.learn peer other.mac
  obtain ⟨-, hself, -⟩ := cacheLearn_resolve h.unique (rfl : (cacheLearn net peer other.mac).cache = _)
  have hrun := ethHandleFrame_arp net nic.mac other.mac 2 other.mac nic.mac peer own
  rw [arpReceived, if_neg (by simp)] at hrun
  have hkept : (cacheLearn net peer other.mac).sent = net.sent ∧
      (cacheLearn net peer other.mac).pingState = net.pingState := by
    rw [cacheLearn_eq]
    exact ⟨rfl, rfl⟩
  exact ⟨_, hrun, hl, hkept.1, hkept.2, hself⟩

/-- A packet to the peer goes out when its address is known. -/
theorem Ready.send_known (h : Ready own peer nic net) {mac : Mac}
    (hk : arpResolve net peer = some mac) (protocol : Byte) {payload : List Byte}
    (hlen : payload.length ≤ ipMaxPacket) :
    ∃ identification, let frame := ipFrame mac nic.mac identification own peer protocol payload
      ∃ net', ipSend net peer protocol payload = (nic.send net.sent frame, net') ∧ Ready own peer nic net' ∧
        net'.sent = net.sent ++ [frame] ∧ net'.pingState = net.pingState := by
  obtain rfl := h.localIp
  rcases ipSend_sent h.nic peer protocol hlen with ⟨mac', hmac, hsend⟩ | ⟨hmac, -⟩
  · rw [h.hop, hk, Option.some_inj] at hmac
    subst hmac
    exact ⟨_, _, hsend, ⟨rfl, h.nic, h.unique, h.hop⟩, rfl, rfl⟩
  · rw [h.hop, hk] at hmac
    cases hmac

/-- When it is not known, the question for it goes out instead. -/
theorem Ready.send_unknown (h : Ready own peer nic net) (hk : arpResolve net peer = none) (protocol : Byte)
    {payload : List Byte} (hlen : payload.length ≤ ipMaxPacket) :
    ∃ net', ipSend net peer protocol payload = (0, net') ∧ Ready own peer nic net' ∧
      net'.sent = net.sent ++ [question own peer nic] := by
  rcases ipSend_sent h.nic peer protocol hlen with ⟨mac', hmac, -⟩ | ⟨-, hsend⟩
  · rw [h.hop, hk] at hmac
    cases hmac
  · rw [h.hop, arpRequest_sent h.nic] at hsend
    exact ⟨_, hsend, ⟨h.localIp, h.nic, h.unique, h.hop⟩, by rw [question, ← h.localIp]⟩

theorem Ready.hear_request (h : Ready own peer nic net) (dest src : Mac) (identification identifier sequence : Word16) :
    ethHandleFrame net (ipFrame dest src identification peer own ipProtoIcmp (echoMessage 8 identifier sequence)) =
      some (ipSend net peer ipProtoIcmp (echoMessage 0 identifier sequence)).2 := by
  rw [← h.localIp]
  exact ethHandleFrame_request identifier sequence

/-- The reply that the command waits for. -/
theorem Ready.hear_reply (h : Ready own peer nic net) (dest src : Mac) (identification : Word16)
    {identifier sequence : Word16} {replied : Bool} (hp : net.pingState = ⟨true, identifier, sequence, replied⟩) :
    ∃ net', ethHandleFrame net (ipFrame dest src identification peer own ipProtoIcmp
      (echoMessage 0 identifier sequence)) =
      some net' ∧ net'.sent = net.sent ∧ icmpReplyReceived net' identifier sequence = true := by
  have hrun := @ethHandleFrame_reply net dest src identification peer identifier sequence
  rw [if_pos (by rw [hp]; exact ⟨rfl, rfl, rfl⟩), h.localIp] at hrun
  exact ⟨_, hrun, rfl, by simp [icmpReplyReceived, hp]⟩

/-- A request goes out if the peer is known, else the question for it. -/
theorem Ready.request_known (h : Ready own peer nic net) {mac : Mac} (hk : arpResolve net peer = some mac)
    (identifier sequence : Word16) :
    ∃ identification,
      let frame := ipFrame mac nic.mac identification own peer ipProtoIcmp (echoMessage 8 identifier sequence)
      ∃ net', icmpSendEchoRequest net peer identifier sequence = (nic.send net.sent frame, net') ∧
        Ready own peer nic net' ∧ net'.sent = net.sent ++ [frame] ∧
          net'.pingState = ⟨true, identifier, sequence, false⟩ := by
  have hr : Ready own peer nic { net with pingState := ⟨true, identifier, sequence, false⟩ } :=
    ⟨h.localIp, h.nic, h.unique, h.hop⟩
  obtain ⟨identification, net', hsend, hr', hsent, hp⟩ :=
    @Ready.send_known _ _ _ _ hr mac hk ipProtoIcmp (echoMessage 8 identifier sequence)
      (by rw [length_echoMessage]; decide)
  exact ⟨identification, net', hsend, hr', hsent, hp⟩

theorem Ready.request_unknown (h : Ready own peer nic net) (hk : arpResolve net peer = none)
    (identifier sequence : Word16) :
    ∃ net', icmpSendEchoRequest net peer identifier sequence = (0, net') ∧ Ready own peer nic net' ∧
      net'.sent = net.sent ++ [question own peer nic] := by
  have hr : Ready own peer nic { net with pingState := ⟨true, identifier, sequence, false⟩ } :=
    ⟨h.localIp, h.nic, h.unique, h.hop⟩
  obtain ⟨net', hsend, hr', hsent⟩ :=
    @Ready.send_unknown _ _ _ _ hr hk ipProtoIcmp (echoMessage 8 identifier sequence)
      (by rw [length_echoMessage]; decide)
  exact ⟨net', hsend, hr', hsent⟩

end

end SpectreOS
