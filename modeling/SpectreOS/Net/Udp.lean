/-
A datagram from `udp_send` on one host to the callback on another: each layer's handler takes
apart what the same layer's sender put together, and both checksums verify.
-/
import SpectreOS.Net.Stack

namespace SpectreOS

open BlockIO

/-! ## Lengths -/

@[simp] theorem length_net16 (v : Word16) : (net16 v).length = 2 := rfl

@[simp] theorem length_net32 (v : Ip) : (net32 v).length = 4 := rfl

@[simp] theorem length_ipHeader (tl id c : Word16) (p : Byte) (s d : Ip) : (ipHeader tl id c p s d).length = 20 := rfl

@[simp] theorem length_udpHeader (s d l c : Word16) : (udpHeader s d l c).length = 8 := rfl

@[simp] theorem length_ethBuildHeader (d s : Mac) (t : Word16) : (ethBuildHeader d s t).length = 14 := by
  simp [ethBuildHeader]

theorem readBytes_append {l m : List Byte} {n : Nat} (h : l.length = n) : readBytes (l ++ m) n = some l := by
  subst h
  simp [readBytes]

/-! ## The layers -/

/-- The header's words add up to those with a zero checksum field and the checksum. -/
theorem wordSum_ipHeader (tl id c : Word16) (p : Byte) (s d : Ip) :
    wordSum (ipHeader tl id c p s d) = wordSum (ipHeader tl id 0 p s d) + c.toNat := by
  obtain ⟨front, back, hfront, hsplit⟩ : ∃ front back : List Byte, front.length % 2 = 0 ∧
      ∀ c, ipHeader tl id c p s d = front ++ (net16 c ++ back) :=
    ⟨[0x45, 0] ++ net16 tl ++ net16 id ++ net16 0 ++ [64, p], net32 s ++ net32 d, by simp, fun c => rfl⟩
  have hsum : ∀ c, wordSum (ipHeader tl id c p s d) = wordSum front + (c.toNat + wordSum back) := by
    intro c
    rw [hsplit c, wordSum_append hfront, wordSum_append (by simp), wordSum_net16]
  have h0 : BitVec.toNat (0 : Word16) = 0 := rfl
  rw [hsum c, hsum 0, h0]
  omega

/-- The header `ip_send` builds verifies. -/
theorem internetChecksum_ipHeader (tl id : Word16) (p : Byte) (s d : Ip) :
    internetChecksum (ipHeader tl id (internetChecksum (ipHeader tl id 0 p s d)) p s d) = 0 := by
  have hle := wordSum_le (ipHeader tl id 0 p s d)
  rw [length_ipHeader] at hle
  have hsum : checksumAdd 0 (ipHeader tl id 0 p s d) = wordSum (ipHeader tl id 0 p s d) := by
    rw [checksumAdd_of_lt (by omega), Nat.zero_add]
  have hc := (internetChecksum (ipHeader tl id 0 p s d)).isLt
  conv_lhs => rw [internetChecksum]
  rw [checksumAdd_of_lt (by rw [wordSum_ipHeader]; omega), Nat.zero_add, wordSum_ipHeader]
  have := checksumFinish_verify (wordSum (ipHeader tl id 0 p s d))
  rwa [← hsum] at this ⊢

/-- Ethernet: a frame of `eth_send` with an IPv4 packet reaches the IP layer with its padding. -/
theorem ethHandleFrame_ipv4 (net : Net) (dest src : Mac) (packet : List Byte) :
    ∃ pad, ethHandleFrame net (padFrame (ethBuildHeader dest src ethertypeIpv4 ++ packet)) =
      ipHandlePacket net (packet ++ pad) (packet ++ pad).length := by
  refine ⟨List.replicate (60 - (ethBuildHeader dest src ethertypeIpv4 ++ packet).length) (0 : Byte), ?_⟩
  unfold padFrame
  generalize List.replicate (60 - (ethBuildHeader dest src ethertypeIpv4 ++ packet).length) (0 : Byte) = pad
  have htype : netRead16 (ethBuildHeader dest src ethertypeIpv4 ++ packet ++ pad) 12 = some ethertypeIpv4 := by
    have hat : (ethBuildHeader dest src ethertypeIpv4 ++ packet ++ pad).drop 12 =
        net16 ethertypeIpv4 ++ (packet ++ pad) := by
      rw [List.append_assoc, ethBuildHeader, List.append_assoc (dest.toList ++ src.toList), List.drop_left' (by simp)]
    exact netRead16_net16 hat
  have hdrop : (ethBuildHeader dest src ethertypeIpv4 ++ packet ++ pad).drop ethHeaderLen = packet ++ pad := by
    rw [List.append_assoc, List.drop_left' (by simp)]
  have hlen : (ethBuildHeader dest src ethertypeIpv4 ++ packet ++ pad).length - ethHeaderLen =
    (packet ++ pad).length := by
    simp
  unfold ethHandleFrame
  rw [if_neg (by simp)]
  simp only [htype, hdrop, hlen, Option.bind_eq_bind, Option.bind_some]
  rfl

/-- The header `ip_send` puts before a payload. -/
def sentHeader (net : Net) (dest : Ip) (protocol : Byte) (payload : List Byte) : List Byte :=
  let header := fun checksum => ipHeader (BitVec.ofNat 16 (ipHeaderLen + payload.length))
    net.nextIdentification checksum protocol net.localIp dest
  header (internetChecksum (header 0))

@[simp] theorem length_sentHeader (net : Net) (dest : Ip) (protocol : Byte) (payload : List Byte) :
    (sentHeader net dest protocol payload).length = 20 := rfl

/-- IP: with the next hop resolved, a packet is handed to the NIC in one frame. -/
theorem ipSend_resolved {net : Net} {nic : Nic} (hnic : net.nic = some nic) {dest : Ip} {mac : Mac}
    (hmac : arpResolve net (resolveNextHop net dest) = some mac) (protocol : Byte) {payload : List Byte}
    (hlen : payload.length ≤ ipMaxPacket) :
    let frame := padFrame (ethBuildHeader mac nic.mac ethertypeIpv4 ++
      (sentHeader net dest protocol payload ++ payload))
    ipSend net dest protocol payload = (nic.send net.sent frame,
      { net with nextIdentification := net.nextIdentification + 1, sent := net.sent ++ [frame] }) := by
  have hsend : ¬ (sentHeader net dest protocol payload ++ payload).length > ethMaxFrame - ethHeaderLen := by
    rw [List.length_append, length_sentHeader]
    simp only [ethMaxFrame, ethHeaderLen, ipMaxPacket] at *
    omega
  unfold ipSend
  rw [if_neg (by omega)]
  simp only [hmac, ethSend, hnic]
  exact if_neg hsend

/-- IP: a packet of `ip_send` to this host reaches the layer of its protocol without the padding. -/
theorem ipHandlePacket_send (net : Net) (id : Word16) (protocol : Byte) (source : Ip) (payload pad : List Byte)
    (hlen : payload.length ≤ ipMaxPacket) :
    let header := fun c => ipHeader (BitVec.ofNat 16 (ipHeaderLen + payload.length)) id c protocol source net.localIp
    ipHandlePacket net (header (internetChecksum (header 0)) ++ payload ++ pad)
        (header (internetChecksum (header 0)) ++ payload ++ pad).length =
      if protocol = ipProtoIcmp then icmpHandlePacket net source (payload ++ pad) payload.length
      else if protocol = ipProtoUdp then udpHandlePacket net source (payload ++ pad) payload.length
      else some net := by
  intro header
  have hver : internetChecksum (header (internetChecksum (header 0))) = 0 := internetChecksum_ipHeader ..
  generalize internetChecksum (header 0) = c at hver
  have hhead : readBytes (header c ++ payload ++ pad) 20 = some (header c) := by
    rw [List.append_assoc]
    exact readBytes_append rfl
  have htl : netRead16 (header c ++ payload ++ pad) 2 = some (BitVec.ofNat 16 (ipHeaderLen + payload.length)) :=
    netRead16_net16 rfl
  have hflags : netRead16 (header c ++ payload ++ pad) 6 = some 0 := netRead16_net16 rfl
  have hsrc : netRead32 (header c ++ payload ++ pad) 12 = some source := netRead32_net32 rfl
  have hdst : netRead32 (header c ++ payload ++ pad) 16 = some net.localIp := netRead32_net32 rfl
  have hdrop : (header c ++ payload ++ pad).drop 20 = payload ++ pad := rfl
  have htot : (BitVec.ofNat 16 (ipHeaderLen + payload.length)).toNat = 20 + payload.length := by
    rw [BitVec.toNat_ofNat, Nat.mod_eq_of_lt (by simp only [ipHeaderLen, ipMaxPacket] at *; omega)]
  have hl : (header c ++ payload ++ pad).length = 20 + payload.length + pad.length := by
    simp only [List.length_append]
    rfl
  have h0 : (header c ++ payload ++ pad)[0]? = some 0x45 := rfl
  have h9 : (header c ++ payload ++ pad)[9]? = some protocol := rfl
  rw [hl]
  unfold ipHandlePacket
  rw [if_neg (by simp only [ipHeaderLen]; omega)]
  simp only [h0, Option.bind_eq_bind, Option.bind_some]
  have hihl : BitVec.toNat (0x45 : Byte) % 16 * 4 = 20 := rfl
  rw [hihl, if_neg (by decide), if_neg (by omega)]
  simp only [hhead, Option.bind_some, hver, ne_eq,
    not_true_eq_false, if_false, hflags, htl, h9, hsrc, hdst, hdrop]
  rw [if_neg (by decide), htot, if_neg (by omega), Nat.add_sub_cancel_left]
  rfl

/-- UDP: a packet of `udp_send` to this host is delivered, once, to the callback of its port. -/
theorem udpHandlePacket_deliver (net : Net) (source : Ip) (srcPort destPort : Word16) (data pad : List Byte)
    (hlen : data.length ≤ udpMaxPayload) {i : Fin 4} (hi : udpFind net destPort = some i) :
    let header := udpHeader srcPort destPort (BitVec.ofNat 16 (udpHeaderLen + data.length))
    let packet := header (udpChecksum source net.localIp (header 0 ++ data)) ++ data
    udpHandlePacket net source (packet ++ pad) packet.length =
      some { net with delivered := net.delivered ++ [⟨(net.bindings i).callback, source, srcPort, data⟩] } := by
  intro header packet
  obtain ⟨c, hc⟩ : ∃ c, c = udpChecksum source net.localIp (header 0 ++ data) := ⟨_, rfl⟩
  have hpacket : packet = header c ++ data := by rw [hc]
  have hne : c ≠ 0 := by
    rw [hc]
    unfold udpChecksum
    simp only
    split
    · decide
    · assumption
  rw [hpacket]
  clear_value packet
  have hul : (BitVec.ofNat 16 (udpHeaderLen + data.length)).toNat = 8 + data.length := by
    rw [BitVec.toNat_ofNat, Nat.mod_eq_of_lt (by simp only [udpHeaderLen, udpMaxPayload] at *; omega)]
  have hl : (header c ++ data).length = 8 + data.length := by
    rw [List.length_append]
    rfl
  have h0 : netRead16 (header c ++ data ++ pad) 0 = some srcPort := netRead16_net16 rfl
  have h2 : netRead16 (header c ++ data ++ pad) 2 = some destPort := netRead16_net16 rfl
  have h4 : netRead16 (header c ++ data ++ pad) 4 = some (BitVec.ofNat 16 (udpHeaderLen + data.length)) :=
    netRead16_net16 rfl
  have h6 : netRead16 (header c ++ data ++ pad) 6 = some c := netRead16_net16 rfl
  have hver : udpVerified net source (header c ++ data ++ pad) (8 + data.length) c = some true := by
    have hz : netWrite16 (header c ++ data) 6 0 = header 0 ++ data := rfl
    unfold udpVerified
    rw [if_neg hne, min_eq_left (by simp only [udpHeaderLen, udpMaxPayload] at *; omega), readBytes_append hl]
    simp only [Option.bind_eq_bind, Option.bind_some, hz, ← hc, beq_self_eq_true]
    rfl
  have hdata : readBytes ((header c ++ data ++ pad).drop udpHeaderLen) (8 + data.length - udpHeaderLen) =
    some data := by
    have hd : (header c ++ data ++ pad).drop udpHeaderLen = data ++ pad := rfl
    rw [hd]
    exact readBytes_append (by simp)
  rw [hl]
  unfold udpHandlePacket
  rw [if_neg (by simp only [udpHeaderLen]; omega)]
  simp only [h0, h2, h4, h6, Option.bind_eq_bind, Option.bind_some]
  rw [hul, if_neg (by simp only [udpHeaderLen]; omega),
    if_neg (by simp only [udpHeaderLen, udpMaxPayload] at *; omega), hver]
  simp only [Option.bind_some, hi]
  rw [hdata]
  rfl

/-- End to end: with the next hop resolved, `udp_send` answers what the NIC's driver answers to the
one frame it is handed, and that frame, received by the host it is for, calls the callback bound to
the port once, with the sender's address and port and the bytes that were sent. -/
theorem udp_end_to_end (a b : Net) {nic : Nic} (hnic : a.nic = some nic) {mac : Mac}
    (hmac : arpResolve a (resolveNextHop a b.localIp) = some mac) {port : Word16} {i : Fin 4}
    (hport : udpFind b port = some i) (srcPort : Word16) {data : List Byte} (hdata : data.length ≤ udpMaxPayload) :
    ∃ frame, (udpSend a b.localIp port srcPort data).1 = nic.send a.sent frame ∧
      (udpSend a b.localIp port srcPort data).2 =
        { a with nextIdentification := a.nextIdentification + 1, sent := a.sent ++ [frame] } ∧
      ethHandleFrame b frame =
        some { b with delivered := b.delivered ++ [⟨(b.bindings i).callback, a.localIp, srcPort, data⟩] } := by
  unfold udpSend
  rw [if_neg (by omega)]
  simp only
  obtain ⟨packet, hpacket⟩ : ∃ packet, packet = udpHeader srcPort port (BitVec.ofNat 16 (udpHeaderLen + data.length))
    (udpChecksum a.localIp b.localIp
      (udpHeader srcPort port (BitVec.ofNat 16 (udpHeaderLen + data.length)) 0 ++ data)) ++ data := ⟨_, rfl⟩
  have hudp := fun pad => udpHandlePacket_deliver b a.localIp srcPort port data pad hdata hport
  simp only [← hpacket] at hudp ⊢
  have hlen : packet.length ≤ ipMaxPacket := by
    rw [hpacket, List.length_append, length_udpHeader]
    simp only [ipMaxPacket, udpMaxPayload] at *
    omega
  have hip := fun pad => ipHandlePacket_send b a.nextIdentification ipProtoUdp a.localIp packet pad hlen
  simp only [if_neg (show ¬ ipProtoUdp = ipProtoIcmp by decide), if_true] at hip
  rw [ipSend_resolved hnic hmac ipProtoUdp hlen]
  refine ⟨_, rfl, rfl, ?_⟩
  obtain ⟨pad, hpad⟩ := ethHandleFrame_ipv4 b mac nic.mac (sentHeader a b.localIp ipProtoUdp packet ++ packet)
  rw [hpad]
  exact (hip pad).trans (hudp pad)

/-- A host with one NIC whose sends succeed, that knows the address of one peer and has port 7
bound. -/
def peerHost (localIp peerIp : Ip) : Net where
  localIp := localIp
  gatewayIp := 0
  subnetMask := 0
  nic := some ⟨Vector.replicate 6 1, fun _ _ => 1⟩
  cache := fun i => ⟨peerIp, Vector.replicate 6 2, i == 0⟩
  nextIdentification := 1
  pingState := ⟨false, 0, 0, false⟩
  bindings := fun i => ⟨7, 0, i == 0⟩
  sent := []
  delivered := []

/-- Three bytes, an odd number: the checksum pads the last one. -/
theorem udp_end_to_end_odd :
    ∃ frame, (udpSend (peerHost 1 2) 2 7 5 [0x68, 0x69, 0x21]).1 = 1 ∧
      (udpSend (peerHost 1 2) 2 7 5 [0x68, 0x69, 0x21]).2.sent = [frame] ∧
      (ethHandleFrame (peerHost 2 1) frame).map (·.delivered) = some [⟨0, 1, 5, [0x68, 0x69, 0x21]⟩] := by
  obtain ⟨frame, hret, hsent, hrecv⟩ := @udp_end_to_end (peerHost 1 2) (peerHost 2 1) _ rfl (Vector.replicate 6 2)
    (by decide) 7 0 (by decide) 5 [0x68, 0x69, 0x21] (by decide)
  exact ⟨frame, hret, congrArg Net.sent hsent, by rw [hrecv]; rfl⟩

end SpectreOS
