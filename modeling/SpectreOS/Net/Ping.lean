/-
The answer to an ICMP echo request: one packet to the sender that repeats the request's bytes from
the identifier on, as far as the reply buffer of 576 bytes holds them, under checksums that this
same stack accepts.
-/
import SpectreOS.Net.Laws
import SpectreOS.Net.Udp

namespace SpectreOS

open BlockIO

/-! ## The reply -/

/-- The reply to an echo request: the bytes that fit, with type and code 0 and the checksum made
anew. -/
def echoReply (request : List Byte) : List Byte :=
  let cleared := netWrite16 (((request.take 576).set 0 0).set 1 0) 2 0
  netWrite16 cleared 2 (internetChecksum cleared)

section

variable {request : List Byte}

@[simp] theorem length_netWrite16 (p : List Byte) (off : Nat) (v : Word16) :
    (netWrite16 p off v).length = p.length := by
  simp [netWrite16]

theorem drop_netWrite16 (p : List Byte) (v : Word16) : (netWrite16 p 2 v).drop 4 = p.drop 4 := by
  unfold netWrite16
  rw [List.drop_set_of_lt (by omega), List.drop_set_of_lt (by omega)]

theorem getElem?_netWrite16_of_lt (p : List Byte) (v : Word16) {i : Nat} (hi : i < 2) :
    (netWrite16 p 2 v)[i]? = p[i]? := by
  unfold netWrite16
  rw [List.getElem?_set_ne (by omega), List.getElem?_set_ne (by omega)]

theorem netRead16_netWrite16 {p : List Byte} {off : Nat} (h : off + 2 ≤ p.length) (v : Word16) :
    netRead16 (netWrite16 p off v) off = some v := by
  obtain ⟨w, hw⟩ : ∃ w, netRead16 p off = some w := by
    unfold netRead16
    rw [List.getElem?_eq_getElem (by omega), List.getElem?_eq_getElem (by omega)]
    exact ⟨_, rfl⟩
  obtain ⟨front, back, -, rfl, hset⟩ := netRead16_split hw
  rw [hset]
  exact netRead16_net16 List.drop_left

@[simp] theorem length_echoReply : (echoReply request).length = min request.length 576 := by
  simp [echoReply, Nat.min_comm]

theorem echoReply_drop : (echoReply request).drop 4 = (request.take 576).drop 4 := by
  unfold echoReply
  rw [drop_netWrite16, drop_netWrite16, List.drop_set_of_lt (by omega), List.drop_set_of_lt (by omega)]

/-- Type and code of the reply. -/
theorem echoReply_getElem? (h : 2 ≤ request.length) {i : Nat} (hi : i < 2) : (echoReply request)[i]? = some 0 := by
  have hlen : 2 ≤ (request.take 576).length := by
    rw [List.length_take]
    omega
  unfold echoReply
  rw [getElem?_netWrite16_of_lt _ _ hi, getElem?_netWrite16_of_lt _ _ hi]
  obtain rfl | rfl : i = 0 ∨ i = 1 := by omega
  · rw [List.getElem?_set_ne (by omega), List.getElem?_set_self (by omega)]
  · rw [List.getElem?_set_self (by rw [List.length_set]; omega)]

theorem echoReply_verifies (h : icmpHeaderLen ≤ request.length) : internetChecksum (echoReply request) = 0 := by
  have hlen : 4 ≤ (request.take 576).length := by
    rw [List.length_take]
    simp only [icmpHeaderLen] at h
    omega
  have hle : (request.take 576).length ≤ 576 := by
    rw [List.length_take]
    omega
  unfold echoReply
  apply internetChecksum_insert
  · simp only [length_netWrite16, List.length_set]
    omega
  · rfl
  · exact netRead16_netWrite16 (by simp only [List.length_set]; omega) 0

end

/-! ## The exchange -/

/-- A request that passes the checksum is answered by sending the reply. -/
theorem icmpHandlePacket_request (net : Net) (sourceIp : Ip) {payload : List Byte} {length : Nat}
    (hmin : icmpHeaderLen ≤ length) (hbuf : length ≤ payload.length)
    (hver : internetChecksum (payload.take length) = 0) (htype : payload[0]? = some 8) :
    icmpHandlePacket net sourceIp payload length =
      some (ipSend net sourceIp ipProtoIcmp (echoReply (payload.take length))).2 := by
  have hdata : readBytes payload length = some (payload.take length) := if_pos hbuf
  have hreply : readBytes payload (min length 576) = some ((payload.take length).take 576) := by
    unfold readBytes
    rw [if_pos (by omega), List.take_take, Nat.min_comm]
  unfold icmpHandlePacket
  rw [if_neg (by omega)]
  simp only [hdata, hreply, htype, Option.bind_eq_bind, Option.bind_some, hver, ne_eq, not_true_eq_false, ↓reduceIte]
  rfl

/-- An echo request from a host the next hop to which is resolved is answered by one IPv4 packet to
it: an echo reply with the request's bytes from the identifier on, cut to 576 bytes in all. The host
it is for takes the packet past the checks of IP and ICMP. -/
theorem ping_answered (net : Net) {nic : Nic} (hnic : net.nic = some nic) {sourceIp : Ip} {mac : Mac}
    (hmac : arpResolve net (resolveNextHop net sourceIp) = some mac) {payload : List Byte} {length : Nat}
    (hmin : icmpHeaderLen ≤ length) (hmax : length ≤ ipMaxPacket) (hbuf : length ≤ payload.length)
    (hver : internetChecksum (payload.take length) = 0) (htype : payload[0]? = some 8) :
    ∃ header reply frame,
      frame = padFrame (ethBuildHeader mac nic.mac ethertypeIpv4 ++ (header ++ reply)) ∧
      icmpHandlePacket net sourceIp payload length = some { net with
        nextIdentification := net.nextIdentification + 1, sent := net.sent ++ [frame] } ∧
      reply.length = min length 576 ∧ reply[0]? = some 0 ∧ reply[1]? = some 0 ∧
      reply.drop 4 = (payload.take (min length 576)).drop 4 ∧
      internetChecksum header = 0 ∧ internetChecksum reply = 0 ∧
      ∀ receiver : Net, receiver.localIp = sourceIp → ∃ pad,
        ethHandleFrame receiver frame = icmpHandlePacket receiver net.localIp (reply ++ pad) reply.length := by
  obtain ⟨request, hrequest⟩ : ∃ request, request = payload.take length := ⟨_, rfl⟩
  have hlen : request.length = length := by
    rw [hrequest, List.length_take]
    omega
  have hcut : request.take 576 = payload.take (min length 576) := by
    rw [hrequest, List.take_take, Nat.min_comm]
  have hreply : (echoReply request).length ≤ ipMaxPacket := by
    rw [length_echoReply]
    omega
  have hhandle := icmpHandlePacket_request net sourceIp hmin hbuf hver htype
  rw [← hrequest, ipSend_resolved hnic hmac ipProtoIcmp hreply] at hhandle
  refine ⟨sentHeader net sourceIp ipProtoIcmp (echoReply request), echoReply request, _, rfl, hhandle, ?_, ?_, ?_, ?_,
    ?_, ?_, fun receiver hreceiver => ?_⟩
  · rw [length_echoReply, hlen]
  · exact echoReply_getElem? (by simp only [icmpHeaderLen] at hmin; omega) (by omega)
  · exact echoReply_getElem? (by simp only [icmpHeaderLen] at hmin; omega) (by omega)
  · rw [echoReply_drop, hcut]
  · exact internetChecksum_ipHeader ..
  · exact echoReply_verifies (by omega)
  · obtain ⟨pad, hpad⟩ := ethHandleFrame_ipv4 receiver mac nic.mac
      (sentHeader net sourceIp ipProtoIcmp (echoReply request) ++ echoReply request)
    refine ⟨pad, ?_⟩
    rw [hpad]
    subst hreceiver
    exact ipHandlePacket_send receiver net.nextIdentification ipProtoIcmp net.localIp (echoReply request) pad hreply

/-- A request of eight bytes and one of data. -/
theorem ping_answered_byte : ∃ reply : List Byte, reply.length = 9 ∧ reply[8]? = some 0x61 ∧
    internetChecksum reply = 0 := by
  have hver : internetChecksum ([8, 0, 0x96, 0xFF, 0, 0, 0, 0, 0x61] : List Byte) = 0 := by
    rw [internetChecksum, checksumFinish_eq_zero]
    decide
  obtain ⟨-, reply, -, -, -, hlen, -, -, hdrop, -, hsum, -⟩ := @ping_answered (peerHost 1 2) _ rfl 2
    (Vector.replicate 6 2) (by decide) [8, 0, 0x96, 0xFF, 0, 0, 0, 0, 0x61] 9 (by decide)
      (by decide) (by decide) hver rfl
  have hbyte : (reply.drop 4)[4]? = some 0x61 := by
    rw [hdrop]
    rfl
  rw [List.getElem?_drop] at hbyte
  exact ⟨reply, hlen, hbyte, hsum⟩

/-! ## Longer requests -/

/-- An echo request of 577 bytes, all zero but for type and checksum. -/
def longPing : List Byte := [8, 0, 0xF7, 0xFF] ++ List.replicate 573 0

theorem length_longPing : longPing.length = 577 := by
  rw [longPing, List.length_append, List.length_replicate]
  rfl

theorem wordSum_zeros (n : Nat) : wordSum (List.replicate n 0) = 0 := by
  induction n using Nat.strongRecOn with
  | ind n ih =>
    match n, ih with
    | 0, _ => rfl
    | 1, _ => rfl
    | n + 2, ih => rw [List.replicate_succ, List.replicate_succ, wordSum, ih n (by omega)]; rfl

theorem longPing_verifies : internetChecksum longPing = 0 := by
  have hsum : wordSum longPing = 65535 := by
    unfold longPing
    rw [wordSum_append (by rfl), wordSum_zeros]
    rfl
  rw [internetChecksum, checksumAdd_zero (by rw [length_longPing]; omega), hsum, checksumFinish_eq_zero]
  decide

/-- No packet that answers the request of 577 bytes has an ICMP message of that length. -/
theorem ping_cut : arpResolve (peerHost 1 2) (resolveNextHop (peerHost 1 2) 2) = some (Vector.replicate 6 2) ∧
    longPing.length = 577 ∧ longPing[0]? = some 8 ∧ internetChecksum longPing = 0 ∧
    ¬ ∃ header reply : List Byte, header.length = ipHeaderLen ∧ reply.length = 577 ∧
      (icmpHandlePacket (peerHost 1 2) 2 longPing 577).map Net.sent =
        some [padFrame (ethBuildHeader (Vector.replicate 6 2) (Vector.replicate 6 1) ethertypeIpv4 ++
          (header ++ reply))] := by
  have hlen := length_longPing
  have hwhole : longPing.take 577 = longPing := List.take_of_length_le (by omega)
  refine ⟨by decide, hlen, rfl, longPing_verifies, ?_⟩
  rintro ⟨header, reply, hheader, hreply, hsent⟩
  have hecho : (echoReply longPing).length = 576 := by
    rw [length_echoReply, hlen]
    rfl
  rw [icmpHandlePacket_request (peerHost 1 2) 2 (by decide) (by omega) (by rw [hwhole]; exact longPing_verifies) rfl,
    hwhole, ipSend_resolved rfl (show _ = some (Vector.replicate 6 2) by decide) ipProtoIcmp (by rw [hecho]; decide),
    Option.map_some, Option.some.injEq] at hsent
  have hframe := congrArg List.length (List.cons.inj hsent).1
  simp only [padFrame, List.length_append, List.length_replicate, length_ethBuildHeader, length_sentHeader, hecho,
    hheader, hreply, ipHeaderLen] at hframe
  omega

end SpectreOS
