/-
The memory that the receive path touches. The handlers are written once more over the memory that a
frame lies in, with every byte they read of it, every byte they read and write of their own fixed
buffers and every range they hand to a callback; what they compute is what the handlers of the stack
compute, and no access leaves the frame or the buffer.
-/
import SpectreOS.Net.Stack
import SpectreOS.Lib.Traced

namespace SpectreOS

open BlockIO Traced

/-! ## Accesses -/

/-- The arrays on the stack of the handlers. -/
inductive NetBuffer where
  | arpReply
  | icmpReply
  | verifyPacket
  deriving DecidableEq, Repr

def NetBuffer.size : NetBuffer → Nat
  | arpReply => arpHeaderLen
  | icmpReply => 576
  | verifyPacket => udpHeaderLen + udpMaxPayload

/-- An access to memory; positions in the frame are counted from its first byte. -/
inductive Access where
  | frame (index : Nat)
  | load (buffer : NetBuffer) (index : Nat)
  | store (buffer : NetBuffer) (index : Nat)
  | callback (offset length : Nat)
  deriving DecidableEq, Repr

/-- The access stays inside a frame of `size` bytes, or inside the buffer; a callback gets a part of
the frame that a payload fits in. -/
def Access.InBounds (size : Nat) : Access → Prop
  | frame index => index < size
  | load buffer index => index < buffer.size
  | store buffer index => index < buffer.size
  | callback offset length => offset + length ≤ size ∧ length ≤ udpMaxPayload

section Handlers

variable (mem : Nat → Byte)

def peek (index : Nat) : Traced Access Byte := do
  emit [.frame index]
  return mem index

/-- `net_read16` of the frame. -/
def peek16 (index : Nat) : Traced Access Word16 := do
  let hi ← peek mem index
  let lo ← peek mem (index + 1)
  return BitVec.ofNat 16 (256 * hi.toNat + lo.toNat)

/-- `net_read32` of the frame. -/
def peek32 (index : Nat) : Traced Access (BitVec 32) := do
  let a ← peek mem index
  let b ← peek mem (index + 1)
  let c ← peek mem (index + 2)
  let d ← peek mem (index + 3)
  return BitVec.ofNat 32 (2 ^ 24 * a.toNat + 2 ^ 16 * b.toNat + 2 ^ 8 * c.toNat + d.toNat)

/-- A loop over bytes of the frame. -/
def peekBytes (index length : Nat) : Traced Access (List Byte) := do
  emit ((List.range length).map fun k => .frame (index + k))
  return (List.range length).map fun k => mem (index + k)

def peekMac (index : Nat) : Traced Access Mac := do
  emit ((List.range 6).map fun k => .frame (index + k))
  return Vector.ofFn fun k : Fin 6 => mem (index + k)

def storeBytes (buffer : NetBuffer) (index length : Nat) : Traced Access Unit :=
  emit ((List.range length).map fun k => .store buffer (index + k))

def loadBytes (buffer : NetBuffer) (length : Nat) : Traced Access Unit :=
  emit ((List.range length).map fun k => .load buffer k)

/-! ## The handlers -/

/-- `arp_handle_packet` on the payload at `base`. -/
def arpTraced (net : Net) (base length : Nat) : Traced Access Net :=
  if length < arpHeaderLen then pure net
  else do
    let htype ← peek16 mem base
    let ptype ← peek16 mem (base + 2)
    let opcode ← peek16 mem (base + 6)
    if htype ≠ 1 ∨ ptype ≠ 0x0800 then return net
    else
      let senderIp ← peek32 mem (base + 14)
      let targetIp ← peek32 mem (base + 24)
      let senderMac ← peekMac mem (base + 8)
      let learnt := cacheLearn net senderIp senderMac
      if opcode = 1 ∧ targetIp = learnt.localIp then
        storeBytes .arpReply 0 18
        -- the sender's address is read from the frame again, for the reply and for its header
        let _ ← peekMac mem (base + 8)
        storeBytes .arpReply 18 6
        storeBytes .arpReply 24 4
        let _ ← peekMac mem (base + 8)
        loadBytes .arpReply arpHeaderLen
        return (ethSend learnt senderMac ethertypeArp
          (arpPacket 2 (netGetLocalMac learnt) learnt.localIp senderMac senderIp)).2
      else return learnt

/-- `icmp_handle_packet`. -/
def icmpTraced (net : Net) (sourceIp : Ip) (base length : Nat) : Traced Access Net :=
  if length < icmpHeaderLen then pure net
  else do
    let data ← peekBytes mem base length
    if internetChecksum data ≠ 0 then return net
    else
      let type ← peek mem base
      if type = 8 then
        let replyLength := min length 576
        let reply ← peekBytes mem base replyLength
        storeBytes .icmpReply 0 replyLength
        storeBytes .icmpReply 0 4
        let reply := netWrite16 ((reply.set 0 0).set 1 0) 2 0
        loadBytes .icmpReply replyLength
        storeBytes .icmpReply 2 2
        loadBytes .icmpReply replyLength
        return (ipSend net sourceIp ipProtoIcmp (netWrite16 reply 2 (internetChecksum reply))).2
      else if type = 0 then
        let identifier ← peek16 mem (base + 4)
        let sequence ← peek16 mem (base + 6)
        if net.pingState.outstanding ∧ net.pingState.identifier = identifier ∧
            net.pingState.sequence = sequence then
          return { net with pingState := { net.pingState with replyReceived := true } }
        else return net
      else return net

/-- The check of the checksum in `udp_handle_packet`. -/
def udpVerifiedTraced (net : Net) (sourceIp : Ip) (base udpLength : Nat) (checksum : Word16) : Traced Access Bool :=
  if checksum = 0 then pure true
  else do
    let verifyLength := min udpLength (udpHeaderLen + udpMaxPayload)
    let verifyPacket ← peekBytes mem base verifyLength
    storeBytes .verifyPacket 0 verifyLength
    storeBytes .verifyPacket 6 2
    loadBytes .verifyPacket verifyLength
    return udpChecksum sourceIp net.localIp (netWrite16 verifyPacket 6 0) == checksum

/-- `udp_handle_packet`. -/
def udpTraced (net : Net) (sourceIp : Ip) (base length : Nat) : Traced Access Net :=
  if length < udpHeaderLen then pure net
  else do
    let sourcePort ← peek16 mem base
    let destPort ← peek16 mem (base + 2)
    let udpLength ← peek16 mem (base + 4)
    let checksum ← peek16 mem (base + 6)
    if udpLength.toNat > length ∨ udpLength.toNat < udpHeaderLen then return net
    else if udpLength.toNat > udpHeaderLen + udpMaxPayload then return net
    else
      let verified ← udpVerifiedTraced mem net sourceIp base udpLength.toNat checksum
      if !verified then return net
      else
        match udpFind net destPort with
        | none => return net
        | some i =>
          -- the callback is given the bytes where they are
          let dataLength := udpLength.toNat - udpHeaderLen
          emit [.callback (base + udpHeaderLen) dataLength]
          let data := (List.range dataLength).map fun k => mem (base + udpHeaderLen + k)
          return { net with delivered := net.delivered ++ [⟨(net.bindings i).callback, sourceIp, sourcePort, data⟩] }

/-- `ip_handle_packet`. -/
def ipTraced (net : Net) (base length : Nat) : Traced Access Net :=
  if length < ipHeaderLen then pure net
  else do
    let first ← peek mem base
    let headerLength := first.toNat % 16 * 4
    if first.toNat / 16 ≠ 4 ∨ first.toNat % 16 < 5 then return net
    else if length < headerLength then return net
    else
      let header ← peekBytes mem base headerLength
      if internetChecksum header ≠ 0 then return net
      else
        let flagsAndOffset ← peek16 mem (base + 6)
        if flagsAndOffset &&& 0x3FFF ≠ 0 then return net
        else
          let totalLength ← peek16 mem (base + 2)
          if totalLength.toNat > length ∨ totalLength.toNat < headerLength then return net
          else
            let protocol ← peek mem (base + 9)
            let sourceIp ← peek32 mem (base + 12)
            let destIp ← peek32 mem (base + 16)
            if destIp ≠ net.localIp then return net
            else if protocol = ipProtoIcmp then
              icmpTraced mem net sourceIp (base + headerLength) (totalLength.toNat - headerLength)
            else if protocol = ipProtoUdp then
              udpTraced mem net sourceIp (base + headerLength) (totalLength.toNat - headerLength)
            else return net

/-- `eth_handle_frame` on a frame of `length` bytes at the start of the memory. -/
def ethTraced (net : Net) (length : Nat) : Traced Access Net :=
  if length < ethHeaderLen then pure net
  else do
    let ethertype ← peek16 mem 12
    if ethertype = ethertypeArp then arpTraced mem net ethHeaderLen (length - ethHeaderLen)
    else if ethertype = ethertypeIpv4 then ipTraced mem net ethHeaderLen (length - ethHeaderLen)
    else return net

end Handlers

/-! ## Bounds -/

section Bounds

variable {mem : Nat → Byte} {size index length base : Nat}

@[simp] theorem peek_inBounds : (peek mem index).All (Access.InBounds size) ↔ index < size := by
  simp [peek, Access.InBounds]

@[simp] theorem peek16_inBounds : (peek16 mem index).All (Access.InBounds size) ↔ index + 1 < size := by
  simp [peek16]
  omega

@[simp] theorem peek32_inBounds : (peek32 mem index).All (Access.InBounds size) ↔ index + 3 < size := by
  simp [peek32]
  omega

theorem peekBytes_inBounds (h : index + length ≤ size) : (peekBytes mem index length).All (Access.InBounds size) := by
  simp only [peekBytes, all_bind, all_emit, all_pure, and_true, List.forall_mem_map, List.mem_range, Access.InBounds]
  omega

theorem peekMac_inBounds (h : index + 6 ≤ size) : (peekMac mem index).All (Access.InBounds size) := by
  simp only [peekMac, all_bind, all_emit, all_pure, and_true, List.forall_mem_map, List.mem_range, Access.InBounds]
  omega

theorem storeBytes_inBounds {buffer : NetBuffer} (h : index + length ≤ buffer.size) :
    (storeBytes buffer index length).All (Access.InBounds size) := by
  simp only [storeBytes, all_emit, List.forall_mem_map, List.mem_range, Access.InBounds]
  omega

theorem loadBytes_inBounds {buffer : NetBuffer} (h : length ≤ buffer.size) :
    (loadBytes buffer length).All (Access.InBounds size) := by
  simp only [loadBytes, all_emit, List.forall_mem_map, List.mem_range, Access.InBounds]
  omega

end Bounds

section Handlers

variable {mem : Nat → Byte} {net : Net} {sourceIp : Ip} {size length base : Nat}

theorem arpTraced_inBounds (h : base + length ≤ size) : (arpTraced mem net base length).All (Access.InBounds size) := by
  unfold arpTraced
  refine all_ite (fun _ => all_pure _) fun hlen => ?_
  simp only [arpHeaderLen] at hlen
  simp only [all_bind, peek16_inBounds]
  refine ⟨by omega, by omega, by omega, all_ite (fun _ => all_pure _) fun _ => ?_⟩
  simp only [all_bind, peek32_inBounds]
  refine ⟨by omega, by omega, peekMac_inBounds (by omega), all_ite (fun _ => ?_) fun _ => all_pure _⟩
  simp only [all_bind]
  exact ⟨storeBytes_inBounds (by decide), peekMac_inBounds (by omega), storeBytes_inBounds (by decide),
    storeBytes_inBounds (by decide), peekMac_inBounds (by omega), loadBytes_inBounds le_rfl, all_pure _⟩

theorem icmpTraced_inBounds (h : base + length ≤ size) :
    (icmpTraced mem net sourceIp base length).All (Access.InBounds size) := by
  unfold icmpTraced
  refine all_ite (fun _ => all_pure _) fun hlen => ?_
  simp only [icmpHeaderLen] at hlen
  rw [all_bind]
  refine ⟨peekBytes_inBounds h, all_ite (fun _ => all_pure _) fun _ => ?_⟩
  rw [all_bind, peek_inBounds]
  refine ⟨by omega, all_ite (fun _ => ?_) fun _ => all_ite (fun _ => ?_) fun _ => all_pure _⟩
  · -- the reply is cut to the size of its buffer
    have hreply : min length 576 ≤ NetBuffer.icmpReply.size := Nat.min_le_right _ _
    simp only [all_bind]
    exact ⟨peekBytes_inBounds (by omega), storeBytes_inBounds (by rwa [Nat.zero_add]), storeBytes_inBounds (by decide),
      loadBytes_inBounds hreply, storeBytes_inBounds (by decide), loadBytes_inBounds hreply, all_pure _⟩
  · simp only [all_bind, peek16_inBounds]
    exact ⟨by omega, by omega, all_ite (fun _ => all_pure _) fun _ => all_pure _⟩

theorem udpVerifiedTraced_inBounds {udpLength : Nat} (checksum : Word16) (h : base + udpLength ≤ size) :
    (udpVerifiedTraced mem net sourceIp base udpLength checksum).All (Access.InBounds size) := by
  unfold udpVerifiedTraced
  refine all_ite (fun _ => all_pure _) fun _ => ?_
  have hverify : min udpLength (udpHeaderLen + udpMaxPayload) ≤ NetBuffer.verifyPacket.size := Nat.min_le_right _ _
  simp only [all_bind]
  exact ⟨peekBytes_inBounds (by omega), storeBytes_inBounds (by rwa [Nat.zero_add]), storeBytes_inBounds (by decide),
    loadBytes_inBounds hverify, all_pure _⟩

theorem udpTraced_inBounds (h : base + length ≤ size) :
    (udpTraced mem net sourceIp base length).All (Access.InBounds size) := by
  unfold udpTraced
  refine all_ite (fun _ => all_pure _) fun hlen => ?_
  simp only [udpHeaderLen] at hlen
  simp only [all_bind, peek16_inBounds]
  refine ⟨by omega, by omega, by omega, by omega, all_ite (fun _ => all_pure _) fun hudp => ?_⟩
  refine all_ite (fun _ => all_pure _) fun hmax => ?_
  rw [all_bind]
  refine ⟨udpVerifiedTraced_inBounds _ (by omega), all_ite (fun _ => all_pure _) fun _ => ?_⟩
  -- the UDP length is within the packet and leaves a payload of at most 1024 bytes
  cases udpFind net (peek16 mem (base + 2)).value with
  | none => exact all_pure _
  | some i =>
    simp only [all_bind, all_emit, List.mem_singleton, forall_eq, Access.InBounds, all_pure, and_true]
    simp only [udpHeaderLen, udpMaxPayload] at hudp hmax ⊢
    omega

theorem ipTraced_inBounds (h : base + length ≤ size) : (ipTraced mem net base length).All (Access.InBounds size) := by
  unfold ipTraced
  refine all_ite (fun _ => all_pure _) fun hlen => ?_
  simp only [ipHeaderLen] at hlen
  rw [all_bind, peek_inBounds]
  refine ⟨by omega, all_ite (fun _ => all_pure _) fun _ => all_ite (fun _ => all_pure _) fun hheader => ?_⟩
  rw [all_bind]
  refine ⟨peekBytes_inBounds (by omega), all_ite (fun _ => all_pure _) fun _ => ?_⟩
  rw [all_bind, peek16_inBounds]
  refine ⟨by omega, all_ite (fun _ => all_pure _) fun _ => ?_⟩
  rw [all_bind, peek16_inBounds]
  refine ⟨by omega, all_ite (fun _ => all_pure _) fun htotal => ?_⟩
  simp only [all_bind, peek_inBounds, peek32_inBounds]
  refine ⟨by omega, by omega, by omega, all_ite (fun _ => all_pure _) fun _ => ?_⟩
  -- what is behind the header ends with the packet
  exact all_ite (fun _ => icmpTraced_inBounds (by omega)) fun _ =>
    all_ite (fun _ => udpTraced_inBounds (by omega)) fun _ => all_pure _

theorem ethTraced_inBounds : (ethTraced mem net size).All (Access.InBounds size) := by
  unfold ethTraced
  refine all_ite (fun _ => all_pure _) fun hlen => ?_
  simp only [ethHeaderLen] at hlen ⊢
  rw [all_bind, peek16_inBounds]
  exact ⟨by omega, all_ite (fun _ => arpTraced_inBounds (by omega)) fun _ =>
    all_ite (fun _ => ipTraced_inBounds (by omega)) fun _ => all_pure _⟩

end Handlers

/-! ## What the handlers compute -/

section Values

variable {mem : Nat → Byte} {frame : List Byte} {net : Net} {sourceIp : Ip} {length base off : Nat}

/-- The frame lies at the start of the memory. -/
def LiesIn (frame : List Byte) (mem : Nat → Byte) : Prop := ∀ k < frame.length, frame[k]? = some (mem k)

variable (hf : LiesIn frame mem)

include hf

theorem getElem?_peek (h : base + off < frame.length) :
    (frame.drop base)[off]? = some (peek mem (base + off)).value := by
  rw [List.getElem?_drop]
  exact hf _ h

theorem netRead16_peek (h : base + off + 1 < frame.length) :
    netRead16 (frame.drop base) off = some (peek16 mem (base + off)).value := by
  unfold netRead16
  rw [getElem?_peek hf (by omega), getElem?_peek hf (by omega)]
  rfl

theorem netRead32_peek (h : base + off + 3 < frame.length) :
    netRead32 (frame.drop base) off = some (peek32 mem (base + off)).value := by
  unfold netRead32
  rw [getElem?_peek hf (by omega), getElem?_peek hf (by omega), getElem?_peek hf (by omega),
    getElem?_peek hf (by omega)]
  rfl

theorem readBytes_peek (h : base + length ≤ frame.length) :
    readBytes (frame.drop base) length = some (peekBytes mem base length).value := by
  rw [readBytes, if_pos (by rw [List.length_drop]; omega)]
  refine congrArg some (List.ext_getElem? fun k => ?_)
  show _ = ((List.range length).map fun k => mem (base + k))[k]?
  rw [List.getElem?_take, List.getElem?_map]
  split
  · rw [List.getElem?_range ‹_›, List.getElem?_drop]
    exact hf _ (by omega)
  · rw [List.getElem?_eq_none (by simpa using ‹¬ k < length›)]
    rfl

theorem readMac_peek (h : base + off + 6 ≤ frame.length) :
    readMac (frame.drop base) off = some (peekMac mem (base + off)).value := by
  rw [readMac, dif_pos (by rw [List.length_drop]; omega)]
  refine congrArg some (congrArg Vector.ofFn (funext fun i => ?_))
  have hk := hf (base + off + i) (by omega)
  rw [List.getElem?_eq_getElem (by omega), Option.some.injEq] at hk
  rw [List.getElem_drop, ← hk]
  congr 1
  omega

theorem arpHandlePacket_traced (h : base + length ≤ frame.length) :
    arpHandlePacket net (frame.drop base) length = some (arpTraced mem net base length).value := by
  unfold arpHandlePacket arpTraced
  by_cases hlen : length < arpHeaderLen
  · rw [if_pos hlen, if_pos hlen]
    rfl
  · rw [if_neg hlen, if_neg hlen]
    simp only [arpHeaderLen] at hlen
    rw [netRead16_peek hf (by omega), netRead16_peek hf (by omega), netRead16_peek hf (by omega),
      netRead32_peek hf (by omega), netRead32_peek hf (by omega), readMac_peek hf (by omega)]
    simp only [Option.bind_eq_bind, Option.bind_some, value_bind, Nat.add_zero]
    split
    · rfl
    · simp only [value_bind]
      split <;> rfl

theorem icmpHandlePacket_traced (h : base + length ≤ frame.length) :
    icmpHandlePacket net sourceIp (frame.drop base) length = some (icmpTraced mem net sourceIp base length).value := by
  unfold icmpHandlePacket icmpTraced
  by_cases hlen : length < icmpHeaderLen
  · rw [if_pos hlen, if_pos hlen]
    rfl
  · rw [if_neg hlen, if_neg hlen]
    simp only [icmpHeaderLen] at hlen
    rw [readBytes_peek hf h, getElem?_peek hf (by omega), readBytes_peek hf (by omega), netRead16_peek hf (by omega),
      netRead16_peek hf (by omega)]
    simp only [Option.bind_eq_bind, Option.bind_some, value_bind, Nat.add_zero]
    split
    · rfl
    · simp only [value_bind]
      split
      · rfl
      · split
        · simp only [value_bind]
          split <;> rfl
        · rfl

theorem udpVerified_traced {udpLength : Nat} (checksum : Word16) (h : base + udpLength ≤ frame.length) :
    udpVerified net sourceIp (frame.drop base) udpLength checksum =
      some (udpVerifiedTraced mem net sourceIp base udpLength checksum).value := by
  unfold udpVerified udpVerifiedTraced
  split
  · rfl
  · rw [readBytes_peek hf (by omega)]
    rfl

theorem udpHandlePacket_traced (h : base + length ≤ frame.length) :
    udpHandlePacket net sourceIp (frame.drop base) length = some (udpTraced mem net sourceIp base length).value := by
  unfold udpHandlePacket udpTraced
  by_cases hlen : length < udpHeaderLen
  · rw [if_pos hlen, if_pos hlen]
    rfl
  · rw [if_neg hlen, if_neg hlen]
    simp only [udpHeaderLen] at hlen
    rw [netRead16_peek hf (by omega), netRead16_peek hf (by omega), netRead16_peek hf (by omega),
      netRead16_peek hf (by omega)]
    simp only [Option.bind_eq_bind, Option.bind_some, value_bind, Nat.add_zero]
    by_cases hudp : (peek16 mem (base + 4)).value.toNat > length ∨ (peek16 mem (base + 4)).value.toNat < udpHeaderLen
    · rw [if_pos hudp, if_pos hudp]
      rfl
    · rw [if_neg hudp, if_neg hudp]
      split
      · rfl
      · rw [udpVerified_traced hf _ (by omega)]
        simp only [Option.bind_some, value_bind]
        split
        · rfl
        · cases udpFind net (peek16 mem (base + 2)).value with
          | none => rfl
          | some i =>
            simp only [udpHeaderLen] at hudp
            dsimp only
            rw [List.drop_drop, readBytes_peek hf (by simp only [udpHeaderLen]; omega)]
            rfl

theorem ipHandlePacket_traced (h : base + length ≤ frame.length) :
    ipHandlePacket net (frame.drop base) length = some (ipTraced mem net base length).value := by
  unfold ipHandlePacket ipTraced
  by_cases hlen : length < ipHeaderLen
  · rw [if_pos hlen, if_pos hlen]
    rfl
  · rw [if_neg hlen, if_neg hlen]
    simp only [ipHeaderLen] at hlen
    rw [getElem?_peek hf (by omega), netRead16_peek hf (by omega), netRead16_peek hf (by omega),
      getElem?_peek hf (by omega), netRead32_peek hf (by omega), netRead32_peek hf (by omega)]
    simp only [Option.bind_eq_bind, Option.bind_some, value_bind, Nat.add_zero]
    split
    · rfl
    · split
      · rfl
      · rw [readBytes_peek hf (by omega)]
        simp only [Option.bind_some, value_bind]
        split
        · rfl
        · simp only [value_bind]
          split
          · rfl
          · simp only [value_bind]
            split
            · rfl
            · rename_i htotal
              simp only [value_bind, List.drop_drop]
              split
              · rfl
              · split
                · exact icmpHandlePacket_traced hf (by omega)
                · split
                  · exact udpHandlePacket_traced hf (by omega)
                  · rfl

theorem ethHandleFrame_traced : ethHandleFrame net frame = some (ethTraced mem net frame.length).value := by
  unfold ethHandleFrame ethTraced
  by_cases hlen : frame.length < ethHeaderLen
  · rw [if_pos hlen, if_pos hlen]
    rfl
  · rw [if_neg hlen, if_neg hlen]
    simp only [ethHeaderLen] at hlen ⊢
    have htype : netRead16 (frame.drop 0) 12 = some (peek16 mem (0 + 12)).value := netRead16_peek hf (by omega)
    rw [List.drop_zero, Nat.zero_add] at htype
    rw [htype]
    simp only [Option.bind_eq_bind, Option.bind_some, value_bind]
    split
    · exact arpHandlePacket_traced hf (by omega)
    · split
      · exact ipHandlePacket_traced hf (by omega)
      · rfl

end Values

theorem liesIn_range (mem : Nat → Byte) (size : Nat) : LiesIn ((List.range size).map mem) mem := by
  intro k hk
  rw [List.length_map, List.length_range] at hk
  rw [List.getElem?_map, List.getElem?_range hk]
  rfl

/-- For every frame at the start of any memory, every cache, bindings and configuration: the receive
path computes what the handlers compute, without a read outside the frame, an access outside a fixed
buffer, or a callback on anything but a part of the frame of at most 1024 bytes. -/
theorem receive_inBounds (net : Net) (mem : Nat → Byte) (size : Nat) :
    ethHandleFrame net ((List.range size).map mem) = some (ethTraced mem net size).value ∧
      ∀ access ∈ (ethTraced mem net size).events, access.InBounds size := by
  have hvalue : ethHandleFrame net ((List.range size).map mem) =
    some (ethTraced mem net ((List.range size).map mem).length).value :=
    ethHandleFrame_traced (liesIn_range mem size)
  rw [List.length_map, List.length_range] at hvalue
  exact ⟨hvalue, ethTraced_inBounds⟩

end SpectreOS
