/-
The network stack (ethernet.c, arp.c, ip.c, icmp.c, udp.c with net_config.c and nic.c) of one host:
its static variables are one record, the frames handed to the NIC and the calls of UDP callbacks
are logged. A received buffer is a list of bytes and a pointer into it a suffix of that list, so a
handler answers `none` where the source would read outside the frame.
-/
import SpectreOS.Net.Checksum

namespace SpectreOS

open BlockIO

abbrev Ip := BitVec 32

abbrev Mac := Vector Byte 6

abbrev ethHeaderLen : Nat := 14
abbrev ethMaxFrame : Nat := 1518
abbrev ethertypeIpv4 : Word16 := 0x0800
abbrev ethertypeArp : Word16 := 0x0806
abbrev ipHeaderLen : Nat := 20
abbrev ipMaxPacket : Nat := 1480
abbrev ipProtoIcmp : Byte := 1
abbrev ipProtoUdp : Byte := 17
abbrev arpHeaderLen : Nat := 28
abbrev icmpHeaderLen : Nat := 8
abbrev udpHeaderLen : Nat := 8
abbrev udpMaxPayload : Nat := 1024

/-- The registered NIC; `send` is the driver's answer to a frame after the frames it was handed
before. -/
structure Nic where
  mac : Mac
  send : List (List Byte) → List Byte → Int

structure ArpEntry where
  ip : Ip
  mac : Mac
  inUse : Bool

/-- A binding of a port; callbacks are known by a number. -/
structure UdpBinding where
  port : Word16
  callback : Nat
  inUse : Bool

structure PingState where
  outstanding : Bool
  identifier : Word16
  sequence : Word16
  replyReceived : Bool

/-- A call of a UDP callback. -/
structure Delivery where
  callback : Nat
  sourceIp : Ip
  sourcePort : Word16
  data : List Byte
  deriving DecidableEq

/-- The static variables of the stack, and what it has sent and delivered. -/
structure Net where
  localIp : Ip
  gatewayIp : Ip
  subnetMask : Ip
  nic : Option Nic
  cache : Fin 8 → ArpEntry
  nextIdentification : Word16
  pingState : PingState
  bindings : Fin 4 → UdpBinding
  sent : List (List Byte)
  delivered : List Delivery

/-! ## Ethernet -/

def ethBroadcastMac : Mac := Vector.replicate 6 0xFF

def ethBuildHeader (dest src : Mac) (ethertype : Word16) : List Byte :=
  dest.toList ++ src.toList ++ net16 ethertype

/-- A frame, with zeros up to 60 bytes. -/
def padFrame (frame : List Byte) : List Byte := frame ++ List.replicate (60 - frame.length) 0

def ethSend (net : Net) (dest : Mac) (ethertype : Word16) (payload : List Byte) : Int × Net :=
  match net.nic with
  | none => (0, net)
  | some nic =>
    if payload.length > ethMaxFrame - ethHeaderLen then (0, net)
    else
      let frame := padFrame (ethBuildHeader dest nic.mac ethertype ++ payload)
      (nic.send net.sent frame, { net with sent := net.sent ++ [frame] })

/-! ## ARP -/

/-- `net_get_local_mac`. -/
def netGetLocalMac (net : Net) : Mac :=
  match net.nic with
  | none => Vector.replicate 6 0
  | some nic => nic.mac

/-- An ARP packet for IPv4 over Ethernet. -/
def arpPacket (opcode : Word16) (senderMac : Mac) (senderIp : Ip) (targetMac : Mac) (targetIp : Ip) : List Byte :=
  net16 1 ++ net16 0x0800 ++ [6, 4] ++ net16 opcode ++ senderMac.toList ++ net32 senderIp ++
    targetMac.toList ++ net32 targetIp

def arpRequest (net : Net) (targetIp : Ip) : Net :=
  (ethSend net ethBroadcastMac ethertypeArp
    (arpPacket 1 (netGetLocalMac net) net.localIp (Vector.replicate 6 0) targetIp)).2

def arpResolve (net : Net) (ip : Ip) : Option Mac :=
  ((List.finRange 8).find? fun i => (net.cache i).inUse && (net.cache i).ip == ip).map fun i => (net.cache i).mac

/-- `cache_learn`: the entry of the address, else the first free one, else entry 0. -/
def cacheLearn (net : Net) (ip : Ip) (mac : Mac) : Net :=
  match (List.finRange 8).find? fun i => (net.cache i).inUse && (net.cache i).ip == ip with
  | some i => { net with cache := Function.update net.cache i { net.cache i with mac } }
  | none =>
    let slot := ((List.finRange 8).find? fun i => !(net.cache i).inUse).getD 0
    { net with cache := Function.update net.cache slot ⟨ip, mac, true⟩ }

/-- Six bytes of a buffer as an address. -/
def readMac (p : List Byte) (off : Nat) : Option Mac :=
  if h : off + 6 ≤ p.length then some (Vector.ofFn fun i : Fin 6 => p[off + i.val]) else none

def arpHandlePacket (net : Net) (payload : List Byte) (length : Nat) : Option Net :=
  if length < arpHeaderLen then some net
  else do
    let htype ← netRead16 payload 0
    let ptype ← netRead16 payload 2
    let opcode ← netRead16 payload 6
    if htype ≠ 1 ∨ ptype ≠ 0x0800 then return net
    else
      let senderMac ← readMac payload 8
      let senderIp ← netRead32 payload 14
      let targetIp ← netRead32 payload 24
      let learnt := cacheLearn net senderIp senderMac
      if opcode = 1 ∧ targetIp = learnt.localIp then
        return (ethSend learnt senderMac ethertypeArp
          (arpPacket 2 (netGetLocalMac learnt) learnt.localIp senderMac senderIp)).2
      else return learnt

/-! ## IPv4 -/

def resolveNextHop (net : Net) (destIp : Ip) : Ip :=
  if net.subnetMask = 0 ∨ destIp &&& net.subnetMask = net.localIp &&& net.subnetMask then destIp
  else net.gatewayIp

/-- The 20 bytes of a header without options. -/
def ipHeader (totalLength identification checksum : Word16) (protocol : Byte) (source dest : Ip) : List Byte :=
  [0x45, 0] ++ net16 totalLength ++ net16 identification ++ net16 0 ++ [64, protocol] ++ net16 checksum ++
    net32 source ++ net32 dest

/-- `ip_send`; the checksum is computed over the header with zeros in its place. -/
def ipSend (net : Net) (destIp : Ip) (protocol : Byte) (payload : List Byte) : Int × Net :=
  if payload.length > ipMaxPacket then (0, net)
  else
    let nextHop := resolveNextHop net destIp
    match arpResolve net nextHop with
    | none => (0, arpRequest net nextHop)
    | some destMac =>
      let header := fun checksum => ipHeader (BitVec.ofNat 16 (ipHeaderLen + payload.length))
        net.nextIdentification checksum protocol net.localIp destIp
      ethSend { net with nextIdentification := net.nextIdentification + 1 } destMac ethertypeIpv4
        (header (internetChecksum (header 0)) ++ payload)

/-! ## ICMP -/

def icmpHandlePacket (net : Net) (sourceIp : Ip) (payload : List Byte) (length : Nat) : Option Net :=
  if length < icmpHeaderLen then some net
  else do
    let data ← readBytes payload length
    if internetChecksum data ≠ 0 then return net
    else
      let type ← payload[0]?
      if type = 8 then
        let reply ← readBytes payload (min length 576)
        let reply := netWrite16 ((reply.set 0 0).set 1 0) 2 0
        return (ipSend net sourceIp ipProtoIcmp (netWrite16 reply 2 (internetChecksum reply))).2
      else if type = 0 then
        let identifier ← netRead16 payload 4
        let sequence ← netRead16 payload 6
        if net.pingState.outstanding ∧ net.pingState.identifier = identifier ∧
            net.pingState.sequence = sequence then
          return { net with pingState := { net.pingState with replyReceived := true } }
        else return net
      else return net

/-! ## UDP -/

/-- The first binding in use for a port. -/
def udpFind (net : Net) (port : Word16) : Option (Fin 4) :=
  (List.finRange 4).find? fun i => (net.bindings i).inUse && (net.bindings i).port == port

/-- `udp_bind` with a callback that is not null. -/
def udpBind (net : Net) (port : Word16) (callback : Nat) : Bool × Net :=
  match udpFind net port with
  | some i => (true, { net with bindings := Function.update net.bindings i { net.bindings i with callback } })
  | none =>
    match (List.finRange 4).find? fun i => !(net.bindings i).inUse with
    | some i => (true, { net with bindings := Function.update net.bindings i ⟨port, callback, true⟩ })
    | none => (false, net)

/-- `udp_checksum`, over a pseudo header and the packet; a sum that comes out 0 is sent as all
ones. -/
def udpChecksum (sourceIp destIp : Ip) (udpPacket : List Byte) : Word16 :=
  let pseudoHeader := net32 sourceIp ++ net32 destIp ++ [0, ipProtoUdp] ++ net16 (BitVec.ofNat 16 udpPacket.length)
  let result := checksumFinish (checksumAdd (checksumAdd 0 pseudoHeader) udpPacket)
  if result = 0 then 0xFFFF else result

def udpHeader (srcPort destPort length checksum : Word16) : List Byte :=
  net16 srcPort ++ net16 destPort ++ net16 length ++ net16 checksum

def udpSend (net : Net) (destIp : Ip) (destPort srcPort : Word16) (data : List Byte) : Int × Net :=
  if data.length > udpMaxPayload then (0, net)
  else
    let header := udpHeader srcPort destPort (BitVec.ofNat 16 (udpHeaderLen + data.length))
    let checksum := udpChecksum net.localIp destIp (header 0 ++ data)
    ipSend net destIp ipProtoUdp (header checksum ++ data)

/-- Whether `udp_handle_packet` accepts the checksum; 0 means that none was computed. -/
def udpVerified (net : Net) (sourceIp : Ip) (payload : List Byte) (udpLength : Nat) (checksum : Word16) :
    Option Bool :=
  if checksum = 0 then some true
  else do
    let verifyPacket ← readBytes payload (min udpLength (udpHeaderLen + udpMaxPayload))
    return udpChecksum sourceIp net.localIp (netWrite16 verifyPacket 6 0) == checksum

def udpHandlePacket (net : Net) (sourceIp : Ip) (payload : List Byte) (length : Nat) : Option Net :=
  if length < udpHeaderLen then some net
  else do
    let sourcePort ← netRead16 payload 0
    let destPort ← netRead16 payload 2
    let udpLength ← netRead16 payload 4
    let checksum ← netRead16 payload 6
    if udpLength.toNat > length ∨ udpLength.toNat < udpHeaderLen then return net
    else if udpLength.toNat > udpHeaderLen + udpMaxPayload then return net
    else
      let verified ← udpVerified net sourceIp payload udpLength.toNat checksum
      if !verified then return net
      else
        match udpFind net destPort with
        | none => return net
        | some i =>
          let data ← readBytes (payload.drop udpHeaderLen) (udpLength.toNat - udpHeaderLen)
          return { net with delivered := net.delivered ++ [⟨(net.bindings i).callback, sourceIp, sourcePort, data⟩] }

/-! ## Receiving -/

def ipHandlePacket (net : Net) (payload : List Byte) (length : Nat) : Option Net :=
  if length < ipHeaderLen then some net
  else do
    let first ← payload[0]?
    let headerLength := first.toNat % 16 * 4
    if first.toNat / 16 ≠ 4 ∨ first.toNat % 16 < 5 then return net
    else if length < headerLength then return net
    else
      let header ← readBytes payload headerLength
      if internetChecksum header ≠ 0 then return net
      else
        let flagsAndOffset ← netRead16 payload 6
        if flagsAndOffset &&& 0x3FFF ≠ 0 then return net
        else
          let totalLength ← netRead16 payload 2
          if totalLength.toNat > length ∨ totalLength.toNat < headerLength then return net
          else
            let protocol ← payload[9]?
            let sourceIp ← netRead32 payload 12
            let destIp ← netRead32 payload 16
            if destIp ≠ net.localIp then return net
            else if protocol = ipProtoIcmp then
              icmpHandlePacket net sourceIp (payload.drop headerLength) (totalLength.toNat - headerLength)
            else if protocol = ipProtoUdp then
              udpHandlePacket net sourceIp (payload.drop headerLength) (totalLength.toNat - headerLength)
            else return net

def ethHandleFrame (net : Net) (frame : List Byte) : Option Net :=
  if frame.length < ethHeaderLen then some net
  else do
    let ethertype ← netRead16 frame 12
    let payload := frame.drop ethHeaderLen
    let payloadLength := frame.length - ethHeaderLen
    if ethertype = ethertypeArp then arpHandlePacket net payload payloadLength
    else if ethertype = ethertypeIpv4 then ipHandlePacket net payload payloadLength
    else return net

end SpectreOS
