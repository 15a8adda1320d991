/-
NovarisOS.Net.Packets — what `kernel/net.c` and `kernel/tcp.c` put on the
wire, and what they take from it.

A send gives the frame that is handed to the device, or the code it returns
instead. The ARP cache is the function of what is found in it; a lookup that
fails sends a request and returns -2 to the sender.
-/
import NovarisOS.Lib.Wire
import NovarisOS.Tcp.Stack

namespace NovarisOS.Net

open Function (update)
open Wire

abbrev ETH_P_IP : Nat := 0x0800
abbrev ETH_P_ARP : Nat := 0x0806
abbrev ETH_MTU : Nat := 1500
abbrev ETH_HDR_LEN : Nat := 14
abbrev IP_PROTO_ICMP : Nat := 1
abbrev IP_PROTO_TCP : Nat := 6
abbrev IP_PROTO_UDP : Nat := 17
abbrev IP_HDR_LEN : Nat := 20
abbrev UDP_HDR_LEN : Nat := 8
abbrev TCP_HDR_LEN : Nat := 20
abbrev NET_UDP_MAX_PAYLOAD : Nat := 1472
abbrev BROADCAST : Nat := 0xFFFFFFFF

/-- The address of an interface. -/
abbrev Mac := { m : Bytes // m.length = 6 }

def broadcastMac : Mac := ⟨[0xFF, 0xFF, 0xFF, 0xFF, 0xFF, 0xFF], rfl⟩

/-- The interface, `config`, the ARP cache and `ip_id`. -/
structure Host where
  mac : Mac
  ip : Nat
  netmask : Nat
  gateway : Nat
  configured : Bool
  arp : Nat → Option Mac
  ipId : Nat

def netChecksum (data : Bytes) (initial : Nat) : Nat := complement ((initial + sumWords data) % 0x100000000)

/-! ## Sending -/

def ethSend (h : Host) (dest : Mac) (type : Nat) (payload : Bytes) : Except Int Bytes :=
  if payload.length > ETH_MTU then .error (-1)
  else .ok (dest.val ++ h.mac.val ++ put16 type ++ payload)

/-- The part of an address that `netmask` selects, and whether all of the
rest is ones. -/
def Host.network (h : Host) (ip : Nat) : Nat := ip &&& h.netmask

def Host.allOnes (h : Host) (ip : Nat) : Bool := ip ||| (h.netmask ^^^ 0xFFFFFFFF) = 0xFFFFFFFF

def nextHopMac (h : Host) (destIp : Nat) : Option Mac :=
  if destIp = BROADCAST ∨ h.netmask ≠ 0 ∧ h.allOnes destIp ∧ h.network destIp = h.network h.ip then some broadcastMac
  else if h.netmask ≠ 0 ∧ h.network destIp ≠ h.network h.ip then
    if h.gateway = 0 then none else h.arp h.gateway
  else h.arp destIp

/-- `ip_header_t` with the checksum `ck`. -/
def ipHeader (total id protocol ck src dest : Nat) : Bytes :=
  [0x45, 0] ++ (put16 total ++ (put16 id ++ (put16 0x4000 ++ ([64, UInt8.ofNat protocol] ++
    (put16 ck ++ (put32 src ++ put32 dest))))))

def netSendIp (h : Host) (destIp protocol : Nat) (payload : Bytes) : Except Int Bytes :=
  if payload.length + IP_HDR_LEN > ETH_MTU then .error (-1)
  else
    match nextHopMac h destIp with
    | none => .error (-2)
    | some mac =>
      let header := ipHeader (IP_HDR_LEN + payload.length) h.ipId protocol
      let ck := netChecksum (header 0 h.ip destIp) 0
      ethSend h mac ETH_P_IP (header ck h.ip destIp ++ payload)

/-- `udp_header_t`. -/
def udpHeader (srcPort destPort length : Nat) : Bytes :=
  put16 srcPort ++ (put16 destPort ++ (put16 length ++ put16 0))

def netSendUdp (h : Host) (destIp srcPort destPort : Nat) (payload : Bytes) : Except Int Bytes :=
  if payload.length > NET_UDP_MAX_PAYLOAD then .error (-1)
  else netSendIp h destIp IP_PROTO_UDP (udpHeader srcPort destPort (UDP_HDR_LEN + payload.length) ++ payload)

/-- `segment_checksum`, over the pseudo header and the segment. -/
def segmentChecksum (srcIp destIp : Nat) (segment : Bytes) : Nat :=
  netChecksum segment
    (srcIp / 65536 % 65536 + srcIp % 65536 + destIp / 65536 % 65536 + destIp % 65536 + IP_PROTO_TCP + segment.length)

/-- `tcp_header_t` with the checksum `ck`. -/
def tcpHeader (srcPort destPort seq ack flags window ck : Nat) : Bytes :=
  put16 srcPort ++ (put16 destPort ++ (put32 seq ++ (put32 ack ++ ([0x50, UInt8.ofNat flags] ++
    (put16 window ++ (put16 ck ++ put16 0))))))

/-- The segment that `send_segment` builds. -/
def buildSegment (h : Host) (c : Tcp.Conn) (flags seq : Nat) (data : Bytes) : Bytes :=
  let header := tcpHeader c.localPort c.remotePort seq c.rcvNext flags c.advertise.lastAdvertised
  header (segmentChecksum h.ip c.remoteIp (header 0 ++ data)) ++ data

def sendSegment (h : Host) (c : Tcp.Conn) (flags seq : Nat) (data : Bytes) : Except Int Bytes :=
  if data.length > Tcp.TCP_MSS then .error (-1)
  else netSendIp h c.remoteIp IP_PROTO_TCP (buildSegment h c flags seq data)

/-! ## Receiving -/

/-- What a frame comes to. -/
inductive Input where
  | dropped
  | arp (payload : Bytes)
  | icmp (src : Nat) (payload : Bytes)
  | udp (src srcPort destPort : Nat) (data : Bytes)
  | tcp (src dest : Nat) (segment : Bytes)
  deriving DecidableEq

/-- The datagram inside an IP packet. -/
def udpInput (src : Nat) (payload : Bytes) : Input :=
  if payload.length < UDP_HDR_LEN then .dropped
  else
    let ulen := be16 payload 4
    if ulen < UDP_HDR_LEN ∨ ulen > payload.length then .dropped
    else .udp src (be16 payload 0) (be16 payload 2) ((payload.drop UDP_HDR_LEN).take (ulen - UDP_HDR_LEN))

/-- The switch over the protocol. -/
def protocolInput (protocol src dest : Nat) (payload : Bytes) : Input :=
  if protocol = IP_PROTO_ICMP then .icmp src payload
  else if protocol = IP_PROTO_UDP then udpInput src payload
  else if protocol = IP_PROTO_TCP then .tcp src dest payload
  else .dropped

def ipReceive (h : Host) (data : Bytes) : Input :=
  let hdrLen := be8 data 0 % 16 * 4
  let total := be16 data 2
  let src := be32 data 12
  let dest := be32 data 16
  if data.length < IP_HDR_LEN then .dropped
  else if be8 data 0 / 16 ≠ 4 then .dropped
  else if hdrLen < IP_HDR_LEN ∨ hdrLen > data.length then .dropped
  else if netChecksum (data.take hdrLen) 0 ≠ 0 then .dropped
  else if total < hdrLen ∨ total > data.length then .dropped
  else if h.configured ∧ dest ≠ h.ip ∧ dest ≠ BROADCAST ∧ ¬ (h.netmask ≠ 0 ∧ h.allOnes dest) then .dropped
  else protocolInput (be8 data 9) src dest ((data.drop hdrLen).take (total - hdrLen))

def netdevReceive (h : Host) (frame : Bytes) : Input :=
  if frame.length < ETH_HDR_LEN then .dropped
  else if be16 frame 12 = ETH_P_ARP then .arp (frame.drop ETH_HDR_LEN)
  else if be16 frame 12 = ETH_P_IP then ipReceive h (frame.drop ETH_HDR_LEN)
  else .dropped

/-! ## TCP -/

theorem be16_lt (m : Bytes) (off : Nat) : be16 m off < 0x10000 := by
  have h₀ := (m.getD off 0).toNat_lt
  have h₁ := (m.getD (off + 1) 0).toNat_lt
  unfold be16 be8
  omega

theorem be32_lt (m : Bytes) (off : Nat) : be32 m off < 0x100000000 := by
  have h₀ := be16_lt m off
  have h₁ := be16_lt m (off + 2)
  unfold be32
  omega

/-- What `tcp_receive` reads of a segment with a header of that length. -/
def readSegment (seg : Bytes) (hdrLen : Nat) : Tcp.Segment where
  srcPort := be16 seg 0
  destPort := be16 seg 2
  seq := be32 seg 4
  ack := be32 seg 8
  flags := be8 seg 13
  data := seg.drop hdrLen
  seq_lt := be32_lt seg 4
  ack_lt := be32_lt seg 8

/-- The segment, unless `tcp_receive` drops it. -/
def tcpSegment (srcIp destIp : Nat) (seg : Bytes) : Option Tcp.Segment :=
  let hdrLen := be8 seg 12 / 16 * 4
  if seg.length < TCP_HDR_LEN then none
  else if hdrLen < TCP_HDR_LEN ∨ hdrLen > seg.length then none
  else if segmentChecksum srcIp destIp seg ≠ 0 then none
  else some (readSegment seg hdrLen)

def tcpReceive (t : Tcp.Stack) (now srcIp destIp : Nat) (seg : Bytes) : Tcp.Stack :=
  match tcpSegment srcIp destIp seg with
  | some s => t.receive now srcIp s
  | none => t

/-! ## UDP -/

abbrev UDP_PORTS : Nat := 8
abbrev UDP_QUEUE : Nat := 4

/-- `udp_datagram_t`. -/
structure Datagram where
  srcIp : Nat
  srcPort : Nat
  data : Bytes
  deriving DecidableEq

structure UdpPort where
  port : Nat
  bound : Bool
  q : Nat → Datagram
  head : Nat
  tail : Nat

/-- The first slot that is bound to the port. -/
def boundTo (ports : Nat → UdpPort) (port : Nat) : Option Nat :=
  (List.range UDP_PORTS).find? fun i => (ports i).bound && (ports i).port = port

/-- `net_udp_bind`: the ports, if one is free or has that number already. -/
def netUdpBind (ports : Nat → UdpPort) (port : Nat) : Option (Nat → UdpPort) :=
  if (boundTo ports port).isSome then some ports
  else
    match (List.range UDP_PORTS).find? fun i => !(ports i).bound with
    | some i => some (update ports i { ports i with port := port, bound := true, head := 0, tail := 0 })
    | none => none

def netUdpUnbind (ports : Nat → UdpPort) (port : Nat) : Nat → UdpPort :=
  match boundTo ports port with
  | some i => update ports i { ports i with bound := false }
  | none => ports

def udpDeliver (ports : Nat → UdpPort) (srcIp srcPort destPort : Nat) (data : Bytes) : Nat → UdpPort :=
  match boundTo ports destPort with
  | none => ports
  | some i =>
    let p := ports i
    let next := (p.head + 1) % UDP_QUEUE
    if next = p.tail then ports
    else
      update ports i
        { p with
          q := update p.q p.head ⟨srcIp, srcPort, data.take NET_UDP_MAX_PAYLOAD⟩
          head := next }

def netUdpRecv (ports : Nat → UdpPort) (port : Nat) : Option (Datagram × (Nat → UdpPort)) :=
  match boundTo ports port with
  | none => none
  | some i =>
    let p := ports i
    if p.tail = p.head then none
    else some (p.q p.tail, update ports i { p with tail := (p.tail + 1) % UDP_QUEUE })

end NovarisOS.Net
