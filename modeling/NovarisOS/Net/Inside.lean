/-
NovarisOS.Net.Inside — the parsers of `kernel/net.c`, `kernel/tcp.c`,
`kernel/dns.c` and `kernel/dhcp.c` with a check at every access.

Each function is there a second time, under the same name: a field of a
message is read if it lies inside, a part of a message is handed on if it is
one, and a fixed array is written at places that it has; anything else is a
fault.
-/
import NovarisOS.Dhcp.Client
import NovarisOS.Dns.Resolve
import NovarisOS.Net.Packets
import NovarisOS.Tcp.Receiver

namespace NovarisOS.Net.Inside

open Function (update update_of_ne update_self)
open Wire Checked

abbrev ARP_BYTES : Nat := 28
abbrev ICMP_HDR_LEN : Nat := 8
abbrev ETH_FRAME_MAX : Nat := 1514

/-! ## ARP and ICMP -/

/-- `arp_receive`: what is learned, and what is answered. -/
def arpReceive (h : Host) (data : Bytes) : Except Stop (Option (Nat × Bytes) × Option Bytes) :=
  if data.length < ARP_BYTES then .ok (none, none)
  else do
    let ptype ← wordAt data 2
    let plen ← byteAt data 5
    if ptype ≠ ETH_P_IP ∨ plen ≠ 4 then .ok (none, none)
    else do
      let sender ← dwordAt data 14
      let target ← dwordAt data 24
      let mac ← slice data 8 6
      let oper ← wordAt data 6
      let learned := if sender ≠ 0 then some (sender, mac) else none
      if oper = 1 ∧ h.configured ∧ target = h.ip then do
        let packet := put16 1 ++ put16 ETH_P_IP ++ [6, 4] ++ put16 2 ++ h.mac.val ++ put32 h.ip ++ mac ++ put32 sender
        fill ETH_FRAME_MAX ETH_HDR_LEN packet.length
        .ok (learned, some (mac ++ h.mac.val ++ put16 ETH_P_ARP ++ packet))
      else .ok (learned, none)

/-- `net_send_ip`: the frame, if one goes out. -/
def netSendIp (h : Host) (dest protocol : Nat) (payload : Bytes) : Except Stop (Option Bytes) :=
  if payload.length + IP_HDR_LEN > ETH_MTU then .ok none
  else do
    fill ETH_MTU IP_HDR_LEN payload.length
    fill ETH_FRAME_MAX ETH_HDR_LEN (IP_HDR_LEN + payload.length)
    .ok (Net.netSendIp h dest protocol payload).toOption

/-- `icmp_receive`: what is answered. -/
def icmpReceive (h : Host) (src : Nat) (data : Bytes) : Except Stop (Option Bytes) :=
  if data.length < ICMP_HDR_LEN then .ok none
  else do
    let type ← byteAt data 0
    if type = 8 then
      if data.length > ETH_MTU then .ok none
      else do
        fill ETH_MTU 0 data.length
        let code ← slice data 1 1
        let rest ← slice data 4 (data.length - 4)
        let ck := netChecksum (0 :: (code ++ (put16 0 ++ rest))) 0
        netSendIp h src IP_PROTO_ICMP (0 :: (code ++ (put16 ck ++ rest)))
    else .ok none

/-! ## UDP -/

/-- The datagram inside an IP packet. -/
def udpInput (src : Nat) (payload : Bytes) : Except Stop Input :=
  if payload.length < UDP_HDR_LEN then .ok .dropped
  else do
    let ulen ← wordAt payload 4
    if ulen < UDP_HDR_LEN ∨ ulen > payload.length then .ok .dropped
    else do
      let srcPort ← wordAt payload 0
      let destPort ← wordAt payload 2
      let data ← slice payload UDP_HDR_LEN (ulen - UDP_HDR_LEN)
      .ok (.udp src srcPort destPort data)

def udpDeliver (ports : Nat → UdpPort) (srcIp srcPort destPort : Nat) (data : Bytes) : Except Stop (Nat → UdpPort) :=
  match boundTo ports destPort with
  | none => .ok ports
  | some i =>
    if ((ports i).head + 1) % UDP_QUEUE = (ports i).tail then .ok ports
    else do
      fill UDP_QUEUE (ports i).head 1
      let len := if data.length > NET_UDP_MAX_PAYLOAD then NET_UDP_MAX_PAYLOAD else data.length
      let _ ← slice data 0 len
      fill NET_UDP_MAX_PAYLOAD 0 len
      .ok (Net.udpDeliver ports srcIp srcPort destPort data)

/-! ## TCP -/

/-- The segment, unless `tcp_receive` drops it. -/
def tcpSegment (srcIp destIp : Nat) (seg : Bytes) : Except Stop (Option Tcp.Segment) :=
  if seg.length < TCP_HDR_LEN then .ok none
  else do
    let offset ← byteAt seg 12
    let hdrLen := offset / 16 * 4
    if hdrLen < TCP_HDR_LEN ∨ hdrLen > seg.length then .ok none
    else if segmentChecksum srcIp destIp seg ≠ 0 then .ok none
    else do
      let srcPort ← wordAt seg 0
      let destPort ← wordAt seg 2
      let seq ← dwordAt seg 4
      let ack ← dwordAt seg 8
      let flags ← byteAt seg 13
      let data ← slice seg hdrLen (seg.length - hdrLen)
      .ok (some ⟨srcPort, destPort, seq % 0x100000000, ack % 0x100000000, flags, data,
        Nat.mod_lt _ (by decide), Nat.mod_lt _ (by decide)⟩)

/-- The places of the ring that `recv_push` writes. -/
def pushPlaces (c : Tcp.Conn) : Bytes → List Nat
  | [] => []
  | b :: data =>
    let next := (c.recvHead + 1) % Tcp.TCP_RECV_BUFFER
    if next = c.recvTail then []
    else c.recvHead :: pushPlaces { c with recv := update c.recv c.recvHead b, recvHead := next } data

/-- Writes to single places of an array of `n`. -/
def fillAll (n : Nat) : List Nat → Except Stop Unit
  | [] => .ok ()
  | p :: places => do
    fill n p 1
    fillAll n places

def tcpReceive (t : Tcp.Stack) (now srcIp destIp : Nat) (seg : Bytes) : Except Stop Tcp.Stack := do
  let s ← tcpSegment srcIp destIp seg
  match s with
  | none => .ok t
  | some s =>
    match t.findConn srcIp s.srcPort s.destPort with
    | none => .ok (t.receive now srcIp s)
    | some i => do
      fillAll Tcp.TCP_RECV_BUFFER (pushPlaces (t.conns i) s.data)
      .ok (t.receive now srcIp s)

/-! ## Frames -/

/-- The switch over the protocol. -/
def protocolInput (protocol src dest : Nat) (payload : Bytes) : Except Stop Input :=
  if protocol = IP_PROTO_ICMP then .ok (.icmp src payload)
  else if protocol = IP_PROTO_UDP then udpInput src payload
  else if protocol = IP_PROTO_TCP then .ok (.tcp src dest payload)
  else .ok .dropped

/-- `ip_receive`, down to the call. -/
def ipReceive (h : Host) (data : Bytes) : Except Stop Input :=
  if data.length < IP_HDR_LEN then .ok .dropped
  else do
    let version ← byteAt data 0
    let hdrLen := version % 16 * 4
    if version / 16 ≠ 4 then .ok .dropped
    else if hdrLen < IP_HDR_LEN ∨ hdrLen > data.length then .ok .dropped
    else do
      let header ← slice data 0 hdrLen
      if netChecksum header 0 ≠ 0 then .ok .dropped
      else do
        let total ← wordAt data 2
        if total < hdrLen ∨ total > data.length then .ok .dropped
        else do
          let src ← dwordAt data 12
          let dest ← dwordAt data 16
          if h.configured ∧ dest ≠ h.ip ∧ dest ≠ BROADCAST ∧ ¬ (h.netmask ≠ 0 ∧ h.allOnes dest) then .ok .dropped
          else do
            let payload ← slice data hdrLen (total - hdrLen)
            let protocol ← byteAt data 9
            protocolInput protocol src dest payload

/-- The bound ports and the TCP tables. -/
structure Node where
  ports : Nat → UdpPort
  tcp : Tcp.Stack

/-- The call that an input comes to, and the frame that answers it. -/
def Node.take (n : Node) (h : Host) (now : Nat) : Input → Except Stop (Node × Option Bytes)
  | .icmp src payload => do
    let reply ← icmpReceive h src payload
    .ok (n, reply)
  | .udp src srcPort destPort data => do
    let ports ← udpDeliver n.ports src srcPort destPort data
    .ok ({ n with ports := ports }, none)
  | .tcp src dest segment => do
    let tcp ← tcpReceive n.tcp now src dest segment
    .ok ({ n with tcp := tcp }, none)
  | _ => .ok (n, none)

def netdevReceive (n : Node) (h : Host) (now : Nat) (frame : Bytes) : Except Stop (Node × Option Bytes) :=
  if frame.length < ETH_HDR_LEN then .ok (n, none)
  else do
    let type ← wordAt frame 12
    let payload ← slice frame ETH_HDR_LEN (frame.length - ETH_HDR_LEN)
    if type = ETH_P_ARP then do
      let (_, reply) ← arpReceive h payload
      .ok (n, reply)
    else if type = ETH_P_IP then do
      let input ← ipReceive h payload
      n.take h now input
    else .ok (n, none)

/-! ## DHCP options -/

open Dhcp (Vars HEADER_BYTES OPTIONS_BYTES OPT_END OPT_MESSAGE_TYPE OPT_SUBNET_MASK OPT_ROUTER OPT_DNS OPT_SERVER_ID)

/-- One option. -/
def setOption (v : Vars) (code : Nat) (value : Bytes) : Except Stop Vars :=
  if code = OPT_MESSAGE_TYPE then
    if 1 ≤ value.length then do
      let type ← byteAt value 0
      .ok { v with type := type }
    else .ok v
  else if 4 ≤ value.length ∧
      (code = OPT_SUBNET_MASK ∨ code = OPT_ROUTER ∨ code = OPT_DNS ∨ code = OPT_SERVER_ID) then do
    let _ ← dwordAt value 0
    .ok (v.set (code, value))
  else .ok v

/-- The loop over the options, from the place `i` on. -/
def optionLoop (field : Bytes) : Nat → Nat → Vars → Except Stop Vars
  | 0, _, _ => .error .fuel
  | turns + 1, i, v =>
    if field.length ≤ i then .ok v
    else do
      let code ← byteAt field i
      if code = OPT_END then .ok v
      else if code = 0 then optionLoop field turns (i + 1) v
      else if field.length ≤ i + 1 then .ok v
      else do
        let olen ← byteAt field (i + 1)
        if i + 2 + olen > field.length then .ok v
        else do
          let value ← slice field (i + 2) olen
          let v ← setOption v code value
          optionLoop field turns (i + 2 + olen) v

/-- `parse` of `kernel/dhcp.c`. -/
def parse (xid : Nat) (m : Bytes) (v : Vars) : Except Stop (Bool × Vars) :=
  if m.length < HEADER_BYTES + 4 then .ok (false, v)
  else do
    let op ← byteAt m 0
    let magic ← dwordAt m 236
    let id ← dwordAt m 4
    if op ≠ Dhcp.BOOTREPLY then .ok (false, v)
    else if magic ≠ Dhcp.DHCP_MAGIC then .ok (false, v)
    else if id ≠ xid then .ok (false, v)
    else do
      let left := m.length - HEADER_BYTES
      let field ← slice m HEADER_BYTES (if left > OPTIONS_BYTES then OPTIONS_BYTES else left)
      let v ← optionLoop field (field.length + 1) 0 { v with type := 0 }
      .ok (v.type ≠ 0, v)

/-! ## The same without the checks -/

@[simp] theorem ok_bind {α β : Type} (a : α) (k : α → Except Stop β) : (Except.ok a >>= k) = k a := rfl

theorem udpInput_eq (src : Nat) (payload : Bytes) : udpInput src payload = .ok (Net.udpInput src payload) := by
  unfold udpInput Net.udpInput
  by_cases hlen : payload.length < UDP_HDR_LEN
  · rw [if_pos hlen, if_pos hlen]
  · rw [if_neg hlen, if_neg hlen, wordAt_eq (by simp only [UDP_HDR_LEN] at hlen; omega), ok_bind]
    by_cases hulen : be16 payload 4 < UDP_HDR_LEN ∨ be16 payload 4 > payload.length
    · rw [if_pos hulen, if_pos hulen]
    · have hsize : 8 ≤ payload.length := Nat.not_lt.mp hlen
      rw [if_neg hulen, if_neg hulen, wordAt_eq (by omega), wordAt_eq (by omega), slice_eq (by omega)]
      rfl

theorem protocolInput_eq (protocol src dest : Nat) (payload : Bytes) :
    protocolInput protocol src dest payload = .ok (Net.protocolInput protocol src dest payload) := by
  unfold protocolInput Net.protocolInput
  rw [udpInput_eq]
  split
  · rfl
  · split
    · rfl
    · split <;> rfl

theorem ipReceive_eq (h : Host) (data : Bytes) : ipReceive h data = .ok (Net.ipReceive h data) := by
  unfold ipReceive Net.ipReceive
  by_cases hlen : data.length < IP_HDR_LEN
  · rw [if_pos hlen, if_pos hlen]
  · have hsize : 20 ≤ data.length := Nat.not_lt.mp hlen
    rw [if_neg hlen, if_neg hlen, byteAt_eq (by omega), ok_bind]
    by_cases hversion : be8 data 0 / 16 ≠ 4
    · rw [if_pos hversion, if_pos hversion]
    · rw [if_neg hversion, if_neg hversion]
      by_cases hheader : be8 data 0 % 16 * 4 < IP_HDR_LEN ∨ be8 data 0 % 16 * 4 > data.length
      · rw [if_pos hheader, if_pos hheader]
      · rw [if_neg hheader, if_neg hheader, slice_eq (by omega), ok_bind, List.drop_zero]
        by_cases hck : netChecksum (data.take (be8 data 0 % 16 * 4)) 0 ≠ 0
        · rw [if_pos hck, if_pos hck]
        · rw [if_neg hck, if_neg hck, wordAt_eq (by omega), ok_bind]
          by_cases htotal : be16 data 2 < be8 data 0 % 16 * 4 ∨ be16 data 2 > data.length
          · rw [if_pos htotal, if_pos htotal]
          · rw [if_neg htotal, if_neg htotal, dwordAt_eq (by omega), dwordAt_eq (by omega), ok_bind, ok_bind]
            split
            · rfl
            · rw [slice_eq (by omega), byteAt_eq (by omega), ok_bind, ok_bind, protocolInput_eq]

theorem tcpSegment_eq (srcIp destIp : Nat) (seg : Bytes) :
    tcpSegment srcIp destIp seg = .ok (Net.tcpSegment srcIp destIp seg) := by
  unfold tcpSegment Net.tcpSegment
  by_cases hlen : seg.length < TCP_HDR_LEN
  · rw [if_pos hlen, if_pos hlen]
  · have hsize : 20 ≤ seg.length := Nat.not_lt.mp hlen
    rw [if_neg hlen, if_neg hlen, byteAt_eq (by omega), ok_bind]
    by_cases hheader : be8 seg 12 / 16 * 4 < TCP_HDR_LEN ∨ be8 seg 12 / 16 * 4 > seg.length
    · rw [if_pos hheader, if_pos hheader]
    · rw [if_neg hheader, if_neg hheader]
      by_cases hck : segmentChecksum srcIp destIp seg ≠ 0
      · rw [if_pos hck, if_pos hck]
      · rw [if_neg hck, if_neg hck, wordAt_eq (by omega), wordAt_eq (by omega), dwordAt_eq (by omega),
          dwordAt_eq (by omega), byteAt_eq (by omega), slice_eq (by omega)]
        have hdata : (seg.drop (be8 seg 12 / 16 * 4)).take (seg.length - be8 seg 12 / 16 * 4) =
            seg.drop (be8 seg 12 / 16 * 4) := List.take_of_length_le (by rw [List.length_drop])
        simp only [ok_bind, hdata, Nat.mod_eq_of_lt (be32_lt seg _), readSegment]

theorem setOption_eq (v : Vars) (code : Nat) (value : Bytes) : setOption v code value = .ok (v.set (code, value)) := by
  unfold setOption
  split
  · rename_i hcode
    simp only [Vars.set, if_pos hcode]
    split
    · rw [byteAt_eq (by omega), ok_bind]
    · rfl
  · rename_i hcode
    split
    · rename_i hfour
      rw [dwordAt_eq (by omega), ok_bind]
    · rename_i hfour
      simp only [Vars.set, if_neg hcode]
      by_cases hlong : 4 ≤ value.length
      · have hnone : code ≠ OPT_SUBNET_MASK ∧ code ≠ OPT_ROUTER ∧ code ≠ OPT_DNS ∧ code ≠ OPT_SERVER_ID := by tauto
        simp [hnone]
      · simp [hlong]

theorem walk_cons (turns : Nat) (code : UInt8) (rest : Bytes) :
    Dhcp.walk (turns + 1) (code :: rest) =
      if code.toNat = OPT_END then []
      else if code.toNat = 0 then Dhcp.walk turns rest
      else
        match rest with
        | [] => []
        | olen :: rest =>
          if rest.length < olen.toNat then []
          else (code.toNat, rest.take olen.toNat) :: Dhcp.walk turns (rest.drop olen.toNat) := by
  cases rest <;> rfl

theorem optionLoop_eq (field : Bytes) (turns : Nat) : ∀ (i : Nat) (v : Vars), field.length - i ≤ turns →
    optionLoop field (turns + 1) i v = .ok ((Dhcp.walk turns (field.drop i)).foldl Vars.set v) := by
  induction turns with
  | zero =>
    intro i v h
    rw [optionLoop, if_pos (by omega)]
    rfl
  | succ turns ih =>
    intro i v h
    rw [optionLoop]
    split
    · rename_i hend
      rw [List.drop_of_length_le hend]
      rfl
    · rename_i hin
      rw [Nat.not_le] at hin
      have hcode : be8 field i = field[i].toNat := by
        rw [be8, List.getD_eq_getElem?_getD, List.getElem?_eq_getElem hin, Option.getD_some]
      rw [byteAt_eq hin, ok_bind, List.drop_eq_getElem_cons hin, hcode, walk_cons]
      split
      · rfl
      · split
        · exact ih (i + 1) v (by omega)
        · split
          · rename_i hlast
            rw [List.drop_of_length_le hlast]
            rfl
          · rename_i hmore
            rw [Nat.not_le] at hmore
            have holen : be8 field (i + 1) = field[i + 1].toNat := by
              rw [be8, List.getD_eq_getElem?_getD, List.getElem?_eq_getElem hmore, Option.getD_some]
            rw [byteAt_eq hmore, ok_bind, List.drop_eq_getElem_cons hmore, holen]
            dsimp only
            rw [List.length_drop]
            by_cases hlong : field.length - (i + 2) < field[i + 1].toNat
            · rw [if_pos (by omega), if_pos hlong]
              rfl
            · rw [if_neg (by omega), if_neg hlong, slice_eq (by omega), ok_bind, setOption_eq, ok_bind,
                ih (i + 2 + field[i + 1].toNat) _ (by omega), List.drop_drop, List.foldl_cons]

theorem parse_eq (xid : Nat) (m : Bytes) (v : Vars) : parse xid m v = .ok (Dhcp.parse xid m v) := by
  have hfalse : Dhcp.isReply xid m = false → Dhcp.parse xid m v = (false, v) := by
    intro h
    rw [Dhcp.parse, h]
    rfl
  unfold parse
  by_cases hlen : m.length < HEADER_BYTES + 4
  · rw [if_pos hlen, hfalse (by simp [Dhcp.isReply, Nat.not_le.mpr hlen])]
  · have hsize : 244 ≤ m.length := Nat.not_lt.mp hlen
    rw [if_neg hlen, byteAt_eq (by omega), dwordAt_eq (by omega), dwordAt_eq (by omega)]
    simp only [ok_bind]
    by_cases hop : be8 m 0 = Dhcp.BOOTREPLY
    · by_cases hmagic : be32 m 236 = Dhcp.DHCP_MAGIC
      · by_cases hxid : be32 m 4 = xid
        · have hreply : Dhcp.isReply xid m = true := by simp [Dhcp.isReply, hsize, hop, hmagic, hxid]
          have hfield : (m.drop HEADER_BYTES).take
              (if m.length - HEADER_BYTES > OPTIONS_BYTES then OPTIONS_BYTES else m.length - HEADER_BYTES) =
              (m.drop HEADER_BYTES).take OPTIONS_BYTES := by
            split
            · rfl
            · rename_i hshort
              rw [List.take_of_length_le (by rw [List.length_drop]),
                  List.take_of_length_le (by rw [List.length_drop]; omega)]
          have hslice : HEADER_BYTES +
              (if m.length - HEADER_BYTES >
                OPTIONS_BYTES then OPTIONS_BYTES else m.length - HEADER_BYTES) ≤ m.length := by
            split <;> omega
          rw [if_neg (not_not.mpr hop), if_neg (not_not.mpr hmagic), if_neg (not_not.mpr hxid),
              slice_eq hslice, ok_bind,
            hfield, optionLoop_eq _ _ 0 _ (Nat.sub_le _ _), ok_bind, List.drop_zero, Dhcp.parse, hreply]
          rfl
        · rw [if_neg (not_not.mpr hop), if_neg (not_not.mpr hmagic), if_pos hxid,
              hfalse (by simp [Dhcp.isReply, hxid])]
      · rw [if_neg (not_not.mpr hop), if_pos hmagic, hfalse (by simp [Dhcp.isReply, hmagic])]
    · rw [if_pos hop, hfalse (by simp [Dhcp.isReply, hop])]

/-! ## Replies -/

theorem nameByte_ok (msg : Bytes) (off : Nat) : ∃ step, Dns.nameByte msg off = .ok step := by
  unfold Dns.nameByte
  split
  · rename_i hin
    rw [byteAt_eq hin, ok_bind]
    split
    · exact ⟨_, rfl⟩
    · split <;> exact ⟨_, rfl⟩
  · exact ⟨_, rfl⟩

theorem skipName_ok (msg : Bytes) (left : Nat) : ∀ off, ∃ p, Dns.skipName msg left off = .ok p := by
  induction left with
  | zero =>
    intro off
    obtain ⟨step, hstep⟩ := nameByte_ok msg off
    rw [Dns.skipName, hstep, ok_bind]
    cases step <;> exact ⟨_, rfl⟩
  | succ left ih =>
    intro off
    obtain ⟨step, hstep⟩ := nameByte_ok msg off
    rw [Dns.skipName, hstep, ok_bind]
    cases step with
    | inl p => exact ⟨p, rfl⟩
    | inr off => exact ih off

theorem skipQuestions_ok (msg : Bytes) (questions : Nat) : ∀ p, ∃ p', Dns.skipQuestions msg questions p = .ok p' := by
  induction questions with
  | zero => exact fun p => ⟨p, rfl⟩
  | succ questions ih =>
    intro p
    rw [Dns.skipQuestions]
    split
    · obtain ⟨p', hp⟩ := skipName_ok msg 128 p
      rw [hp, ok_bind]
      exact ih _
    · exact ⟨p, rfl⟩

theorem findAddress_ok (msg : Bytes) (answers : Nat) : ∀ p, ∃ r, Dns.findAddress msg answers p = .ok r := by
  induction answers with
  | zero => exact fun p => ⟨none, rfl⟩
  | succ answers ih =>
    intro p
    rw [Dns.findAddress]
    split
    · obtain ⟨p', hp⟩ := skipName_ok msg 128 p
      rw [hp, ok_bind]
      split
      · exact ⟨_, rfl⟩
      · rw [wordAt_eq (by omega), wordAt_eq (by omega), ok_bind, ok_bind]
        split
        · exact ⟨_, rfl⟩
        · rename_i hin
          split
          · rename_i haddress
            rw [dwordAt_eq (by omega), ok_bind]
            exact ⟨_, rfl⟩
          · exact ih _
    · exact ⟨_, rfl⟩

theorem readReply_ok (id : Nat) (msg : Bytes) : ∃ r, Dns.readReply id msg = .ok r := by
  unfold Dns.readReply
  split
  · exact ⟨_, rfl⟩
  · rename_i hlen
    have hsize : 12 ≤ msg.length := Nat.not_lt.mp hlen
    rw [wordAt_eq (by omega), ok_bind]
    split
    · exact ⟨_, rfl⟩
    · rw [wordAt_eq (by omega), ok_bind]
      split
      · exact ⟨_, rfl⟩
      · obtain ⟨p, hp⟩ := skipQuestions_ok msg (be16 msg 4) Dns.HEADER_BYTES
        obtain ⟨r, hr⟩ := findAddress_ok msg (be16 msg 6) p
        rw [wordAt_eq (by omega), wordAt_eq (by omega)]
        simp only [ok_bind, hp, hr]
        exact ⟨_, rfl⟩

/-! ## What is sent and stored -/

theorem netSendIp_ok (h : Host) (dest protocol : Nat) (payload : Bytes) :
    ∃ r, netSendIp h dest protocol payload = .ok r := by
  unfold netSendIp
  split
  · exact ⟨_, rfl⟩
  · rename_i hfits
    simp only [IP_HDR_LEN, ETH_MTU] at hfits
    rw [fill_eq (by simp only [IP_HDR_LEN, ETH_MTU]; omega),
      fill_eq (by simp only [IP_HDR_LEN, ETH_HDR_LEN, ETH_FRAME_MAX]; omega), ok_bind, ok_bind]
    exact ⟨_, rfl⟩

theorem icmpReceive_ok (h : Host) (src : Nat) (data : Bytes) : ∃ r, icmpReceive h src data = .ok r := by
  unfold icmpReceive
  split
  · exact ⟨_, rfl⟩
  · rename_i hlen
    have hsize : 8 ≤ data.length := Nat.not_lt.mp hlen
    rw [byteAt_eq (by omega), ok_bind]
    split
    · split
      · exact ⟨_, rfl⟩
      · rename_i hfits
        rw [fill_eq (by omega), slice_eq (by omega), slice_eq (by omega)]
        exact netSendIp_ok _ _ _ _
    · exact ⟨_, rfl⟩

theorem arpReceive_ok (h : Host) (data : Bytes) : ∃ r, arpReceive h data = .ok r := by
  unfold arpReceive
  split
  · exact ⟨_, rfl⟩
  · rename_i hlen
    have hsize : 28 ≤ data.length := Nat.not_lt.mp hlen
    rw [wordAt_eq (by omega), byteAt_eq (by omega), ok_bind, ok_bind]
    split
    · exact ⟨_, rfl⟩
    · rw [dwordAt_eq (by omega), dwordAt_eq (by omega), slice_eq (by omega), wordAt_eq (by omega)]
      simp only [ok_bind]
      split
      · have hown : h.mac.val.length = 6 := h.mac.property
        have hmac : ((data.drop 8).take 6).length = 6 := by
          rw [List.length_take, List.length_drop]
          omega
        rw [fill_eq (by simp only [List.length_append, List.length_cons, List.length_nil, put16,
            put32, hown, hmac]; decide),
          ok_bind]
        exact ⟨_, rfl⟩
      · exact ⟨_, rfl⟩

variable {ports : Nat → UdpPort}

theorem udpDeliver_eq (hports : ∀ i, (ports i).head < UDP_QUEUE) (srcIp srcPort destPort : Nat)
    (data : Bytes) :
    udpDeliver ports srcIp srcPort destPort data = .ok (Net.udpDeliver ports srcIp srcPort destPort data) := by
  unfold udpDeliver
  split
  · rename_i hnone
    rw [Net.udpDeliver, hnone]
  · rename_i i hsome
    split
    · rename_i hfull
      simp only [Net.udpDeliver, hsome, if_pos hfull]
    · have hlen : (if data.length > NET_UDP_MAX_PAYLOAD then NET_UDP_MAX_PAYLOAD else data.length) ≤ data.length ∧
          (if data.length > NET_UDP_MAX_PAYLOAD then NET_UDP_MAX_PAYLOAD else data.length) ≤ NET_UDP_MAX_PAYLOAD := by
        split <;> omega
      dsimp only
      rw [fill_eq (Nat.succ_le_of_lt (hports i)), ok_bind, slice_eq (by omega), ok_bind, fill_eq (by omega), ok_bind]

theorem pushPlaces_lt (data : Bytes) : ∀ {c : Tcp.Conn}, c.recvHead < Tcp.TCP_RECV_BUFFER →
    ∀ p ∈ pushPlaces c data, p < Tcp.TCP_RECV_BUFFER := by
  induction data with
  | nil => simp [pushPlaces]
  | cons b data ih =>
    intro c h
    rw [pushPlaces]
    split
    · simp
    · rw [List.forall_mem_cons]
      exact ⟨h, ih (Nat.mod_lt _ (by decide))⟩

theorem fillAll_eq {n : Nat} {places : List Nat} (h : ∀ p ∈ places, p < n) : fillAll n places = .ok () := by
  induction places with
  | nil => rfl
  | cons p places ih =>
    rw [List.forall_mem_cons] at h
    rw [fillAll, fill_eq (Nat.succ_le_of_lt h.1), ok_bind, ih h.2]

theorem tcpReceive_eq {t : Tcp.Stack} (hconns : ∀ i, (t.conns i).recvHead < Tcp.TCP_RECV_BUFFER)
    (now srcIp destIp : Nat)
    (seg : Bytes) : tcpReceive t now srcIp destIp seg = .ok (Net.tcpReceive t now srcIp destIp seg) := by
  rw [tcpReceive, Net.tcpReceive, tcpSegment_eq, ok_bind]
  cases Net.tcpSegment srcIp destIp seg with
  | none => rfl
  | some s =>
    dsimp only
    split
    · rfl
    · rename_i i _
      rw [fillAll_eq (pushPlaces_lt s.data (hconns i)), ok_bind]

/-! ## The heads of the rings -/

section Heads

open Tcp (Conn Stack Call Event TCP_RECV_BUFFER)

theorem recvPush_head (data : Bytes) : ∀ {c : Conn}, c.recvHead < TCP_RECV_BUFFER →
    (c.recvPush data).recvHead < TCP_RECV_BUFFER := by
  induction data with
  | nil => exact fun h => h
  | cons b data ih =>
    intro c h
    rw [Conn.recvPush]
    split
    · exact h
    · exact ih (Nat.mod_lt _ (by decide))

variable {c : Conn}

theorem takeData_head (h : c.recvHead < TCP_RECV_BUFFER) (s : Tcp.Segment) :
    (c.takeData s).recvHead < TCP_RECV_BUFFER := by
  unfold Conn.takeData
  split
  · exact h
  · split
    · exact recvPush_head s.data h
    · exact h

theorem takeFin_head (c : Conn) (now : Nat) (s : Tcp.Segment) : (c.takeFin now s).recvHead = c.recvHead := by
  unfold Conn.takeFin
  dsimp only
  split
  · split
    · rfl
    · split <;> rfl
  · split <;> rfl

theorem receive_head (h : c.recvHead < TCP_RECV_BUFFER) (now : Nat) (s : Tcp.Segment) :
    (c.receive now s).recvHead < TCP_RECV_BUFFER := by
  have hretire : (c.retire s).recvHead < TCP_RECV_BUFFER := by
    rw [(c.retire_ring s).recvHead]
    exact h
  have htake : (((c.retire s).takeData s).takeFin now s).recvHead < TCP_RECV_BUFFER := by
    rw [takeFin_head]
    exact takeData_head hretire s
  unfold Conn.receive
  split
  · exact h
  · dsimp only
    split
    · split <;> exact hretire
    · split <;> exact hretire
    · exact htake
    · exact htake
    · exact htake
    · split <;> exact hretire
    · exact hretire

theorem after_head (h : c.recvHead < TCP_RECV_BUFFER) (e : Event) : (c.after e).recvHead < TCP_RECV_BUFFER := by
  cases e with
  | segment now s => exact receive_head h now s
  | send now ok data =>
    rw [Conn.after, (c.send_ring now ok data).1.recvHead]
    exact h
  | recv max =>
    obtain ⟨tail, htail⟩ := c.recvLoop_eq max []
    have hloop : (c.recvLoop max []).2.recvHead = c.recvHead := by rw [htail]
    rw [Conn.after, Conn.recvInto]
    dsimp only
    split <;> exact lt_of_eq_of_lt hloop h
  | close now =>
    rw [Conn.after, Conn.close]
    have hfin := (c.sendTracked_ring now (Tcp.TCP_ACK ||| Tcp.TCP_FIN) []).recvHead
    split
    · exact lt_of_eq_of_lt hfin h
    · split
      · exact lt_of_eq_of_lt hfin h
      · exact h
  | tick now ok =>
    rw [Conn.after, (c.tick_ring now ok).recvHead]
    exact h

/-- The heads of all connections lie in their rings. -/
def Heads (t : Stack) : Prop := ∀ i, (t.conns i).recvHead < TCP_RECV_BUFFER

variable {t : Stack}

theorem Heads.set (h : Heads t) (i : Nat) (hc : c.recvHead < TCP_RECV_BUFFER) : Heads (t.set i c) := by
  intro j
  show (update t.conns i c j).recvHead < TCP_RECV_BUFFER
  by_cases hj : j = i
  · subst hj
    rw [update_self]
    exact hc
  · rw [update_of_ne hj]
    exact h j

theorem opened_head (now destIp destPort localPort : Nat) :
    (Conn.opened now destIp destPort localPort).recvHead < TCP_RECV_BUFFER := by
  rw [Conn.opened, (Conn.sendTracked_ring _ _ _ _).recvHead]
  exact (by decide : Conn.zero.recvHead < TCP_RECV_BUFFER)

theorem answered_head (now srcIp srcPort destPort theirSeq : Nat) :
    (Conn.answered now srcIp srcPort destPort theirSeq).recvHead < TCP_RECV_BUFFER := by
  rw [Conn.answered, (Conn.sendTracked_ring _ _ _ _).recvHead]
  exact (by decide : Conn.zero.recvHead < TCP_RECV_BUFFER)

theorem Heads.receive (h : Heads t) (now srcIp : Nat) (s : Tcp.Segment) : Heads (t.receive now srcIp s) := by
  unfold Stack.receive
  split
  · rename_i i _
    exact h.set i (receive_head (h i) now s)
  · split
    · unfold Stack.acceptSyn
      split
      · exact h.set _ (answered_head _ _ _ _ _)
      · exact h
    · exact h

theorem Heads.through (h : Heads t) (handle : Nat) (e : Event) : Heads (t.through handle e) := by
  unfold Stack.through Stack.handleConn
  split
  · rename_i c hc
    split at hc
    · cases hc
      exact h.set handle (after_head (h handle) e)
    · cases hc
  · exact h

theorem Heads.call {t : Stack} (h : Heads t) (c : Call) : Heads (t.call c).2 := by
  cases c with
  | connect configured now destIp destPort =>
    show Heads (t.connect configured now destIp destPort).2
    unfold Stack.connect
    split
    · exact h
    · split
      · rename_i i _
        exact h.set i (opened_head _ _ _ _)
      · exact h
  | accept port =>
    show Heads (t.accept port).2
    unfold Stack.accept
    split
    · rename_i i _
      exact h.set i (h i)
    · exact h
  | listen port =>
    intro i
    show (((t.listen port).2).conns i).recvHead < _
    rw [Stack.conns_listen]
    exact h i
  | unlisten port => exact h
  | segment now srcIp s => exact h.receive now srcIp s
  | tick now ok =>
    intro i
    show (if i < Tcp.TCP_MAX_CONNECTIONS ∧
        (t.conns i).inUse then (t.conns i).tick now (ok i) else t.conns i).recvHead < _
    split
    · exact after_head (h i) (.tick now (ok i))
    · exact h i
  | send handle now ok data => exact h.through handle _
  | recv handle max => exact h.through handle _
  | close handle now => exact h.through handle _

end Heads

/-! ## Runs -/

/-- What happens to the ports and the tables: a frame that arrives, with the
interface it meets, or a call. -/
inductive Step where
  | frame (h : Host) (now : Nat) (bytes : Bytes)
  | bind (port : Nat)
  | unbind (port : Nat)
  | recv (port : Nat)
  | call (c : Tcp.Call)

def Node.boot : Node := ⟨fun _ => ⟨0, false, fun _ => ⟨0, 0, []⟩, 0, 0⟩, Tcp.Stack.init⟩

def Node.step (n : Node) : Step → Node
  | .frame h now bytes =>
    match netdevReceive n h now bytes with
    | .ok (n, _) => n
    | .error _ => n
  | .bind port => { n with ports := (netUdpBind n.ports port).getD n.ports }
  | .unbind port => { n with ports := netUdpUnbind n.ports port }
  | .recv port => { n with ports := ((netUdpRecv n.ports port).map Prod.snd).getD n.ports }
  | .call c => { n with tcp := (n.tcp.call c).2 }

def Node.run (n : Node) (steps : List Step) : Node := steps.foldl Node.step n

/-- The rings are written inside. -/
structure Node.Fits (n : Node) : Prop where
  ports : ∀ i, (n.ports i).head < UDP_QUEUE
  conns : Heads n.tcp

theorem fits_boot : Node.boot.Fits := ⟨fun _ => (by decide : 0 < UDP_QUEUE),
      fun _ => (by decide : Tcp.Conn.zero.recvHead < Tcp.TCP_RECV_BUFFER)⟩

theorem heads_update (h : ∀ i, (ports i).head < UDP_QUEUE) (i : Nat) {p : UdpPort}
    (hp : p.head < UDP_QUEUE) (j : Nat) : (update ports i p j).head < UDP_QUEUE := by
  by_cases hj : j = i
  · subst hj
    rw [update_self]
    exact hp
  · rw [update_of_ne hj]
    exact h j

theorem udpDeliver_heads (h : ∀ i, (ports i).head < UDP_QUEUE) (srcIp srcPort destPort : Nat)
    (data : Bytes) : ∀ i, (Net.udpDeliver ports srcIp srcPort destPort data i).head < UDP_QUEUE := by
  cases hi : boundTo ports destPort with
  | none =>
    rw [Net.udpDeliver, hi]
    exact h
  | some i =>
    simp only [Net.udpDeliver, hi]
    split
    · exact h
    · exact heads_update h _ (Nat.mod_lt _ (by decide))

variable {n : Node}

theorem Node.Fits.take (h : n.Fits) (host : Host) (now : Nat) (input : Input) :
    ∃ n' reply, n.take host now input = .ok (n', reply) ∧ n'.Fits := by
  cases input with
  | dropped => exact ⟨n, none, rfl, h⟩
  | arp payload => exact ⟨n, none, rfl, h⟩
  | icmp src payload =>
    obtain ⟨reply, hreply⟩ := icmpReceive_ok host src payload
    exact ⟨n, reply, by rw [Node.take, hreply]; rfl, h⟩
  | udp src srcPort destPort data =>
    exact ⟨{ n with ports := Net.udpDeliver n.ports src srcPort destPort data }, none,
      by rw [Node.take, udpDeliver_eq h.ports]; rfl, udpDeliver_heads h.ports _ _ _ _, h.conns⟩
  | tcp src dest segment =>
    refine ⟨{ n with tcp := Net.tcpReceive n.tcp now src dest segment }, none,
      by rw [Node.take, tcpReceive_eq h.conns]; rfl, h.ports, ?_⟩
    show Heads (Net.tcpReceive n.tcp now src dest segment)
    unfold Net.tcpReceive
    split
    · exact h.conns.receive now src _
    · exact h.conns

theorem Node.Fits.receive (h : n.Fits) (host : Host) (now : Nat) (frame : Bytes) :
    ∃ n' reply, netdevReceive n host now frame = .ok (n', reply) ∧ n'.Fits := by
  unfold netdevReceive
  split
  · exact ⟨n, none, rfl, h⟩
  · rename_i hlen
    have hsize : 14 ≤ frame.length := Nat.not_lt.mp hlen
    rw [wordAt_eq (by omega), slice_eq (by omega)]
    simp only [ok_bind]
    split
    · obtain ⟨⟨learned, reply⟩, harp⟩ :=
          arpReceive_ok host ((frame.drop ETH_HDR_LEN).take (frame.length - ETH_HDR_LEN))
      rw [harp]
      exact ⟨n, reply, rfl, h⟩
    · split
      · rw [ipReceive_eq, ok_bind]
        exact h.take host now _
      · exact ⟨n, none, rfl, h⟩

theorem Node.Fits.step (h : n.Fits) (s : Step) : (n.step s).Fits := by
  cases s with
  | frame host now bytes =>
    obtain ⟨n', reply, hn, hfits⟩ := h.receive host now bytes
    rw [Node.step, hn]
    exact hfits
  | bind port =>
    refine ⟨?_, h.conns⟩
    dsimp only [Node.step, netUdpBind]
    split
    · exact h.ports
    · split
      · exact heads_update h.ports _ (by decide : 0 < UDP_QUEUE)
      · exact h.ports
  | unbind port =>
    refine ⟨?_, h.conns⟩
    show ∀ i, (netUdpUnbind n.ports port i).head < UDP_QUEUE
    cases hi : boundTo n.ports port with
    | none =>
      rw [netUdpUnbind, hi]
      exact h.ports
    | some i =>
      rw [netUdpUnbind, hi]
      exact heads_update h.ports i (h.ports i)
  | recv port =>
    refine ⟨?_, h.conns⟩
    dsimp only [Node.step, netUdpRecv]
    split
    · exact h.ports
    · split
      · exact h.ports
      · exact heads_update h.ports _ (h.ports _)
  | call c => exact ⟨h.ports, h.conns.call c⟩

theorem Node.Fits.run (h : n.Fits) (steps : List Step) : (n.run steps).Fits := by
  induction steps generalizing n with
  | nil => exact h
  | cons s steps ih => exact ih (h.step s)

/-- Whatever has arrived and been called before: a frame, a reply and a DHCP
message, of whatever bytes, are read and answered without a fault, and every
loop over them ends. -/
theorem parsers_stay_inside (steps : List Step) (h : Host) (now : Nat) (frame : Bytes) (id : Nat) (reply : Bytes)
    (xid : Nat) (message : Bytes) (v : Vars) :
    (∃ r, netdevReceive (Node.boot.run steps) h now frame = .ok r) ∧
    (∃ r, Dns.readReply id reply = .ok r) ∧
    parse xid message v = .ok (Dhcp.parse xid message v) := by
  obtain ⟨n, r, hn, -⟩ := (fits_boot.run steps).receive h now frame
  exact ⟨⟨_, hn⟩, readReply_ok id reply, parse_eq xid message v⟩

end NovarisOS.Net.Inside
