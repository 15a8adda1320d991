/-
NovarisOS.Net.RoundTrip — what is sent is what is received.

The checksum of a header that has its checksum in it is zero, because the sum
with the field is the sum without it and the field more (`ipHeader_sum`,
`tcpHeader_sum`). What Ethernet pads behind a packet is cut off by its
`total_length`. So a frame comes to the segment or the datagram it was built
from, whatever follows it.
-/
import NovarisOS.Net.Packets

namespace NovarisOS.Net

open Wire

/-! ## Checksums -/

theorem ipHeader_sum (total id protocol ck src dest : Nat) :
    sumWords (ipHeader total id protocol ck src dest) =
      sumWords (ipHeader total id protocol 0 src dest) + ck % 65536 := by
  simp only [ipHeader, put16, put32, List.cons_append, List.nil_append, sumWords, UInt8.toNat_ofNat']
  omega

theorem tcpHeader_sum (srcPort destPort seq ack flags window ck : Nat) (data : Bytes) :
    sumWords (tcpHeader srcPort destPort seq ack flags window ck ++ data) =
      sumWords (tcpHeader srcPort destPort seq ack flags window 0 ++ data) + ck % 65536 := by
  simp only [tcpHeader, put16, put32, List.cons_append, List.nil_append, sumWords, UInt8.toNat_ofNat']
  omega

theorem netChecksum_self {m m' : Bytes} {initial : Nat}
    (hsum : sumWords m' = sumWords m + netChecksum m initial % 65536)
    (hfits : initial + sumWords m + 65535 < 0x100000000) : netChecksum m' initial = 0 := by
  have hck : netChecksum m initial = complement (initial + sumWords m) := by
    rw [netChecksum, Nat.mod_eq_of_lt (by omega)]
  have hle := complement_le (initial + sumWords m)
  rw [netChecksum, hsum, hck, Nat.mod_eq_of_lt (Nat.lt_succ_of_le hle), ← Nat.add_assoc, Nat.mod_eq_of_lt (by omega)]
  exact complement_self _

theorem ipHeader_length (total id protocol ck src dest : Nat) :
    (ipHeader total id protocol ck src dest).length = IP_HDR_LEN := rfl

theorem tcpHeader_length (srcPort destPort seq ack flags window ck : Nat) :
    (tcpHeader srcPort destPort seq ack flags window ck).length = TCP_HDR_LEN := rfl

theorem ipHeader_checksum (total id protocol src dest : Nat) :
    netChecksum (ipHeader total id protocol
      (netChecksum (ipHeader total id protocol 0 src dest) 0) src dest) 0 = 0 := by
  apply netChecksum_self (ipHeader_sum _ _ _ _ _ _)
  have hle := sumWords_le (ipHeader total id protocol 0 src dest)
  rw [ipHeader_length, show (IP_HDR_LEN + 1) / 2 = 10 from rfl] at hle
  omega

/-! ## IP -/

section Packets

variable {h h' : Host} {id protocol ck src dest : Nat} {payload pad : Bytes}

theorem ipReceive_packet (hlen : payload.length + IP_HDR_LEN ≤ ETH_MTU) (hproto : protocol < 256)
    (hsrc : src < 0x100000000)
    (hdest : dest < 0x100000000) (hown : h.ip = dest)
    (hck : netChecksum (ipHeader (IP_HDR_LEN + payload.length) id protocol ck src dest) 0 = 0) :
    ipReceive h (ipHeader (IP_HDR_LEN + payload.length) id protocol ck src dest ++ (payload ++ pad)) =
      protocolInput protocol src dest payload := by
  generalize hm : ipHeader (IP_HDR_LEN + payload.length) id protocol ck src dest = header at hck ⊢
  have hsize : header.length = IP_HDR_LEN := by
    rw [← hm]
    rfl
  have hver : be8 (header ++ (payload ++ pad)) 0 = 0x45 := by
    rw [← hm]
    rfl
  have htotal : be16 (header ++ (payload ++ pad)) 2 = IP_HDR_LEN + payload.length := by
    rw [← hm]
    refine (word_bytes (IP_HDR_LEN + payload.length)).trans (Nat.mod_eq_of_lt ?_)
    simp only [IP_HDR_LEN, ETH_MTU] at hlen ⊢
    omega
  have hprotocol : be8 (header ++ (payload ++ pad)) 9 = protocol := by
    rw [← hm]
    exact Nat.mod_eq_of_lt hproto
  have hfrom : be32 (header ++ (payload ++ pad)) 12 = src := by
    rw [← hm]
    exact (dword_bytes src).trans (Nat.mod_eq_of_lt hsrc)
  have hto : be32 (header ++ (payload ++ pad)) 16 = dest := by
    rw [← hm]
    exact (dword_bytes dest).trans (Nat.mod_eq_of_lt hdest)
  have hheader : (header ++ (payload ++ pad)).take IP_HDR_LEN = header := by rw [← hsize, List.take_left]
  have hpayload : ((header ++ (payload ++ pad)).drop IP_HDR_LEN).take payload.length = payload := by
    rw [← hsize, List.drop_left, List.take_left]
  have hall : (header ++ (payload ++ pad)).length = IP_HDR_LEN + (payload.length + pad.length) := by
    rw [List.length_append, List.length_append, hsize]
  have hhdr : 0x45 % 16 * 4 = IP_HDR_LEN := rfl
  simp only [ipReceive, hver, htotal, hprotocol, hfrom, hto, hall, hhdr, hheader, Nat.add_sub_cancel_left, hpayload]
  rw [if_neg (by omega), if_neg (by decide), if_neg (by omega), if_neg (not_not.mpr hck), if_neg (by omega),
    if_neg (fun hc => hc.2.1 hown.symm)]

/-! ## Frames -/

theorem netdevReceive_frame {mac : Mac} {packet : Bytes} :
    netdevReceive h (mac.val ++ h'.mac.val ++ put16 ETH_P_IP ++ packet ++ pad) = ipReceive h (packet ++ pad) := by
  have hsize : (mac.val ++ h'.mac.val ++ put16 ETH_P_IP).length = ETH_HDR_LEN := by
    rw [List.length_append, List.length_append, mac.property, h'.mac.property]
    rfl
  have htype : be16 (mac.val ++ h'.mac.val ++ put16 ETH_P_IP ++ packet ++ pad) 12 = ETH_P_IP := by
    have hmacs : (mac.val ++ h'.mac.val).length = 12 := by rw [List.length_append, mac.property, h'.mac.property]
    rw [List.append_assoc _ packet, List.append_assoc _ (put16 ETH_P_IP)]
    have hat := be16_append (mac.val ++ h'.mac.val) (put16 ETH_P_IP ++ (packet ++ pad)) 0
    rw [hmacs] at hat
    exact hat.trans rfl
  have hrest : (mac.val ++ h'.mac.val ++ put16 ETH_P_IP ++ packet ++ pad).drop ETH_HDR_LEN = packet ++ pad := by
    rw [← hsize, List.append_assoc _ packet, List.drop_left]
  have hlen : ¬ (mac.val ++ h'.mac.val ++ put16 ETH_P_IP ++ packet ++ pad).length < ETH_HDR_LEN := by
    rw [List.append_assoc _ packet, List.length_append, hsize]
    omega
  rw [netdevReceive, if_neg hlen, htype, if_neg (by decide), if_pos rfl, hrest]

theorem netSendIp_arrives {mac : Mac} (hlen : payload.length + IP_HDR_LEN ≤ ETH_MTU) (hproto : protocol < 256)
    (hip : h'.ip < 0x100000000) (hdest : dest < 0x100000000) (hhop : nextHopMac h' dest = some mac)
    (hown : h.ip = dest) :
    ∃ frame, netSendIp h' dest protocol payload = .ok frame ∧
      ∀ pad, netdevReceive h (frame ++ pad) = protocolInput protocol h'.ip dest payload := by
  let header := ipHeader (IP_HDR_LEN + payload.length) h'.ipId protocol
  let ck := netChecksum (header 0 h'.ip dest) 0
  refine ⟨mac.val ++ h'.mac.val ++ put16 ETH_P_IP ++ (header ck h'.ip dest ++ payload), ?_, fun pad => ?_⟩
  · have hfits : ¬ (header ck h'.ip dest ++ payload).length > ETH_MTU := by
      rw [List.length_append, ipHeader_length]
      omega
    rw [netSendIp, if_neg (Nat.not_lt.mpr hlen), hhop]
    exact if_neg hfits
  · rw [netdevReceive_frame, List.append_assoc]
    exact ipReceive_packet hlen hproto hip hdest hown (ipHeader_checksum _ _ _ _ _)

end Packets

/-! ## TCP -/

/-- The fields of a connection have the widths of `tcp_conn_t`. -/
structure Typed (c : Tcp.Conn) : Prop where
  localPort : c.localPort < 0x10000
  remotePort : c.remotePort < 0x10000
  remoteIp : c.remoteIp < 0x100000000
  rcvNext : c.rcvNext < 0x100000000

section Segments

variable {h : Host} {c : Tcp.Conn} {flags seq : Nat} {data : Bytes}

theorem buildSegment_length : (buildSegment h c flags seq data).length = TCP_HDR_LEN + data.length := by
  rw [buildSegment, List.length_append, tcpHeader_length]

theorem pseudo_lt (srcIp destIp len : Nat) :
    srcIp / 65536 % 65536 + srcIp % 65536 + destIp / 65536 % 65536 + destIp % 65536 + IP_PROTO_TCP + len <
      0x40006 + len := by
  simp only [IP_PROTO_TCP]
  omega

theorem buildSegment_checksum (hlen : data.length ≤ Tcp.TCP_MSS) :
    segmentChecksum h.ip c.remoteIp (buildSegment h c flags seq data) = 0 := by
  have hsize : ∀ ck, (tcpHeader c.localPort c.remotePort seq c.rcvNext flags
      c.advertise.lastAdvertised ck ++ data).length =
      TCP_HDR_LEN + data.length := fun _ => List.length_append
  have hpseudo := pseudo_lt h.ip c.remoteIp (TCP_HDR_LEN + data.length)
  have hle := sumWords_le (tcpHeader c.localPort c.remotePort seq c.rcvNext flags c.advertise.lastAdvertised 0 ++ data)
  rw [hsize] at hle
  rw [buildSegment, segmentChecksum, hsize, segmentChecksum, hsize]
  apply netChecksum_self (tcpHeader_sum _ _ _ _ _ _ _ _)
  simp only [TCP_HDR_LEN, Tcp.TCP_MSS] at hlen hle hpseudo ⊢
  omega

theorem buildSegment_read (ht : Typed c) (hflags : flags < 256) (hseq : seq < 0x100000000)
    (hlen : data.length ≤ Tcp.TCP_MSS) :
    ∃ s, tcpSegment h.ip c.remoteIp (buildSegment h c flags seq data) = some s ∧ s.srcPort = c.localPort ∧
      s.destPort = c.remotePort ∧ s.seq = seq ∧ s.ack = c.rcvNext ∧ s.flags = flags ∧ s.data = data := by
  have hfield : be8 (buildSegment h c flags seq data) 12 = 0x50 := rfl
  have hoff : be8 (buildSegment h c flags seq data) 12 / 16 * 4 = TCP_HDR_LEN := by rw [hfield]
  refine ⟨readSegment (buildSegment h c flags seq data) TCP_HDR_LEN, ?_, ?_⟩
  · simp only [tcpSegment, hoff]
    rw [if_neg (by rw [buildSegment_length]; omega), if_neg (by rw [buildSegment_length]; omega),
      if_neg (not_not.mpr (buildSegment_checksum hlen))]
  · exact ⟨(word_bytes _).trans (Nat.mod_eq_of_lt ht.localPort), (word_bytes _).trans (Nat.mod_eq_of_lt ht.remotePort),
      (dword_bytes _).trans (Nat.mod_eq_of_lt hseq), (dword_bytes _).trans (Nat.mod_eq_of_lt ht.rcvNext),
      Nat.mod_eq_of_lt hflags, rfl⟩

theorem tcpSegment_changed {srcIp destIp off : Nat} {seg seg' : Bytes} (hlen : seg.length < 0x10000)
    (hpass : tcpSegment srcIp destIp seg ≠ none) (hsame : SameBut off seg seg')
    (hword : be16 seg' off % 65535 ≠ be16 seg off % 65535) : tcpSegment srcIp destIp seg' = none := by
  have hzero : segmentChecksum srcIp destIp seg = 0 := by
    by_contra hne
    refine hpass ?_
    simp only [tcpSegment]
    rw [if_pos hne]
    simp only [ite_self]
  have hbad : segmentChecksum srcIp destIp seg' ≠ 0 := by
    intro hzero'
    rw [segmentChecksum, netChecksum, complement_eq_zero] at hzero hzero'
    rw [hsame.length] at hzero'
    have hpseudo := pseudo_lt srcIp destIp seg.length
    generalize srcIp / 65536 % 65536 + srcIp % 65536 + destIp / 65536 % 65536 + destIp % 65536 + IP_PROTO_TCP +
      seg.length = initial at *
    have hle := sumWords_le seg
    have hle' := sumWords_le seg'
    rw [hsame.length] at hle'
    rw [Nat.mod_eq_of_lt (by omega)] at hzero hzero'
    have hsum := hsame.sumWords
    omega
  simp only [tcpSegment]
  rw [if_pos hbad]
  simp only [ite_self]

end Segments

/-! ## UDP -/

theorem udpInput_datagram {src srcPort destPort : Nat} {data : Bytes} (hsrc : srcPort < 0x10000)
    (hdest : destPort < 0x10000)
    (hlen : data.length ≤ NET_UDP_MAX_PAYLOAD) :
    udpInput src (udpHeader srcPort destPort (UDP_HDR_LEN + data.length) ++ data) =
      .udp src srcPort destPort data := by
  have hsize : (udpHeader srcPort destPort (UDP_HDR_LEN + data.length) ++ data).length = UDP_HDR_LEN + data.length :=
    List.length_append
  have hulen : be16 (udpHeader srcPort destPort (UDP_HDR_LEN + data.length) ++ data) 4 =
      UDP_HDR_LEN + data.length := by
    refine (word_bytes (UDP_HDR_LEN + data.length)).trans (Nat.mod_eq_of_lt ?_)
    simp only [UDP_HDR_LEN, NET_UDP_MAX_PAYLOAD] at hlen ⊢
    omega
  have hfrom : be16 (udpHeader srcPort destPort (UDP_HDR_LEN + data.length) ++ data) 0 = srcPort :=
    (word_bytes srcPort).trans (Nat.mod_eq_of_lt hsrc)
  have hport : be16 (udpHeader srcPort destPort (UDP_HDR_LEN + data.length) ++ data) 2 = destPort :=
    (word_bytes destPort).trans (Nat.mod_eq_of_lt hdest)
  have hdata : (udpHeader srcPort destPort (UDP_HDR_LEN + data.length) ++ data).drop UDP_HDR_LEN = data := rfl
  simp only [udpInput, hsize, hulen, hfrom, hport, hdata, Nat.add_sub_cancel_left]
  rw [if_neg (by omega), if_neg (by omega), List.take_length]

theorem udpDeliver_room {ports : Nat → UdpPort} {srcIp srcPort destPort i : Nat} {data : Bytes}
    (hbound : boundTo ports destPort = some i) (hroom : ((ports i).head + 1) % UDP_QUEUE ≠ (ports i).tail)
    (hlen : data.length ≤ NET_UDP_MAX_PAYLOAD) :
    (udpDeliver ports srcIp srcPort destPort data i).q (ports i).head = ⟨srcIp, srcPort, data⟩ ∧
      (udpDeliver ports srcIp srcPort destPort data i).head = ((ports i).head + 1) % UDP_QUEUE := by
  simp only [udpDeliver, hbound]
  rw [if_neg hroom, Function.update_self, List.take_of_length_le hlen]
  exact ⟨Function.update_self _ _ _, rfl⟩

/-! ## Both -/

/-- Segments and datagrams arrive as they were sent, whatever follows them in
the frame, and a segment with one word changed does not. -/
theorem frames_round_trip (sender receiver : Host) (hip : sender.ip < 0x100000000) :
    (∀ (c : Tcp.Conn) (mac : Mac) (flags seq : Nat) (data : Bytes), Typed c → flags < 256 → seq < 0x100000000 →
      data.length ≤ Tcp.TCP_MSS → nextHopMac sender c.remoteIp = some mac → receiver.ip = c.remoteIp →
      ∃ frame seg s, sendSegment sender c flags seq data = .ok frame ∧
        (∀ pad, netdevReceive receiver (frame ++ pad) = .tcp sender.ip c.remoteIp seg) ∧
        be16 seg 14 = c.advertise.lastAdvertised ∧
        s.srcPort = c.localPort ∧ s.destPort = c.remotePort ∧ s.seq = seq ∧ s.ack = c.rcvNext ∧ s.flags = flags ∧
        s.data = data ∧
        ∀ (t : Tcp.Stack) now, tcpReceive t now sender.ip c.remoteIp seg = t.receive now sender.ip s) ∧
    (∀ (mac : Mac) (destIp srcPort destPort : Nat) (data : Bytes), destIp < 0x100000000 → srcPort < 0x10000 →
      destPort < 0x10000 → data.length ≤ NET_UDP_MAX_PAYLOAD → nextHopMac sender destIp = some mac →
      receiver.ip = destIp →
      ∃ frame, netSendUdp sender destIp srcPort destPort data = .ok frame ∧
        (∀ pad, netdevReceive receiver (frame ++ pad) = .udp sender.ip srcPort destPort data) ∧
        ∀ (ports : Nat → UdpPort) i, boundTo ports destPort = some i →
          ((ports i).head + 1) % UDP_QUEUE ≠ (ports i).tail →
          (udpDeliver ports sender.ip srcPort destPort data i).q (ports i).head = ⟨sender.ip, srcPort, data⟩ ∧
          (udpDeliver ports sender.ip srcPort destPort data i).head = ((ports i).head + 1) % UDP_QUEUE) ∧
    (∀ (srcIp destIp off : Nat) (seg seg' : Bytes), seg.length < 0x10000 → tcpSegment srcIp destIp seg ≠ none →
      SameBut off seg seg' → be16 seg' off % 65535 ≠ be16 seg off % 65535 →
      ∀ (t : Tcp.Stack) now, tcpReceive t now srcIp destIp seg' = t) := by
  refine ⟨?_, ?_, ?_⟩
  · intro c mac flags seq data ht hflags hseq hlen hhop hown
    have hfits : (buildSegment sender c flags seq data).length + IP_HDR_LEN ≤ ETH_MTU := by
      rw [buildSegment_length]
      simp only [TCP_HDR_LEN, IP_HDR_LEN, ETH_MTU, Tcp.TCP_MSS] at hlen ⊢
      omega
    obtain ⟨frame, hsend, harrives⟩ :=
      netSendIp_arrives hfits (show IP_PROTO_TCP < 256 by decide) hip ht.remoteIp hhop hown
    obtain ⟨s, hread, hsrc, hdest, hseq', hack, hflags', hdata⟩ := buildSegment_read ht hflags hseq hlen
    have hwindow : c.advertise.lastAdvertised < 65536 := by
      show (if c.recvFree > 65535 then 65535 else c.recvFree) < 65536
      split <;> omega
    refine ⟨frame, _, s, ?_, harrives, (word_bytes _).trans (Nat.mod_eq_of_lt hwindow), hsrc, hdest, hseq', hack,
      hflags', hdata, fun t now => ?_⟩
    · rw [sendSegment, if_neg (Nat.not_lt.mpr hlen), hsend]
    · rw [tcpReceive, hread]
  · intro mac destIp srcPort destPort data hdest hsrc hport hlen hhop hown
    have hfits : (udpHeader srcPort destPort (UDP_HDR_LEN + data.length) ++ data).length + IP_HDR_LEN ≤ ETH_MTU := by
      rw [List.length_append, show
          (udpHeader srcPort destPort (UDP_HDR_LEN + data.length)).length = UDP_HDR_LEN from rfl]
      simp only [UDP_HDR_LEN, IP_HDR_LEN, ETH_MTU, NET_UDP_MAX_PAYLOAD] at hlen ⊢
      omega
    obtain ⟨frame, hsend, harrives⟩ := netSendIp_arrives hfits (show IP_PROTO_UDP < 256 by decide) hip hdest hhop hown
    refine ⟨frame, ?_, fun pad => (harrives pad).trans (udpInput_datagram hsrc hport hlen), fun ports i hbound hroom =>
      udpDeliver_room hbound hroom hlen⟩
    rw [netSendUdp, if_neg (Nat.not_lt.mpr hlen), hsend]
  · intro srcIp destIp off seg seg' hlen hpass hsame hword t now
    rw [tcpReceive, tcpSegment_changed hlen hpass hsame hword]

/-- Two hosts of a subnet that know each other, and a connection between them. -/
def subnetHost (ip : Nat) : Host :=
  ⟨broadcastMac, ip, 0xFFFFFF00, 0x0A000202, true, fun _ => some broadcastMac, 7⟩

def subnetConn : Tcp.Conn := { Tcp.Conn.zero with remoteIp := 0x0A000210, remotePort := 80, localPort := 49152 }

theorem subnetConn_typed : Typed subnetConn := ⟨by decide, by decide, by decide, by decide⟩

/-- A segment of three bytes and a datagram of one between two hosts of a subnet,
and the segment with its first word changed. -/
theorem frames_round_trip_subnet :
    (∃ frame seg s, sendSegment (subnetHost 0x0A00020F) subnetConn 0x18 100 [1, 2, 3] = .ok frame ∧
      (∀ pad, netdevReceive (subnetHost 0x0A000210) (frame ++ pad) = .tcp 0x0A00020F 0x0A000210 seg) ∧
      Tcp.Segment.data s = [1, 2, 3] ∧
      ∀ (t : Tcp.Stack) now, tcpReceive t now 0x0A00020F 0x0A000210 seg = t.receive now 0x0A00020F s) ∧
    (∃ frame, netSendUdp (subnetHost 0x0A00020F) 0x0A000210 68 67 [5] = .ok frame ∧
      ∀ pad, netdevReceive (subnetHost 0x0A000210) (frame ++ pad) = .udp 0x0A00020F 68 67 [5]) ∧
    ∀ (t : Tcp.Stack) now, tcpReceive t now 0x0A00020F 0x0A000210
      ([0, 9] ++ (buildSegment (subnetHost 0x0A00020F) subnetConn 0x18 100 [1, 2, 3]).drop 2) = t := by
  obtain ⟨htcp, hudp, hchanged⟩ := frames_round_trip (subnetHost 0x0A00020F) (subnetHost 0x0A000210) (by decide)
  refine ⟨?_, ?_, ?_⟩
  · obtain ⟨frame, seg, s, hsend, harrives, -, -, -, -, -, -, hdata, hreceive⟩ :=
      htcp subnetConn broadcastMac 0x18 100 [1, 2, 3] subnetConn_typed (by decide) (by decide) (by decide) rfl rfl
    exact ⟨frame, seg, s, hsend, harrives, hdata, hreceive⟩
  · obtain ⟨frame, hsend, harrives, -⟩ :=
      hudp broadcastMac 0x0A000210 68 67 [5] (by decide) (by decide) (by decide) (by decide) rfl rfl
    exact ⟨frame, hsend, harrives⟩
  · obtain ⟨s, hread, -⟩ := @buildSegment_read (subnetHost 0x0A00020F) subnetConn 0x18 100 [1, 2, 3] subnetConn_typed
      (by decide) (by decide) (by decide)
    refine hchanged 0x0A00020F 0x0A000210 0 _ _ ?_ (fun hnone => nomatch hread.symm.trans hnone) ⟨rfl, ⟨0, rfl⟩, ?_⟩ ?_
    · rw [buildSegment_length]
      decide
    · rintro (_ | _ | j) h₀ h₁
      · exact absurd rfl h₀
      · exact absurd rfl h₁
      · rfl
    · show 9 % 65535 ≠ 49152 % 65535
      decide

end NovarisOS.Net
