/-
NovarisOS.Tcp.Conn — one connection of `kernel/tcp.c`.

Sequence numbers, acknowledgement numbers and tick counts are 32 bits and
wrap (`wrap32`); `seqLe` is the signed comparison of a difference. The
segment in flight is the list of the bytes that `pending` holds, so
`pending_len` is its length. A flag byte is a number and its bits are tested
where the source masks them.

`net_send_ip` may fail.
-/
import NovarisOS.Lib.Machine
import NovarisOS.Lib.Mem

namespace NovarisOS.Tcp

/-- A number of 32 bits. -/
def wrap32 (n : Nat) : Nat := n % 0x100000000

abbrev TCP_MSS : Nat := 1460
abbrev TCP_RECV_BUFFER : Nat := 65536
abbrev RTO_INITIAL_TICKS : Nat := 100
abbrev RTO_MAX_TRIES : Nat := 5

abbrev TCP_FIN : Nat := 0x01
abbrev TCP_SYN : Nat := 0x02
abbrev TCP_RST : Nat := 0x04
abbrev TCP_PSH : Nat := 0x08
abbrev TCP_ACK : Nat := 0x10

/-- The bits a flag byte is tested for. -/
def fin (flags : Nat) : Bool := flags.testBit 0
def syn (flags : Nat) : Bool := flags.testBit 1
def rst (flags : Nat) : Bool := flags.testBit 2
def ack (flags : Nat) : Bool := flags.testBit 4

inductive State where
  | closed
  | listen
  | synSent
  | synReceived
  | established
  | finWait1
  | finWait2
  | closing
  | timeWait
  | closeWait
  | lastAck
  deriving DecidableEq

structure Conn where
  inUse : Bool
  state : State
  remoteIp : Nat
  remotePort : Nat
  localPort : Nat
  sndNext : Nat
  sndUnacked : Nat
  rcvNext : Nat
  pending : List UInt8
  pendingFlags : Nat
  pendingSeq : Nat
  rtoDeadline : Nat
  rtoTicks : Nat
  tries : Nat
  recv : Mem
  recvHead : Nat
  recvTail : Nat
  peerFinished : Bool
  ackPending : Bool
  accepted : Bool
  lastAdvertised : Nat
  timeWaitUntil : Nat

/-- A slot of the table as `kmemset` leaves it. -/
def Conn.zero : Conn :=
  ⟨false, .closed, 0, 0, 0, 0, 0, 0, [], 0, 0, 0, 0, 0, fun _ => 0, 0, 0, false, false, false, 0, 0⟩

/-- What `tcp_receive` reads of a segment. -/
structure Segment where
  srcPort : Nat
  destPort : Nat
  seq : Nat
  ack : Nat
  flags : Nat
  data : List UInt8
  seq_lt : seq < 0x100000000
  ack_lt : ack < 0x100000000

/-! ## Sequence arithmetic -/

/-- `a - b` on 32 bits. -/
def seqSub (a b : Nat) : Nat := wrap32 (a + 0x100000000 - b)

/-- `seq_le`: `(int32_t)(a - b) <= 0`. -/
def seqLe (a b : Nat) : Bool := seqSub a b = 0 || 0x80000000 ≤ seqSub a b

namespace Conn

/-! ## The receive ring -/

def recvFree (c : Conn) : Nat :=
  TCP_RECV_BUFFER - 1 - seqSub c.recvHead c.recvTail % TCP_RECV_BUFFER

def recvPush (c : Conn) : List UInt8 → Conn
  | [] => c
  | b :: data =>
    let next := (c.recvHead + 1) % TCP_RECV_BUFFER
    if next = c.recvTail then c
    else { c with recv := Function.update c.recv c.recvHead b, recvHead := next }.recvPush data

/-! ## Sending -/

/-- What `send_segment` keeps of the segment: the window it advertised. -/
def advertise (c : Conn) : Conn :=
  { c with lastAdvertised := if c.recvFree > 65535 then 65535 else c.recvFree }

/-- The sequence numbers that SYN and FIN occupy. -/
def control (flags : Nat) : Nat := if syn flags || fin flags then 1 else 0

def sendTracked (c : Conn) (now flags : Nat) (data : List UInt8) : Conn :=
  { c.advertise with
    pendingSeq := c.sndNext
    pendingFlags := flags
    pending := data
    sndNext := wrap32 (c.sndNext + data.length + control flags)
    rtoTicks := RTO_INITIAL_TICKS
    rtoDeadline := wrap32 (now + RTO_INITIAL_TICKS)
    tries := 0 }

/-- The initial sequence number. -/
def isn (now : Nat) : Nat := wrap32 (0x4E560000 + now * 64)

/-- What `tcp_connect` makes of a free slot. -/
def opened (now destIp destPort localPort : Nat) : Conn :=
  { zero with
    inUse := true, state := .synSent, remoteIp := destIp, remotePort := destPort
    localPort := localPort, sndNext := isn now, sndUnacked := isn now }.sendTracked now TCP_SYN []

/-- What `accept_syn` makes of a free slot. -/
def answered (now srcIp srcPort destPort theirSeq : Nat) : Conn :=
  { zero with
    inUse := true, state := .synReceived, remoteIp := srcIp, remotePort := srcPort
    localPort := destPort, rcvNext := wrap32 (theirSeq + 1), sndNext := isn now
    sndUnacked := isn now }.sendTracked now (TCP_SYN ||| TCP_ACK) []

/-! ## Receiving -/

/-- An acknowledgement of what is in flight retires it. -/
def retire (c : Conn) (s : Segment) : Conn :=
  if ack s.flags && seqLe c.sndUnacked s.ack && seqLe s.ack c.sndNext then
    let c := { c with sndUnacked := s.ack }
    if seqLe (wrap32 (c.pendingSeq + c.pending.length + control c.pendingFlags)) s.ack then
      { c with pending := [], pendingFlags := 0 }
    else c
  else c

/-- In-order data only, and all of a segment or none of it. -/
def takeData (c : Conn) (s : Segment) : Conn :=
  if s.data = [] then c
  else if s.seq = c.rcvNext && s.data.length ≤ c.recvFree then
    { c.recvPush s.data with rcvNext := wrap32 (c.rcvNext + s.data.length), ackPending := true }
  else { c with ackPending := true }

/-- The FIN, or else the acknowledgement of ours. -/
def takeFin (c : Conn) (now : Nat) (s : Segment) : Conn :=
  if fin s.flags && seqLe s.seq c.rcvNext then
    let c := { c with rcvNext := wrap32 (c.rcvNext + 1), peerFinished := true, ackPending := true }
    if c.state = .established then { c with state := .closeWait }
    else if c.state = .finWait1 ∨ c.state = .finWait2 then
      { c with state := .timeWait, timeWaitUntil := wrap32 (now + 200) }
    else c
  else if ack s.flags && c.state = .finWait1 && seqLe c.sndNext s.ack then
    { c with state := .finWait2 }
  else c

/-- `tcp_receive`, from where the connection has been found. -/
def receive (c : Conn) (now : Nat) (s : Segment) : Conn :=
  if rst s.flags then { c with state := .closed }
  else
    let c := c.retire s
    match c.state with
    | .synReceived =>
      if ack s.flags then { c with state := .established, pending := [], pendingFlags := 0 } else c
    | .synSent =>
      if syn s.flags && ack s.flags then
        { c with rcvNext := wrap32 (s.seq + 1), state := .established, ackPending := true }
      else c
    | .established | .finWait1 | .finWait2 => (c.takeData s).takeFin now s
    | .lastAck => if ack s.flags then { c with state := .closed } else c
    | _ => c

/-! ## The calls -/

/-- `tcp_send`. -/
def send (c : Conn) (now : Nat) (ok : Bool) (data : List UInt8) : Int × Conn :=
  if c.state ≠ .established then (-1, c)
  else if c.pending ≠ [] ∨ c.pendingFlags ≠ 0 then (0, c)
  else
    let take := if data.length < TCP_MSS then data.length else TCP_MSS
    let c := c.sendTracked now (TCP_ACK ||| TCP_PSH) (data.take take)
    if !ok then (0, c) else (take, c)

/-- The loop of `tcp_recv`. -/
def recvLoop (c : Conn) : Nat → List UInt8 → List UInt8 × Conn
  | 0, out => (out, c)
  | max + 1, out =>
    if c.recvTail ≠ c.recvHead then
      { c with recvTail := (c.recvTail + 1) % TCP_RECV_BUFFER }.recvLoop max (out ++ [c.recv c.recvTail])
    else (out, c)

/-- `tcp_recv`. -/
def recvInto (c : Conn) (max : Nat) : List UInt8 × Conn :=
  let (out, c) := c.recvLoop max []
  (out, if out ≠ [] ∧ c.recvFree ≥ wrap32 (c.lastAdvertised + TCP_MSS) then { c with ackPending := true } else c)

/-- `tcp_eof` of a slot that is in use. -/
def eof (c : Conn) : Bool := c.peerFinished && c.recvTail = c.recvHead

/-- `tcp_close`. -/
def close (c : Conn) (now : Nat) : Conn :=
  if c.state = .established then { c.sendTracked now (TCP_ACK ||| TCP_FIN) [] with state := .finWait1 }
  else if c.state = .closeWait then { c.sendTracked now (TCP_ACK ||| TCP_FIN) [] with state := .lastAck }
  else { c with inUse := false, state := .closed }

/-- The acknowledgement `tcp_tick` sends: asked for again if it did not go
out. -/
def tickAck (c : Conn) (ok : Bool) : Conn :=
  if c.ackPending then { c.advertise with ackPending := !ok } else c

/-- The retransmission `tcp_tick` makes. -/
def tickResend (c : Conn) (now : Nat) : Conn :=
  if c.pending = [] ∧ c.pendingFlags = 0 then c
  else if now < c.rtoDeadline then c
  else if c.tries + 1 > RTO_MAX_TRIES then { c with tries := c.tries + 1, state := .closed }
  else
    { c.advertise with
      tries := c.tries + 1
      rtoTicks := wrap32 (c.rtoTicks * 2)
      rtoDeadline := wrap32 (now + wrap32 (c.rtoTicks * 2)) }

/-- `tcp_tick`, for one slot that is in use. -/
def tick (c : Conn) (now : Nat) (ok : Bool) : Conn :=
  if c.state = .closed ∨ (c.state = .timeWait ∧ now ≥ c.timeWaitUntil) then { c with inUse := false }
  else (c.tickAck ok).tickResend now

end Conn

/-! ## What can happen to a connection -/

inductive Event where
  | segment (now : Nat) (s : Segment)
  | send (now : Nat) (ok : Bool) (data : List UInt8)
  | recv (max : Nat)
  | close (now : Nat)
  | tick (now : Nat) (ok : Bool)

/-- The connection after it. -/
def Conn.after (c : Conn) : Event → Conn
  | .segment now s => c.receive now s
  | .send now ok data => (c.send now ok data).2
  | .recv max => (c.recvInto max).2
  | .close now => c.close now
  | .tick now ok => c.tick now ok

end NovarisOS.Tcp
