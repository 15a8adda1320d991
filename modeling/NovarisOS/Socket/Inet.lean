/-
NovarisOS.Socket.Inet — the AF_INET sockets of `kernel/socket.c`, and the
ports they hold.

A datagram socket holds a port of `kernel/net.c`, a listening one a port of
`kernel/tcp.c`; the table of the first is the list of the ports that are
bound, the second is the stack's own. `socket` takes the slot that
`sock_alloc` found, which may be any that is free: the Unix sockets have slots
of the same table.
-/
import NovarisOS.Tcp.Stack
import NovarisOS.Vfs.Basic

namespace NovarisOS.Socket

abbrev AF_INET : Nat := 2
abbrev UDP_PORTS : Nat := 8
abbrev NET_UDP_MAX_PAYLOAD : Nat := 1472
abbrev DHCP_CLIENT_PORT : Nat := 68
abbrev DNS_CLIENT_PORT : Nat := 5353

abbrev EAGAIN : Int := 11
abbrev ENFILE : Int := 23
abbrev EPIPE : Int := 32
abbrev ENOTSOCK : Int := 88
abbrev EDESTADDRREQ : Int := 89
abbrev EMSGSIZE : Int := 90
abbrev EOPNOTSUPP : Int := 95
abbrev EAFNOSUPPORT : Int := 97
abbrev EADDRINUSE : Int := 98
abbrev ENOBUFS : Int := 105
abbrev EISCONN : Int := 106
abbrev ENOTCONN : Int := 107
abbrev ETIMEDOUT : Int := 110
abbrev ECONNREFUSED : Int := 111
abbrev EHOSTUNREACH : Int := 113
abbrev EINPROGRESS : Int := 115

inductive SockState where
  | free
  | unbound
  | bound
  | listening
  | connected
  | connecting
  deriving DecidableEq

/-- What an inet socket uses of `struct socket`. -/
structure Sock where
  state : SockState
  refs : Nat
  dgram : Bool
  nonblock : Bool
  tcp : Option Nat
  peerIp : Nat
  peerPort : Nat
  localPort : Nat
  boundPort : Nat

def Sock.free : Sock := ⟨.free, 0, false, false, none, 0, 0, 0, 0⟩

/-- A `sockaddr_in` that is long enough. -/
structure Addr where
  family : Nat
  ip : Nat
  port : Nat

structure Inet where
  socks : Nat → Sock
  /-- The ports of `udp_ports` that are bound. -/
  udp : List Nat
  nextDgramPort : Nat
  tcp : Tcp.Stack

namespace Inet

def init : Inet := ⟨fun _ => Sock.free, [], 40000, Tcp.Stack.init⟩

def setSock (t : Inet) (i : Nat) (s : Sock) : Inet := { t with socks := Function.update t.socks i s }

/-! ## Ports of `kernel/net.c` -/

/-- `net_udp_bind`: whether the port is bound now. -/
def netUdpBind (udp : List Nat) (port : Nat) : Bool × List Nat :=
  if port ∈ udp then (true, udp)
  else if udp.length < UDP_PORTS then (true, udp ++ [port])
  else (false, udp)

def netUdpUnbind (udp : List Nat) (port : Nat) : List Nat := udp.erase port

/-! ## Waiting -/

/-- What `net_poll` finds. -/
inductive Poll where
  | segment (now srcIp : Nat) (s : Tcp.Segment)
  | tick (now : Nat) (ok : Nat → Bool)

def poll (tcp : Tcp.Stack) : Poll → Tcp.Stack
  | .segment now srcIp s => tcp.receive now srcIp s
  | .tick now ok => tcp.tick now ok

def tcpState (tcp : Tcp.Stack) (handle : Nat) : Tcp.State :=
  match tcp.handleConn handle with
  | some c => c.state
  | none => .closed

/-- Waiting for the handshake: what the network does until it is decided or
the time is up. -/
def waitConnected (handle : Nat) (tcp : Tcp.Stack) : List Poll → Int × Tcp.Stack
  | [] => (-ETIMEDOUT, tcp)
  | p :: polls =>
    if tcpState tcp handle = .established then (0, tcp)
    else if tcpState tcp handle = .closed then (-ECONNREFUSED, tcp)
    else waitConnected handle (poll tcp p) polls

/-! ## Streams -/

def inetBind (t : Inet) (i : Nat) (addr : Option Addr) : Int × Inet :=
  let s := t.socks i
  match addr with
  | none => (-EINVAL, t)
  | some a =>
    if a.family ≠ AF_INET then (-EAFNOSUPPORT, t)
    else if s.state = .connected ∨ s.tcp.isSome then (-EINVAL, t)
    else (0, t.setSock i { s with localPort := a.port, state := .bound })

def inetListen (t : Inet) (i : Nat) : Int × Inet :=
  let s := t.socks i
  if s.state ≠ .bound ∨ s.localPort = 0 then (-EINVAL, t)
  else
    let (r, tcp) := t.tcp.listen s.localPort
    if r ≠ 0 then (-EADDRINUSE, t)
    else (0, { t with tcp := tcp }.setSock i { s with boundPort := s.localPort, state := .listening })

def inetConnect (t : Inet) (i : Nat) (addr : Option Addr) (configured : Bool) (now : Nat) (polls : List Poll) :
    Int × Inet :=
  let s := t.socks i
  match addr with
  | none => (-EINVAL, t)
  | some a =>
    if a.family ≠ AF_INET then (-EAFNOSUPPORT, t)
    else if s.state = .connected ∧ s.dgram = false then (-EISCONN, t)
    else if a.ip = 0 ∨ a.port = 0 then (-EINVAL, t)
    else if s.dgram then (0, t.setSock i { s with peerIp := a.ip, peerPort := a.port, state := .connected })
    else
      let (h, tcp) := t.tcp.connect configured now a.ip a.port
      if h < 0 then (-ENOBUFS, { t with tcp := tcp })
      else
        let s := { s with
          tcp := some h.toNat, peerIp := a.ip, peerPort := a.port, localPort := (tcp.conns h.toNat).localPort }
        if s.nonblock then (-EINPROGRESS, { t with tcp := tcp }.setSock i { s with state := .connecting })
        else
          let (r, tcp) := waitConnected h.toNat tcp polls
          if r = 0 then (0, { t with tcp := tcp }.setSock i { s with state := .connected })
          else (r, { t with tcp := tcp.through h.toNat (.close now) }.setSock i { s with tcp := none })

def inetSettle (t : Inet) (i : Nat) (now : Nat) (polls : List Poll) : Inet :=
  let s := t.socks i
  match s.tcp with
  | none => t
  | some h =>
    if s.state ≠ .connecting then t
    else
      let tcp := polls.foldl poll t.tcp
      if tcpState tcp h = .established then { t with tcp := tcp }.setSock i { s with state := .connected }
      else if tcpState tcp h = .closed then
        { t with tcp := tcp.through h (.close now) }.setSock i { s with tcp := none, state := .unbound }
      else { t with tcp := tcp }

/-- One turn of `tcp_send_all`. -/
structure Round where
  now : Nat
  ok : Bool
  polls : List Poll

/-- `tcp_send_all`, as many turns as it makes; a non-blocking write makes one. -/
def sendAll (handle : Nat) (tcp : Tcp.Stack) (sent : Nat) (data : List UInt8) : List Round → Int × Tcp.Stack
  | [] => (sent, tcp)
  | r :: rounds =>
    match tcp.handleConn handle with
    | none => (-1, tcp)
    | some c =>
      let (n, c) := c.send r.now r.ok data
      if n < 0 then (n, tcp.set handle c)
      else sendAll handle (r.polls.foldl poll (tcp.set handle c)) (sent + n.toNat) (data.drop n.toNat) rounds

/-- `inet_write` of a stream. -/
def inetWrite (t : Inet) (i : Nat) (now : Nat) (polls : List Poll) (data : List UInt8) (rounds : List Round) :
    Int × Inet :=
  let t := t.inetSettle i now polls
  let s := t.socks i
  if s.state = .connecting then (-EAGAIN, t)
  else
    match s.tcp with
    | none => (-ENOTCONN, t)
    | some h =>
      if s.state ≠ .connected then (-ENOTCONN, t)
      else
        let (n, tcp) := sendAll h t.tcp 0 data rounds
        (if n ≤ 0 then (if s.nonblock then -EAGAIN else -EPIPE) else n, { t with tcp := tcp })

/-! ## Datagrams -/

/-- The port that `dgram_ensure_port` binds, and the next one it would try. -/
def pickPort (udp : List Nat) : Nat → Nat → Option Nat × Nat
  | 0, next => (none, next)
  | tries + 1, next =>
    let after := if next + 1 > 49000 then 40000 else next + 1
    if (netUdpBind udp next).1 then (some next, after) else pickPort udp tries after

def dgramEnsurePort (t : Inet) (i : Nat) : Int × Inet :=
  let s := t.socks i
  if s.boundPort ≠ 0 then (0, t)
  else
    match pickPort t.udp 64 t.nextDgramPort with
    | (some p, next) =>
      (0, { t with udp := (netUdpBind t.udp p).2, nextDgramPort := next }.setSock i
        { s with boundPort := p, localPort := p })
    | (none, next) => (-EADDRINUSE, { t with nextDgramPort := next })

def dgramBind (t : Inet) (i : Nat) (addr : Option Addr) : Int × Inet :=
  let s := t.socks i
  match addr with
  | none => (-EINVAL, t)
  | some a =>
    if a.family ≠ AF_INET then (-EAFNOSUPPORT, t)
    else if s.boundPort ≠ 0 then (-EINVAL, t)
    else if a.port = 0 then t.dgramEnsurePort i
    else
      let (ok, udp) := netUdpBind t.udp a.port
      if ok then (0, { t with udp := udp }.setSock i { s with boundPort := a.port, localPort := a.port })
      else (-EADDRINUSE, t)

def dgramSendto (t : Inet) (i : Nat) (len : Nat) (dest : Option Addr) (sent : Bool) : Int × Inet :=
  let s := t.socks i
  if NET_UDP_MAX_PAYLOAD < len then (-EMSGSIZE, t)
  else
    let peer : Option (Nat × Nat) :=
      match dest with
      | some a => if a.family ≠ AF_INET then none else some (a.ip, a.port)
      | none => some (s.peerIp, s.peerPort)
    match peer with
    | none => (-EAFNOSUPPORT, t)
    | some (ip, port) =>
      if ip = 0 ∨ port = 0 then (-EDESTADDRREQ, t)
      else
        let (r, t) := t.dgramEnsurePort i
        if r ≠ 0 then (r, t) else (if sent then len else -EHOSTUNREACH, t)

/-! ## Descriptors -/

def socketClose (t : Inet) (i : Nat) (now : Nat) : Inet :=
  let s := t.socks i
  if 1 < s.refs then t.setSock i { s with refs := s.refs - 1 }
  else
    let t :=
      if s.boundPort ≠ 0 then
        if s.state = .listening then { t with tcp := t.tcp.unlisten s.boundPort }
        else { t with udp := netUdpUnbind t.udp s.boundPort }
      else t
    let t :=
      match s.tcp with
      | some h => { t with tcp := t.tcp.through h (.close now) }
      | none => t
    t.setSock i Sock.free

/-- `dns_resolve` and `dhcp_configure`, as far as the ports go. -/
def resolve (t : Inet) (port : Nat) : Inet :=
  let (ok, udp) := netUdpBind t.udp port
  if ok then { t with udp := netUdpUnbind udp port } else t

end Inet

/-! ## The calls -/

inductive Call where
  | socket (i : Nat) (dgram nonblock : Bool)
  | bind (i : Nat) (addr : Option Addr)
  | listen (i : Nat)
  | connect (i : Nat) (addr : Option Addr) (configured : Bool) (now : Nat) (polls : List Inet.Poll)
  | sendto (i : Nat) (data : List UInt8) (dest : Option Addr) (sent : Bool) (now : Nat) (polls : List Inet.Poll)
      (rounds : List Inet.Round)
  | dup (i : Nat)
  | close (i now : Nat)
  | resolveDns
  | configureDhcp
  | poll (p : Inet.Poll)

/-- The socket that a call is made on. -/
def Call.target : Call → Option Nat
  | .bind i _ => some i
  | .listen i => some i
  | .connect i _ _ _ _ => some i
  | .sendto i _ _ _ _ _ _ => some i
  | .dup i => some i
  | .close i _ => some i
  | _ => none

/-- `socket_syscall`, `socket_ref` and `socket_close`, on a descriptor whose
socket is in use. -/
def Inet.handle (t : Inet) : Call → Int × Inet
  | .socket i dgram nonblock =>
    if (t.socks i).state = .free then
      (0, t.setSock i { Sock.free with state := .unbound, refs := 1, dgram := dgram, nonblock := nonblock })
    else (-ENFILE, t)
  | .bind i addr => if (t.socks i).dgram then t.dgramBind i addr else t.inetBind i addr
  | .listen i => if (t.socks i).dgram then (-EOPNOTSUPP, t) else t.inetListen i
  | .connect i addr configured now polls => t.inetConnect i addr configured now polls
  | .sendto i data dest sent now polls rounds =>
    if (t.socks i).dgram then t.dgramSendto i data.length dest sent else t.inetWrite i now polls data rounds
  | .dup i => (0, t.setSock i { t.socks i with refs := (t.socks i).refs + 1 })
  | .close i now => (0, t.socketClose i now)
  | .resolveDns => (0, t.resolve DNS_CLIENT_PORT)
  | .configureDhcp => (0, t.resolve DHCP_CLIENT_PORT)
  | .poll p => (0, { t with tcp := Inet.poll t.tcp p })

/-- A call: a descriptor names no socket that is free. -/
def Inet.step (t : Inet) (c : Call) : Inet × Int :=
  match c.target with
  | some i => if (t.socks i).state = .free then (t, -ENOTSOCK) else ((t.handle c).2, (t.handle c).1)
  | none => ((t.handle c).2, (t.handle c).1)

def inet : Machine Inet Call Int := ⟨Inet.step⟩

end NovarisOS.Socket
