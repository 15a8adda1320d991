/-
NovarisOS.Fd64.World — what a descriptor of the 64-bit kernel refers to:
`kernel/pipe64.c`, `kernel/sock64.c`, the descriptor layer of
`kernel/syscall64.c` and the tables of `kernel/proc64.c`.

A descriptor is a record that is copied: by `dup`, by `fork`, into a message.
What it refers to is counted.
-/
import NovarisOS.Pipe64.Pipe
import NovarisOS.Ramfs64.Tree

namespace NovarisOS.Fd64

open Ramfs64 (Fs ramfs64RefNode ramfs64UnrefNode)
open Pipe64 (Pipe)

abbrev FD_MAX : Nat := 2048
abbrev PROC64_MAX : Nat := 128
abbrev PIPE64_MAX : Nat := 2048
abbrev PIPE64_INFLIGHT : Nat := 16
abbrev SOCK64_MAX : Nat := 32
abbrev SOCK64_BACKLOG : Nat := 8

inductive Kind where
  | file
  | pipe
  | socket
  | signalfd
  | netlink
  deriving DecidableEq

/-- `fdpass64_t`: what a descriptor is without the process that holds it. -/
structure Target where
  kind : Kind
  node : Option Nat
  pos : Nat
  rx : Option Nat
  tx : Option Nat
  deriving DecidableEq

/-- `proc64_fd_t`, where `used` is set. -/
structure Desc extends Target where
  sock : Option Nat
  stamp : Nat
  nonblock : Bool
  cloexec : Bool
  deriving DecidableEq

/-- Something that is counted. -/
inductive Res where
  | reader (p : Nat)
  | writer (p : Nat)
  | node (n : Nat)
  deriving DecidableEq

/-- What a record refers to, in the order `fd_take_ref` counts it. -/
def Target.ends (t : Target) : List Res :=
  match t.kind with
  | .file => t.node.toList.map .node
  | _ => t.rx.toList.map .reader ++ t.tx.toList.map .writer

def Target.isStream (t : Target) : Bool :=
  decide (t.kind = .pipe) || (decide (t.kind = .socket) && (t.rx.isSome || t.tx.isSome))

/-- The socket a descriptor names. -/
def Desc.socket (d : Desc) : Option Nat := if d.kind = .socket then d.sock else none

/-- What `fd_release` gives back. -/
def Desc.given (d : Desc) : List Res :=
  match d.kind with
  | .signalfd => []
  | .netlink => []
  | _ => d.ends

/-- The ends a descriptor that finds no place is dropped by: those of a pipe,
whatever it is. -/
def Target.pipeEnds (t : Target) : List Res := t.rx.toList.map .reader ++ t.tx.toList.map .writer

/-- `pipe64_t`: the ring, and the messages' descriptors, oldest first. -/
structure Channel where
  pipe : Pipe
  inflight : List (List Target)

/-- The ends that the messages on the way hold. -/
def Channel.carried (c : Channel) : List Res := c.inflight.flatten.flatMap Target.ends

inductive SockState where
  | unbound
  | bound
  | listening
  | connected
  deriving DecidableEq

/-- `sock64_t`; the queue is the server's ends of the connections that wait,
oldest first. -/
structure Sock where
  state : SockState
  node : Option Nat
  backlog : Nat
  queue : List (Nat × Nat)
  used : Bool
  stamp : Nat
  deriving DecidableEq

/-- The ends that waiting connections hold. -/
def Sock.carried (s : Sock) : List Res := s.queue.flatMap fun c => [.reader c.1, .writer c.2]

namespace Sock

/-- `sock64_bind` on a socket in use. -/
def bind (x : Sock) (node : Nat) : Int × Sock :=
  if x.state ≠ .unbound then (-22, x) else (0, { x with node := some node, state := .bound })

/-- `sock64_listen` on a socket in use. -/
def listen (x : Sock) (backlog : Int) : Int × Sock :=
  if x.state ≠ .bound ∧ x.state ≠ .listening then (-22, x)
  else
    let backlog := if backlog < 1 then 1 else if backlog > SOCK64_BACKLOG then SOCK64_BACKLOG else backlog.toNat
    (0, { x with backlog := backlog, state := .listening })

/-- The part of `sock64_accept` that takes a connection off the queue. -/
def accept (x : Sock) : Int × Option (Nat × Nat) × Sock :=
  if x.state ≠ .listening then (-22, none, x)
  else
    match x.queue with
    | [] => (-11, none, x)
    | c :: rest => (0, some c, { x with queue := rest })

/-- A connection joins the queue. -/
def push (x : Sock) (c : Nat × Nat) : Sock := { x with queue := x.queue ++ [c] }

end Sock

/-- What is in a slot of the process table. -/
inductive Slot where
  | free
  | running
  | exited
  deriving DecidableEq

/-- The tables. A process is the slot it has in the process table. -/
structure World where
  fs : Fs
  pipes : Nat → Channel
  socks : Nat → Sock
  procs : Nat → Slot
  fds : Nat → Nat → Option Desc
  stamp : Nat
  smashed : Bool

namespace World

def setPipe (w : World) (p : Nat) (c : Channel) : World := { w with pipes := Function.update w.pipes p c }

def setSock (w : World) (s : Nat) (x : Sock) : World := { w with socks := Function.update w.socks s x }

def setFd (w : World) (me fd : Nat) (d : Option Desc) : World :=
  { w with fds := Function.update w.fds me (Function.update (w.fds me) fd d) }

/-! ## Counting -/

/-- One more holder. -/
def ref (w : World) : Res → World
  | .reader p => w.setPipe p { w.pipes p with pipe := (w.pipes p).pipe.ref true false }
  | .writer p => w.setPipe p { w.pipes p with pipe := (w.pipes p).pipe.ref false true }
  | .node n => { w with fs := ramfs64RefNode w.fs n }

/-- `pipe64_unref` of one pipe, and the ends its messages held if it was the
last. -/
def unrefPipe (w : World) (p : Nat) (reader writer : Bool) : List Res × World :=
  let c := w.pipes p
  let q := c.pipe.unref reader writer
  if c.pipe.used && !q.used then (c.carried, w.setPipe p ⟨q, []⟩)
  else ([], w.setPipe p { c with pipe := q })

/-- One holder less, and the ends that are to be given back for it. -/
def unrefOne (w : World) : Res → List Res × World
  | .reader p => w.unrefPipe p true false
  | .writer p => w.unrefPipe p false true
  | .node n => ([], { w with fs := ramfs64UnrefNode w.fs n })

/-- `pipe64_unref` and `drop_inflight`, for the ends still to be given back. -/
def unrefAll : Nat → List Res → World → World
  | 0, _, w => w
  | _ + 1, [], w => w
  | fuel + 1, r :: rest, w => unrefAll fuel ((w.unrefOne r).1 ++ rest) (w.unrefOne r).2

/-- The ends held by all the messages on the way. -/
@[irreducible] def pending (w : World) : Nat :=
  (List.range PIPE64_MAX).foldl (fun n p => n + (w.pipes p).carried.length) 0

def unref (w : World) (rs : List Res) : World := unrefAll (w.pending + rs.length) rs w

/-! ## Pipes -/

/-- `pipe64_create`: `heap` is the buffer the heap gives, if it gives one. -/
def pipe64Create (w : World) (heap : Option Mem) : Option Nat × World :=
  match (List.range PIPE64_MAX).find? fun p => !(w.pipes p).pipe.used with
  | none => (none, w)
  | some p =>
    match heap with
    | none => (none, w)
    | some buf => (some p, w.setPipe p ⟨Pipe64.create buf, []⟩)

/-- `pipe64_unref(p, 0, 0)`, for a pipe nobody has taken an end of. -/
def pipe64Drop (w : World) (p : Nat) : World := (w.unrefPipe p false false).2

def pipe64SendFds (w : World) (p : Nat) (batch : List Target) : Bool × World :=
  let c := w.pipes p
  if !c.pipe.used || batch.isEmpty || decide (8 < batch.length) ||
      decide (PIPE64_INFLIGHT ≤ c.inflight.length) then (false, w)
  else (true, w.setPipe p { c with inflight := c.inflight ++ [batch] })

/-- `pipe64_recv_fds` into room for eight, which is what a batch holds at
most: the oldest batch, or nothing. -/
def pipe64RecvFds (w : World) (p : Nat) : List Target × World :=
  let c := w.pipes p
  match c.inflight with
  | [] => ([], w)
  | batch :: rest =>
    if !c.pipe.used then ([], w)
    else
      let w := w.setPipe p { c with inflight := rest }
      (batch.take 8, w.unref ((batch.drop 8).flatMap Target.ends))

/-! ## Sockets -/

def sock64Create (w : World) : Option Nat × World :=
  match (List.range SOCK64_MAX).find? fun s => !(w.socks s).used with
  | none => (none, w)
  | some s => (some s, { w.setSock s ⟨.unbound, none, 0, [], true, w.stamp⟩ with stamp := w.stamp + 1 })

def sock64Destroy (w : World) (s : Nat) : World :=
  let x := w.socks s
  if x.used then
    (w.unref x.carried).setSock s { x with used := false, state := .unbound, node := none, queue := [] }
  else w

def sock64ListenerForNode (w : World) (node : Nat) : Option Nat :=
  (List.range SOCK64_MAX).find? fun s =>
    (w.socks s).used && decide ((w.socks s).state = .listening) && decide ((w.socks s).node = some node)

/-- `sock64_connect`: 0 with the caller's ends, or an errno. -/
def sock64Connect (w : World) (s listener : Nat) (heap₁ heap₂ : Option Mem) :
    Int × Option (Nat × Nat) × World :=
  if !(w.socks s).used then (-9, none, w)
  else if (w.socks s).state = .connected then (-106, none, w)
  else if !(w.socks listener).used || decide ((w.socks listener).state ≠ .listening) then (-111, none, w)
  else if (w.socks listener).backlog ≤ (w.socks listener).queue.length then (-11, none, w)
  else
    match w.pipe64Create heap₁ with
    | (none, w) => (-23, none, w)
    | (some a, w) =>
      match w.pipe64Create heap₂ with
      | (none, w) => (-23, none, w.pipe64Drop a)
      | (some b, w) =>
        let w := (w.ref (.reader b)).ref (.writer a)
        let w := w.setSock listener ((w.socks listener).push (a, b))
        let w := (w.ref (.reader a)).ref (.writer b)
        let w := w.setSock s { w.socks s with state := .connected }
        (0, some (b, a), w)

/-! ## Descriptors -/

def fdAlloc (w : World) (me lowest : Nat) : Option Nat :=
  (List.range' lowest (FD_MAX - lowest)).find? fun fd => (w.fds me fd).isNone

/-- `fd_take_ref`, for the record that was just copied. -/
def takeRef (w : World) (t : Target) : World := t.ends.foldl ref w

/-- The first part of `fd_release`. -/
def dropSocket (w : World) (d : Desc) : World :=
  match d.socket with
  | some s => w.sock64Destroy s
  | none => w

def fdRelease (w : World) (me fd : Nat) : World :=
  match w.fds me fd with
  | none => w
  | some d => ((w.dropSocket d).unref d.given).setFd me fd none

def fdInitPipe (w : World) (me fd : Nat) (rx tx : Option Nat) (nonblock cloexec : Bool) : World :=
  let t : Target := ⟨.pipe, none, 0, rx, tx⟩
  (w.setFd me fd (some ⟨t, none, 0, nonblock, cloexec⟩)).takeRef t

/-- `fd_adopt_pipe`: the ends are counted already. -/
def fdAdoptPipe (w : World) (me fd : Nat) (kind : Kind) (rx tx sock : Option Nat) (stamp : Nat)
    (nonblock cloexec : Bool) : World :=
  w.setFd me fd (some ⟨⟨kind, none, 0, rx, tx⟩, sock, stamp, nonblock, cloexec⟩)

/-- `fds[new] = fds[old]` and the count that goes with it. -/
def fdCopy (w : World) (me new : Nat) (d : Desc) (cloexec : Bool) : World :=
  (w.setFd me new (some { d with cloexec := cloexec })).takeRef d.toTarget

/-! ## The start -/

/-- `pipe64_init` and `sock64_init` over a file system, and one process with
nothing open. -/
def blank (fs : Fs) : World where
  fs := fs
  pipes := fun _ => ⟨⟨fun _ => 0, 0, 0, 0, 0, 0, false⟩, []⟩
  socks := fun _ => ⟨.unbound, none, 0, [], false, 0⟩
  procs := fun p => if p = 0 then .running else .free
  fds := fun _ _ => none
  stamp := 0
  smashed := false

/-- One of the descriptors of `syscall64_open_std`. -/
def openStdOne (w : World) (me fd : Nat) (node : Option Nat) : World :=
  match node with
  | none => w
  | some n =>
    let t : Target := ⟨.file, some n, 0, none, none⟩
    (w.setFd me fd (some ⟨t, none, 0, false, false⟩)).takeRef t

/-- `syscall64_open_std`: input is `/dev/null`, the two outputs are the
console. -/
def openStd (w : World) (me : Nat) : World :=
  let nul := Ramfs64.ramfs64Lookup w.fs (Ramfs64.text "/dev/null")
  let con := Ramfs64.ramfs64Lookup w.fs (Ramfs64.text "/dev/console")
  ((w.openStdOne me 0 nul).openStdOne me 1 con).openStdOne me 2 con

def boot (fs : Fs) : World := (blank fs).openStd 0

end World

end NovarisOS.Fd64
