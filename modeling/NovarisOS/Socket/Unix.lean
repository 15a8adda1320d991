/-
NovarisOS.Socket.Unix — the AF_UNIX sockets of `kernel/socket.c`: who is
connected to whom, which names are bound, what waits to be accepted, and the
descriptors of `kernel/posix.c` that name them.

A pointer to a socket is its index in the table. Whether `kmalloc` has room
for a buffer, and what the file system answers to `bind`, are arguments of a
call; a path is the absolute one, as `posix_resolve_path` gives it.
-/
import NovarisOS.Socket.Inet

namespace NovarisOS.Socket.Unix

open Function (update)

abbrev MAX_SOCKETS : Nat := 1024
abbrev MAX_BACKLOG : Nat := 8
abbrev MAX_BOUND : Nat := 8
abbrev MAX_FDS : Nat := 512
abbrev EFAULT : Int := 14
abbrev EMFILE : Int := 24

abbrev Path := List UInt8

/-- What an AF_UNIX socket uses of `struct socket`. -/
structure UnixSock where
  state : SockState
  refs : Nat
  peer : Option Nat
  peerClosed : Bool
  shutRd : Bool
  shutWr : Bool
  nonblock : Bool
  backlog : List Nat
  path : Path
  deriving DecidableEq

def UnixSock.zero : UnixSock := ⟨.free, 0, none, false, false, false, false, [], []⟩

/-- A slot that `sock_alloc` has taken. -/
def UnixSock.fresh : UnixSock := { UnixSock.zero with state := .unbound, refs := 1 }

/-- `sockets` and `bound`. -/
structure Sockets where
  socks : Nat → UnixSock
  bound : Nat → Option (Path × Nat)

namespace Sockets

def set (t : Sockets) (i : Nat) (s : UnixSock) : Sockets := { t with socks := update t.socks i s }

def sockAlloc (t : Sockets) (mem : Bool) : Option (Nat × Sockets) :=
  match (List.range MAX_SOCKETS).find? fun i => (t.socks i).state = .free with
  | some i => if mem then some (i, t.set i UnixSock.fresh) else none
  | none => none

def sockFree (t : Sockets) (i : Nat) : Sockets :=
  if (t.socks i).state = .free then t
  else
    { socks := update t.socks i UnixSock.zero
      bound := fun j => if (t.bound j).map Prod.snd = some i then none else t.bound j }

def findBound (t : Sockets) (name : Path) : Option Nat :=
  (List.range MAX_BOUND).findSome? fun j =>
    match t.bound j with
    | some (path, i) => if path = name then some i else none
    | none => none

def linkPair (t : Sockets) (a b : Nat) : Sockets :=
  let t := t.set a { t.socks a with peer := some b, state := .connected }
  t.set b { t.socks b with peer := some a, state := .connected }

def socketRef (t : Sockets) (i : Nat) : Sockets :=
  if (t.socks i).state = .free then t else t.set i { t.socks i with refs := (t.socks i).refs + 1 }

/-- The peer of a socket that goes is told. -/
def dropPeer (t : Sockets) (i : Nat) : Sockets :=
  match (t.socks i).peer with
  | some p => t.set p { t.socks p with peerClosed := true, peer := none }
  | none => t

def socketClose (t : Sockets) (i : Nat) : Sockets :=
  if (t.socks i).refs > 1 then t.set i { t.socks i with refs := (t.socks i).refs - 1 }
  else ((t.dropPeer i).socks i).backlog.foldl sockFree (t.dropPeer i) |>.sockFree i

/-- Two sockets, connected; `socket_pipe` shuts one direction of each. -/
def newPair (t : Sockets) (mem mem' : Bool) : Option (Nat × Nat × Sockets) :=
  match t.sockAlloc mem with
  | none => none
  | some (a, t₁) =>
    match t₁.sockAlloc mem' with
    | none => none
    | some (b, t₂) => some (a, b, t₂.linkPair a b)

/-- One turn of the loop of `socket_unbind_path`. -/
def unbindSlot (name : Path) (t : Sockets) (j : Nat) : Sockets :=
  match t.bound j with
  | some (path, i) =>
    if path = name then
      { t.set i { t.socks i with state := .unbound } with bound := update t.bound j none }
    else t
  | none => t

def socketUnbindPath (t : Sockets) (name : Path) : Sockets :=
  (List.range MAX_BOUND).foldl (unbindSlot name) t

end Sockets

/-! ## Descriptors -/

/-- An entry of a process's descriptor table. -/
inductive Fd where
  | free
  | sock (i : Nat)
  | other
  deriving DecidableEq

/-- The sockets, and the descriptors of every process. -/
structure Graph where
  tbl : Sockets
  fds : Nat × Nat → Fd

namespace Graph

def init : Graph := ⟨⟨fun _ => UnixSock.zero, fun _ => none⟩, fun _ => .free⟩

def fdAlloc (fds : Nat × Nat → Fd) (p : Nat) : Option Nat :=
  (List.range MAX_FDS).find? fun fd => fds (p, fd) = .free

def fdSocket (g : Graph) (p fd : Nat) : Option Nat :=
  if fd < MAX_FDS then
    match g.fds (p, fd) with
    | .sock i => some i
    | _ => none
  else none

/-- `posix_fd_install_socket` into the descriptor that `fd_alloc` found. -/
def install (g : Graph) (p fd i : Nat) : Graph := { g with fds := update g.fds (p, fd) (.sock i) }

/-! ## The calls -/

/-- `do_socket`, of AF_UNIX. -/
def doSocket (g : Graph) (p : Nat) (mem : Bool) : Int × Graph :=
  match g.tbl.sockAlloc mem with
  | none => (-ENFILE, g)
  | some (i, t) =>
    match fdAlloc g.fds p with
    | none => (-EMFILE, { g with tbl := t.sockFree i })
    | some fd => (fd, { g with tbl := t }.install p fd i)

/-- `do_socketpair`. When the second descriptor is missing, the sockets are
closed and the first descriptor stays. -/
def doSocketpair (g : Graph) (p : Nat) (mem mem' : Bool) : Int × Graph :=
  match g.tbl.newPair mem mem' with
  | none =>
    match g.tbl.sockAlloc mem with
    | none => (-ENFILE, g)
    | some (a, t) => (-ENFILE, { g with tbl := t.sockFree a })
  | some (a, b, t) =>
    match fdAlloc g.fds p with
    | none => (-EMFILE, { g with tbl := (t.socketClose a).socketClose b })
    | some fa =>
      let g := { g with tbl := t }.install p fa a
      match fdAlloc g.fds p with
      | none => (-EMFILE, { g with tbl := (t.socketClose a).socketClose b })
      | some fb => (0, g.install p fb b)

/-- The descriptor is closed. -/
def closeFd (g : Graph) (p fd i : Nat) : Graph :=
  { tbl := g.tbl.socketClose i, fds := update g.fds (p, fd) .free }

def sysPipe (g : Graph) (p : Nat) (mem mem' : Bool) : Int × Graph :=
  match g.tbl.newPair mem mem' with
  | none =>
    match g.tbl.sockAlloc mem with
    | none => (-ENFILE, g)
    | some (r, t) => (-ENFILE, { g with tbl := t.sockFree r })
  | some (r, w, t) =>
    let t := t.set r { t.socks r with shutWr := true }
    let t := t.set w { t.socks w with shutRd := true }
    match fdAlloc g.fds p with
    | none => (-EMFILE, { g with tbl := (t.socketClose r).socketClose w })
    | some rfd =>
      let g := { g with tbl := t }.install p rfd r
      match fdAlloc g.fds p with
      | none =>
        let g := g.closeFd p rfd r
        (-EMFILE, { g with tbl := g.tbl.socketClose w })
      | some wfd => (0, g.install p wfd w)

/-- The first slot of `bound` that is free. -/
def freeName (t : Sockets) : Option Nat := (List.range MAX_BOUND).find? fun j => (t.bound j).isNone

/-- `do_bind`. `vfs` is the error of the file system, if it has one. -/
def doBind (g : Graph) (p fd : Nat) (name : Path) (vfs : Option Int) : Int × Graph :=
  match g.fdSocket p fd with
  | none => (-EFAULT, g)
  | some i =>
    if (g.tbl.socks i).state ≠ .unbound then (-EINVAL, g)
    else if (g.tbl.findBound name).isSome then (-EADDRINUSE, g)
    else
      match freeName g.tbl with
      | none => (-ENOSPC, g)
      | some j =>
        match vfs with
        | some e => (-e, g)
        | none =>
          let stored := name.take 107
          (0, { g with
                tbl :=
                  { g.tbl.set i { g.tbl.socks i with state := .bound, path := stored } with
                    bound := update g.tbl.bound j (some (stored, i)) } })

def doListen (g : Graph) (p fd : Nat) : Int × Graph :=
  match g.fdSocket p fd with
  | none => (-EBADF, g)
  | some i =>
    if (g.tbl.socks i).state ≠ .bound then (-EINVAL, g)
    else (0, { g with tbl := g.tbl.set i { g.tbl.socks i with state := .listening } })

def doConnect (g : Graph) (p fd : Nat) (name : Path) (mem : Bool) : Int × Graph :=
  match g.fdSocket p fd with
  | none => (-ENOTSOCK, g)
  | some i =>
    if (g.tbl.socks i).state = .connected then (-EISCONN, g)
    else
      match g.tbl.findBound name with
      | none => (-ENOENT, g)
      | some l =>
        if (g.tbl.socks l).state ≠ .listening then (-ECONNREFUSED, g)
        else if (g.tbl.socks l).backlog.length ≥ MAX_BACKLOG then (-EAGAIN, g)
        else
          match g.tbl.sockAlloc mem with
          | none => (-ENFILE, g)
          | some (e, t) =>
            let t := t.linkPair i e
            (0, { g with tbl := t.set l { t.socks l with backlog := (t.socks l).backlog ++ [e] } })

def doAccept (g : Graph) (p fd : Nat) : Int × Graph :=
  match g.fdSocket p fd with
  | none => (-EBADF, g)
  | some i =>
    if (g.tbl.socks i).state ≠ .listening then (-EINVAL, g)
    else
      match (g.tbl.socks i).backlog with
      | [] => (-EAGAIN, g)
      | c :: rest =>
        let t := g.tbl.set i { g.tbl.socks i with backlog := rest }
        match fdAlloc g.fds p with
        | none => (-EMFILE, { g with tbl := t.socketClose c })
        | some new => (new, { g with tbl := t }.install p new c)

/-- `shutdown`. -/
def doShutdown (g : Graph) (p fd : Nat) (rd wr : Bool) : Int × Graph :=
  match g.fdSocket p fd with
  | none => (-ENOTSOCK, g)
  | some i =>
    let s := g.tbl.socks i
    let t := g.tbl.set i { s with shutRd := s.shutRd || rd, shutWr := s.shutWr || wr }
    match wr, s.peer with
    | true, some q => (0, { g with tbl := t.set q { t.socks q with peerClosed := true } })
    | _, _ => (0, { g with tbl := t })

def sysClose (g : Graph) (p fd : Nat) : Int × Graph :=
  if fd < MAX_FDS then
    match g.fds (p, fd) with
    | .free => (-EBADF, g)
    | .sock i => (0, g.closeFd p fd i)
    | .other => (0, { g with fds := update g.fds (p, fd) .free })
  else (-EBADF, g)

def sysDup (g : Graph) (p fd : Nat) : Int × Graph :=
  if fd < MAX_FDS then
    match g.fds (p, fd), fdAlloc g.fds p with
    | .free, _ => (-EBADF, g)
    | _, none => (-EMFILE, g)
    | .sock i, some new => (new, { g with tbl := g.tbl.socketRef i }.install p new i)
    | .other, some new => (new, { g with fds := update g.fds (p, new) .other })
  else (-EBADF, g)

/-- A file is opened: a descriptor less. -/
def openFile (g : Graph) (p : Nat) : Int × Graph :=
  match fdAlloc g.fds p with
  | none => (-EMFILE, g)
  | some fd => (fd, { g with fds := update g.fds (p, fd) .other })

end Graph

inductive Call where
  | socket (p : Nat) (mem : Bool)
  | socketpair (p : Nat) (mem mem' : Bool)
  | pipe (p : Nat) (mem mem' : Bool)
  | bind (p fd : Nat) (name : Path) (vfs : Option Int)
  | listen (p fd : Nat)
  | connect (p fd : Nat) (name : Path) (mem : Bool)
  | accept (p fd : Nat)
  | shutdown (p fd : Nat) (rd wr : Bool)
  | unlink (name : Path)
  | close (p fd : Nat)
  | dup (p fd : Nat)
  | openFile (p : Nat)

def Graph.call (g : Graph) : Call → Int × Graph
  | .socket p mem => g.doSocket p mem
  | .socketpair p mem mem' => g.doSocketpair p mem mem'
  | .pipe p mem mem' => g.sysPipe p mem mem'
  | .bind p fd name vfs => g.doBind p fd name vfs
  | .listen p fd => g.doListen p fd
  | .connect p fd name mem => g.doConnect p fd name mem
  | .accept p fd => g.doAccept p fd
  | .shutdown p fd rd wr => g.doShutdown p fd rd wr
  | .unlink name => (0, { g with tbl := g.tbl.socketUnbindPath name })
  | .close p fd => g.sysClose p fd
  | .dup p fd => g.sysDup p fd
  | .openFile p => g.openFile p

def machine : Machine Graph Call Int := ⟨fun g c => ((g.call c).2, (g.call c).1)⟩

end NovarisOS.Socket.Unix
