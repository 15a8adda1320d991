/-
NovarisOS.Fd64.Calls — the system calls that make, copy and drop descriptors,
`kernel/syscall64.c`.

A call is made by a process, `me`, and gives an errno or a descriptor. A path
is what `abs_path` made of the program's. A call that would have to wait
returns `-EAGAIN` here and has done what it had done by then: the kernel runs
it again from the start when it is woken, and that is one more call.
-/
import NovarisOS.Fd64.World

namespace NovarisOS.Fd64

open Ramfs64 (Fs ramfs64Lookup ramfs64LookupNofollow ramfs64Create ramfs64SetDevice ramfs64SetMode ramfs64Truncate
  ramfs64Unlink ramfs64Rename ramfs64Mkdirp text)

abbrev RAMFS64_DEV_SOCK : Nat := 4

/-- The flags of `open` that matter here. -/
structure OpenFlags where
  creat : Bool
  trunc : Bool
  append : Bool
  nonblock : Bool
  cloexec : Bool

/-- What becomes of a `fork` after the descriptors are copied: it succeeds,
or there is no memory for the address space, or no task for the child. -/
inductive ForkEnd where
  | done
  | noSpace
  | noTask
  deriving DecidableEq

namespace World

/-! ## Files, pipes and pairs -/

/-- `refresh_meminfo`, which makes the file if it is gone. What it writes into
it is left out. -/
def refreshMeminfo (fs : Fs) : Fs :=
  match ramfs64Lookup fs (text "/proc/meminfo") with
  | some _ => fs
  | none =>
    match ramfs64Create (ramfs64Mkdirp fs (text "/proc")).2 (text "/proc/meminfo") false with
    | (none, fs) => fs
    | (some node, fs) => ramfs64SetMode fs node 0o444

/-- The node `do_open` opens. -/
def openNode (fs : Fs) (path : List UInt8) (flags : OpenFlags) (mode : Nat) : Except Int Nat × Fs :=
  let fs := if path = text "/proc/meminfo" then refreshMeminfo fs else fs
  match ramfs64Lookup fs path with
  | some node => (.ok node, if flags.trunc then fs.modify node fun nd => (ramfs64Truncate nd).2 else fs)
  | none =>
    if !flags.creat then (.error (-2), fs)
    else
      match ramfs64Create fs path false with
      | (none, fs) => (.error (-28), fs)
      | (some node, fs) => (.ok node, ramfs64SetMode fs node mode)

/-- `do_open`. -/
def sysOpen (w : World) (me : Nat) (path : List UInt8) (flags : OpenFlags) (mode : Nat) : Int × World :=
  match openNode w.fs path flags mode with
  | (.error e, fs) => (e, { w with fs := fs })
  | (.ok node, fs) =>
    let w := { w with fs := fs }
    match w.fdAlloc me 3 with
    | none => (-24, w)
    | some fd =>
      let pos := if flags.append then (fs.nodes node).size else 0
      let t : Target := ⟨.file, some node, pos, none, none⟩
      (fd, (w.takeRef t).setFd me fd (some ⟨t, none, 0, flags.nonblock, flags.cloexec⟩))

def sysClose (w : World) (me fd : Nat) : Int × World :=
  if fd < 3 ∨ FD_MAX ≤ fd ∨ (w.fds me fd).isNone then (-9, w) else (0, w.fdRelease me fd)

def sysPipe2 (w : World) (me : Nat) (nonblock cloexec : Bool) (heap : Option Mem) : Int × World :=
  match w.pipe64Create heap with
  | (none, w) => (-23, w)
  | (some p, w) =>
    match w.fdAlloc me 3 with
    | none => (-24, w.pipe64Drop p)
    | some rd =>
      let w := w.fdInitPipe me rd (some p) none nonblock cloexec
      match w.fdAlloc me 3 with
      | none => (-24, w.fdRelease me rd)
      | some wr => (0, w.fdInitPipe me wr none (some p) nonblock cloexec)

def sysSocketpair (w : World) (me : Nat) (nonblock cloexec : Bool) (heap₁ heap₂ : Option Mem) : Int × World :=
  match w.pipe64Create heap₁ with
  | (none, w) => (-23, w)
  | (some p, w) =>
    match w.pipe64Create heap₂ with
    | (none, w) => (-23, w.pipe64Drop p)
    | (some q, w) =>
      match w.fdAlloc me 3 with
      | none => (-24, (w.pipe64Drop p).pipe64Drop q)
      | some s₀ =>
        let w := w.fdInitPipe me s₀ (some p) (some q) nonblock cloexec
        match w.fdAlloc me 3 with
        | none => (-24, (w.fdRelease me s₀).pipe64Drop q)
        | some s₁ => (0, w.fdInitPipe me s₁ (some q) (some p) nonblock cloexec)

/-! ## Listening sockets -/

def sysSocket (w : World) (me : Nat) (nonblock cloexec : Bool) : Int × World :=
  match w.sock64Create with
  | (none, w) => (-23, w)
  | (some s, w) =>
    match w.fdAlloc me 3 with
    | none => (-24, w.sock64Destroy s)
    | some fd => (fd, w.fdAdoptPipe me fd .socket none none (some s) (w.socks s).stamp nonblock cloexec)

/-- The socket that a call on sockets is about. -/
def sockOf (w : World) (me fd : Nat) : Except Int Nat :=
  match w.fds me fd with
  | none => .error (-9)
  | some d =>
    match d.socket with
    | none => .error (-88)
    | some s => .ok s

def sysBind (w : World) (me fd : Nat) (path : List UInt8) : Int × World :=
  match w.sockOf me fd with
  | .error e => (e, w)
  | .ok s =>
    if (ramfs64LookupNofollow w.fs path).isSome then (-98, w)
    else
      match ramfs64Create w.fs path false with
      | (none, fs) => (-28, { w with fs := fs })
      | (some node, fs) =>
        let w := { w with fs := ramfs64SetMode (ramfs64SetDevice fs node RAMFS64_DEV_SOCK) node 0o755 }
        if (w.socks s).used then
          (((w.socks s).bind node).1, w.setSock s ((w.socks s).bind node).2)
        else (-9, w)

def sysListen (w : World) (me fd : Nat) (backlog : Int) : Int × World :=
  match w.sockOf me fd with
  | .error e => (e, w)
  | .ok s =>
    if (w.socks s).used then (((w.socks s).listen backlog).1, w.setSock s ((w.socks s).listen backlog).2)
    else (-9, w)

/-- The listener that `connect` finds at a path. -/
def listenerAt (w : World) (path : List UInt8) : Except Int Nat :=
  match ramfs64LookupNofollow w.fs path with
  | none => .error (-2)
  | some node =>
    if (w.fs.nodes node).device ≠ RAMFS64_DEV_SOCK then .error (-111)
    else
      match w.sock64ListenerForNode node with
      | none => .error (-111)
      | some l => .ok l

def sysConnect (w : World) (me fd : Nat) (path : List UInt8) (heap₁ heap₂ : Option Mem) : Int × World :=
  match w.sockOf me fd with
  | .error e => (e, w)
  | .ok s =>
    match w.listenerAt path with
    | .error e => (e, w)
    | .ok l =>
      match w.sock64Connect s l heap₁ heap₂ with
      | (rc, none, w) => (rc, w)
      | (rc, some (rx, tx), w) =>
        (rc, w.setFd me fd ((w.fds me fd).map fun d => { d with rx := some rx, tx := some tx }))

def sysAccept4 (w : World) (me fd : Nat) (nonblock cloexec : Bool) : Int × World :=
  match w.sockOf me fd with
  | .error e => (e, w)
  | .ok s =>
    if !(w.socks s).used then (-9, w)
    else
      match (w.socks s).accept with
      | (rc, none, _) => (rc, w)
      | (_, some (rx, tx), x) =>
        let w := w.setSock s x
        match w.fdAlloc me 3 with
        | none => (-24, w.unref [.reader rx, .writer tx])
        | some nfd => (nfd, w.fdAdoptPipe me nfd .socket (some rx) (some tx) none 0 nonblock cloexec)

/-! ## Copies -/

def sysDup (w : World) (me fd : Nat) : Int × World :=
  match w.fds me fd with
  | none => (-9, w)
  | some d =>
    match w.fdAlloc me 3 with
    | none => (-24, w)
    | some nfd => (nfd, w.fdCopy me nfd d false)

/-- `fcntl` with F_DUPFD or F_DUPFD_CLOEXEC. -/
def sysDupfd (w : World) (me fd lowest : Nat) (cloexec : Bool) : Int × World :=
  match w.fds me fd with
  | none => (-9, w)
  | some d =>
    match w.fdAlloc me lowest with
    | none => (-24, w)
    | some nfd => (nfd, w.fdCopy me nfd d cloexec)

/-- `dup2`, and `dup3` where `three` says so. -/
def sysDup2 (w : World) (me old new : Nat) (three cloexec : Bool) : Int × World :=
  match w.fds me old with
  | none => (-9, w)
  | some d =>
    if FD_MAX ≤ new then (-9, w)
    else if old = new then (if three then -22 else new, w)
    else (new, (w.fdRelease me new).fdCopy me new d (three && cloexec))

/-! ## Processes -/

/-- The loop of `proc64_fork_from`: the descriptors of `me` from `fd` on. -/
def forkFds (me child : Nat) : List Nat → World → World
  | [], w => w
  | fd :: rest, w =>
    match w.fds me fd with
    | none => forkFds me child rest (w.setFd child fd none)
    | some d => forkFds me child rest ((w.setFd child fd (some d)).takeRef d.toTarget)

/-- A process's slot is given up with what is in it. -/
def forget (w : World) (child : Nat) : World :=
  { w with
    procs := Function.update w.procs child .free
    fds := Function.update w.fds child (fun _ => none) }

/-- `do_fork_common`. The child is the first free slot. -/
def sysFork (w : World) (me : Nat) (how : ForkEnd) : Int × World :=
  match (List.range PROC64_MAX).find? fun p => decide (w.procs p = .free) with
  | none => (-11, w)
  | some child =>
    let w := { w with procs := Function.update w.procs child .running }
    let w := forkFds me child (List.range FD_MAX) w
    match how with
    | .done => (child, w)
    | .noSpace => (-12, w.forget child)
    | .noTask => (-11, w)

/-- The end of `execve`: what is to be closed is closed. -/
def sysExec (w : World) (me : Nat) : Int × World :=
  (0, (List.range FD_MAX).foldl
    (fun w fd => if ((w.fds me fd).map (·.cloexec)).getD false then w.fdRelease me fd else w) w)

def closeAllFiles (w : World) (me : Nat) : World :=
  (List.range FD_MAX).foldl (fun w fd => w.fdRelease me fd) w

/-- `proc64_exit`. The slot stays until somebody asks how the process
ended. -/
def sysExit (w : World) (me : Nat) : Int × World :=
  let w := w.closeAllFiles me
  (0, { w with procs := Function.update w.procs me .exited })

/-! ## Messages -/

/-- The inner loop of `sendmsg`: the descriptors of one header. -/
def gather (me : Nat) : List Int → List Target → World → Except Int (List Target) × World
  | [], got, w => (.ok got, w)
  | sfd :: rest, got, w =>
    match (if sfd < 0 then none else w.fds me sfd.toNat) with
    | none => (.error (-9), w)
    | some d =>
      if d.socket.isSome then (.error (-22), w)
      else gather me rest (got ++ [d.toTarget]) (w.takeRef d.toTarget)

/-- The outer loop: the headers. -/
def gatherAll (me : Nat) : List (Option (List Int)) → List Target → World → Except Int (List Target) × World
  | [], got, w => (.ok got, w)
  | none :: rest, got, w => gatherAll me rest got w
  | some sent :: rest, got, w =>
    if 8 < sent.length then (.error (-22), w)
    else
      match gather me sent got w with
      | (.error e, w) => (.error e, w)
      | (.ok got, w) => gatherAll me rest got { w with smashed := w.smashed || decide (8 < got.length) }

/-- The loop over the buffers of `sendmsg`; `total` bytes are written. -/
def sendBytes (p : Nat) : List (List UInt8) → Nat → World → Int × World
  | [], total, w => (total, w)
  | v :: rest, total, w =>
    if v = [] then sendBytes p rest total w
    else
      let (r, q) := (w.pipes p).pipe.write (fun i => v.getD i 0) v.length
      let w := w.setPipe p { w.pipes p with pipe := q }
      if r < 0 then (r, w)
      else if r < v.length then (total + r, w)
      else sendBytes p rest (total + r.toNat) w

def sysSendmsg (w : World) (me fd : Nat) (control : List (Option (List Int))) (iov : List (List UInt8)) :
    Int × World :=
  match w.fds me fd with
  | none => (-9, w)
  | some d =>
    if !d.isStream then (-88, w)
    else
      match d.tx with
      | none => (-9, w)
      | some p =>
        match gatherAll me control [] w with
        | (.error e, w) => (e, w)
        | (.ok got, w) =>
          if got = [] then sendBytes p iov 0 w
          else
            match w.pipe64SendFds p got with
            | (false, w) => (-11, w.unref (got.flatMap Target.ends))
            | (true, w) => sendBytes p iov 0 w

/-- The loop over the buffers of `recvmsg`. -/
def recvBytes (p : Nat) : List Nat → Nat → World → Int × World
  | [], total, w => (total, w)
  | n :: rest, total, w =>
    if n = 0 then recvBytes p rest total w
    else
      let ((r, _), q) := (w.pipes p).pipe.read n
      let w := w.setPipe p { w.pipes p with pipe := q }
      if r < 0 then (r, w)
      else if r < n then (total + r, w)
      else recvBytes p rest (total + r.toNat) w

/-- The descriptors of a batch get their numbers. -/
def install (me : Nat) (cloexec : Bool) : List Target → World → World
  | [], w => w
  | t :: rest, w =>
    match w.fdAlloc me 3 with
    | none => install me cloexec rest (w.unref t.pipeEnds)
    | some nfd => install me cloexec rest (w.setFd me nfd (some ⟨t, none, 0, false, cloexec⟩))

/-- `recvmsg`, with the length of the control buffer if there is one. -/
def sysRecvmsg (w : World) (me fd : Nat) (control : Option Nat) (iov : List Nat) (cloexec : Bool) : Int × World :=
  match w.fds me fd with
  | none => (-9, w)
  | some d =>
    if !d.isStream then (-88, w)
    else
      match d.rx with
      | none => (-9, w)
      | some p =>
        let (total, w) := recvBytes p iov 0 w
        if total < 0 then (total, w)
        else
          let (got, w) := w.pipe64RecvFds p
          match control with
          | none => (total, w)
          | some room =>
            if got = [] then (total, w)
            else if room < 16 + 4 * got.length then (total, w.unref (got.flatMap Target.pipeEnds))
            else (total, install me cloexec got w)

/-- `shutdown`: 0 is the reading side, 1 the writing side, 2 both. -/
def sysShutdown (w : World) (me fd how : Nat) : Int × World :=
  match w.fds me fd with
  | none => (-9, w)
  | some d =>
    if !d.isStream then (-88, w)
    else
      let rx := if how = 0 ∨ how = 2 then d.rx else none
      let tx := if how = 1 ∨ how = 2 then d.tx else none
      let d' : Desc := { d with
        rx := if rx.isSome then none else d.rx
        tx := if tx.isSome then none else d.tx }
      (0, (w.unref (rx.toList.map .reader ++ tx.toList.map .writer)).setFd me fd (some d'))

/-! ## Bytes and names -/

/-- `read` of a stream. -/
def sysRead (w : World) (me fd n : Nat) : (Int × List UInt8) × World :=
  match w.fds me fd with
  | none => ((-9, []), w)
  | some d =>
    match (if d.isStream then d.rx else none) with
    | none => ((-9, []), w)
    | some p =>
      let (r, q) := (w.pipes p).pipe.read n
      (r, w.setPipe p { w.pipes p with pipe := q })

/-- `write` to a stream. -/
def sysWrite (w : World) (me fd : Nat) (data : List UInt8) : Int × World :=
  match w.fds me fd with
  | none => (-9, w)
  | some d =>
    match (if d.isStream then d.tx else none) with
    | none => (-9, w)
    | some p =>
      let (r, q) := (w.pipes p).pipe.write (fun i => data.getD i 0) data.length
      (r, w.setPipe p { w.pipes p with pipe := q })

end World

/-! ## Calls in any order -/

inductive Op where
  | open (path : List UInt8) (flags : OpenFlags) (mode : Nat)
  | close (fd : Nat)
  | pipe2 (nonblock cloexec : Bool) (heap : Option Mem)
  | socketpair (nonblock cloexec : Bool) (heap₁ heap₂ : Option Mem)
  | socket (nonblock cloexec : Bool)
  | bind (fd : Nat) (path : List UInt8)
  | listen (fd : Nat) (backlog : Int)
  | connect (fd : Nat) (path : List UInt8) (heap₁ heap₂ : Option Mem)
  | accept4 (fd : Nat) (nonblock cloexec : Bool)
  | dup (fd : Nat)
  | dupfd (fd lowest : Nat) (cloexec : Bool)
  | dup2 (old new : Nat) (three cloexec : Bool)
  | fork (how : ForkEnd)
  | exec
  | exit
  | reap (child : Nat)
  | sendmsg (fd : Nat) (control : List (Option (List Int))) (iov : List (List UInt8))
  | recvmsg (fd : Nat) (control : Option Nat) (iov : List Nat) (cloexec : Bool)
  | shutdown (fd how : Nat)
  | read (fd n : Nat)
  | write (fd : Nat) (data : List UInt8)
  | unlink (path : List UInt8)
  | rename (oldpath newpath : List UInt8)

namespace World

/-- A call of the process in slot `me`. -/
def call (w : World) (me : Nat) : Op → Int × World
  | .open path flags mode => w.sysOpen me path flags mode
  | .close fd => w.sysClose me fd
  | .pipe2 nonblock cloexec heap => w.sysPipe2 me nonblock cloexec heap
  | .socketpair nonblock cloexec heap₁ heap₂ => w.sysSocketpair me nonblock cloexec heap₁ heap₂
  | .socket nonblock cloexec => w.sysSocket me nonblock cloexec
  | .bind fd path => w.sysBind me fd path
  | .listen fd backlog => w.sysListen me fd backlog
  | .connect fd path heap₁ heap₂ => w.sysConnect me fd path heap₁ heap₂
  | .accept4 fd nonblock cloexec => w.sysAccept4 me fd nonblock cloexec
  | .dup fd => w.sysDup me fd
  | .dupfd fd lowest cloexec => w.sysDupfd me fd lowest cloexec
  | .dup2 old new three cloexec => w.sysDup2 me old new three cloexec
  | .fork how => w.sysFork me how
  | .exec => w.sysExec me
  | .exit => w.sysExit me
  | .reap child => (0, if w.procs child = .exited then w.forget child else w)
  | .sendmsg fd control iov => w.sysSendmsg me fd control iov
  | .recvmsg fd control iov cloexec => w.sysRecvmsg me fd control iov cloexec
  | .shutdown fd how => w.sysShutdown me fd how
  | .read fd n => let ((r, _), w') := w.sysRead me fd n; (r, w')
  | .write fd data => w.sysWrite me fd data
  | .unlink path => let (r, fs) := ramfs64Unlink w.fs path; (r, { w with fs := fs })
  | .rename oldpath newpath => let (r, fs) := ramfs64Rename w.fs oldpath newpath; (r, { w with fs := fs })

end World

/-- Any calls, by any processes there are, in any order. -/
def calls : Machine World (Nat × Op) Int :=
  ⟨fun w c => if w.procs c.1 = .running ∧ c.1 < PROC64_MAX then ((w.call c.1 c.2).2, (w.call c.1 c.2).1) else (w, -3)⟩

end NovarisOS.Fd64
