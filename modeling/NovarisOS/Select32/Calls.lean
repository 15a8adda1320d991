/-
NovarisOS.Select32.Calls — sys_poll and sys_select: `kernel/posix.c`.

What `socket_poll_mask` answers is a parameter: it depends on both ends of the
socket and, for a network socket, on what has just come in. `answers i sock` is
what it says when it is asked for the entry `i` of the set. The clock stands
still during a call.

The three sets of `sys_select` are treated alike, so that they are one
function of `Which`.
-/
import Mathlib.Data.Nat.Bitwise

namespace NovarisOS.Select32

abbrev MAX_FDS : Nat := 512
abbrev PROC_WAIT_MAX : Nat := 256
abbrev K_FDSET_WORDS : Nat := 32
abbrev POLLIN : Nat := 0x001
abbrev POLLPRI : Nat := 0x002
abbrev POLLOUT : Nat := 0x004
abbrev POLLERR : Nat := 0x008
abbrev POLLHUP : Nat := 0x010
abbrev POLLNVAL : Nat := 0x020
abbrev POLL_SAFETY_TICKS : Nat := 50

/-- `fd_kind_t`, with the socket of a socket. -/
inductive FdKind where
  | free
  | console
  | file
  | socket (sock : Nat)
  deriving DecidableEq, Repr

/-- The descriptors of the process. -/
abbrev Fds := Nat → FdKind

/-- `k_pollfd_t`. The events are 16 bits. -/
structure PollFd where
  fd : Int
  events : Nat
  revents : Nat
  deriving DecidableEq, Repr

/-- `poll_key` and `poll_deadline`, 0 for none. -/
structure Waiting where
  pollKey : Nat
  pollDeadline : Nat
  deriving DecidableEq, Repr

/-- What to park on, and whether that is all of the set. -/
structure Parked where
  socks : List Nat
  allRegistered : Bool

/-- How a call ends. -/
inductive Outcome (β : Type) where
  | done (n : Nat) (written : β)
  | error (errno : Nat)
  | blocked (socks : List Nat) (deadline : Nat)

abbrev EBADF : Nat := 9
abbrev EFAULT : Nat := 14
abbrev EINVAL : Nat := 22

variable (T : Fds) (answers : Nat → Nat → Nat)

/-! ## Readiness -/

def fdGet (fd : Int) : Option FdKind :=
  if fd < 0 ∨ (MAX_FDS : Int) ≤ fd then none
  else if T fd.toNat = .free then none
  else some (T fd.toNat)

/-- `fd_ready_mask`, asked for the entry `i` of the set. -/
def fdReadyMask (i : Nat) (fd : Int) : Nat :=
  match fdGet T fd with
  | none => POLLNVAL
  | some .console => if fd = 0 then 0 else POLLOUT
  | some .file => POLLIN ||| POLLOUT
  | some (.socket sock) => answers i sock
  | some .free => POLLNVAL

/-- The descriptor of an entry goes on the list to park on. -/
def register (fd : Int) (p : Parked) : Parked :=
  match fdGet T fd with
  | some (.socket sock) =>
    if sock ∈ p.socks then p
    else if p.socks.length = PROC_WAIT_MAX then { p with allRegistered := false }
    else { p with socks := p.socks ++ [sock] }
  | _ => { p with allRegistered := false }

/-- `(int32_t)(a - b)` of two tick counts. -/
def tickDiff (a b : Nat) : Int :=
  if (a + 0x100000000 - b) % 0x100000000 < 0x80000000 then ((a + 0x100000000 - b) % 0x100000000 : Nat)
  else ((a + 0x100000000 - b) % 0x100000000 : Nat) - 0x100000000

/-- `poll_deadline_for`: the deadline, and whether it has passed. -/
def pollDeadlineFor (P : Waiting) (key : Nat) (timeoutMs : Int) (ticks : Nat) : Nat × Bool × Waiting :=
  if timeoutMs < 0 then (0, false, P)
  else if timeoutMs = 0 then (0, true, P)
  else
    let P :=
      if P.pollKey ≠ key ∨ P.pollDeadline = 0 then
        let n := (timeoutMs.toNat + 9) / 10
        let deadline := (ticks + if n = 0 then 1 else n) % 0x100000000
        { pollKey := key, pollDeadline := if deadline = 0 then 1 else deadline }
      else P
    if 0 ≤ tickDiff ticks P.pollDeadline then (0, true, { pollKey := 0, pollDeadline := 0 })
    else (P.pollDeadline, false, P)

/-- `poll_next_wake` and `poll_safety_wake`, a tick and half a second away. -/
def wakeAfter (n deadline ticks : Nat) : Nat :=
  let tick := (ticks + n) % 0x100000000
  let tick := if tick = 0 then 1 else tick
  if deadline ≠ 0 ∧ tickDiff deadline tick < 0 then deadline else tick

/-- The end of a call that found nothing ready. -/
def waitOrExpire {β : Type} (P : Waiting) (key : Nat) (timeoutMs : Int) (ticks : Nat) (p : Parked) (expired : β) :
    Outcome β × Waiting :=
  match pollDeadlineFor P key timeoutMs ticks with
  | (_, true, P) => (.done 0 expired, P)
  | (deadline, false, P) =>
    (.blocked p.socks (wakeAfter (if p.allRegistered then POLL_SAFETY_TICKS else 1) deadline ticks), P)

/-! ## poll -/

/-- The loop of `sys_poll`, from the entry `i` on. -/
def pollLoop : (i : Nat) → List PollFd → Parked → List PollFd × Nat × Parked
  | _, [], p => ([], 0, p)
  | i, e :: l, p =>
    if e.fd < 0 then
      let (l', n, p) := pollLoop (i + 1) l p
      ({ e with revents := 0 } :: l', n, p)
    else
      let want := e.events % 0x10000
      let got := fdReadyMask T answers i e.fd
      let rev := got &&& (want ||| (POLLERR ||| POLLHUP ||| POLLNVAL))
      let (l', n, p) := pollLoop (i + 1) l (register T e.fd p)
      ({ e with revents := rev % 0x10000 } :: l', n + (if rev ≠ 0 then 1 else 0), p)

/-- `sys_poll`. The array is at `addr`. -/
def sysPoll (addr : Nat) (fds : List PollFd) (timeoutMs : Int) (P : Waiting) (ticks : Nat) :
    Outcome (List PollFd) × Waiting :=
  if fds.length ≠ 0 ∧ addr = 0 then (.error EFAULT, P)
  else if MAX_FDS * 2 < fds.length then (.error EINVAL, P)
  else
    let (fds', ready, p) := pollLoop T answers 0 fds ⟨[], true⟩
    if ready ≠ 0 then (.done ready fds', { pollKey := 0, pollDeadline := 0 })
    else waitOrExpire P addr timeoutMs ticks p fds'

/-! ## select -/

/-- The three sets. -/
inductive Which where
  | rd
  | wr
  | ex
  deriving DecidableEq, Repr

/-- What makes a descriptor ready for a set. -/
def Which.events : Which → Nat
  | rd => POLLIN ||| POLLHUP
  | wr => POLLOUT
  | ex => POLLPRI

/-- A set of the caller's: its address, 0 for none, and its words. -/
structure UserSet where
  addr : Nat
  word : Nat → Nat

variable (sets : Which → UserSet)

def fdsetGet (w : Which) (fd : Nat) : Bool := (sets w).addr ≠ 0 && ((sets w).word (fd / 32)).testBit (fd % 32)

/-- What the loop of `sys_select` has found. -/
structure Found where
  out : Which → Nat
  ready : Nat
  parked : Parked

/-- A descriptor is ready for one of the sets. -/
def findOne (fd got : Nat) (g : Found) (w : Which) : Found :=
  if fdsetGet sets w fd ∧ got &&& w.events ≠ 0 then
    { g with out := Function.update g.out w (g.out w ||| 2 ^ (fd % 32)), ready := g.ready + 1 }
  else g

/-- The loop of `sys_select`, with `k` descriptors to go from `fd` on. -/
def selectLoop : (k fd : Nat) → Found → Option Found
  | 0, _, g => some g
  | k + 1, fd, g =>
    if !fdsetGet sets .rd fd ∧ !fdsetGet sets .wr fd ∧ !fdsetGet sets .ex fd then selectLoop k (fd + 1) g
    else
      let got := fdReadyMask T answers fd fd
      if got &&& POLLNVAL ≠ 0 then none
      else
        let g := [Which.rd, .wr, .ex].foldl (findOne sets fd got) g
        selectLoop k (fd + 1) { g with parked := register T fd g.parked }

/-- What is stored in a set: words and their values. -/
abbrev Stores := List (Nat × Nat)

/-- `struct timeval`, in milliseconds. -/
def timevalMs : Option (Nat × Nat) → Int
  | none => -1
  | some (sec, usec) =>
    let ms := (sec * 1000 + usec / 1000) % 0x100000000
    let timeout : Int := if ms < 0x80000000 then ms else (ms : Int) - 0x100000000
    if timeout = 0 ∧ (sec ≠ 0 ∨ usec ≠ 0) then 1 else timeout

/-- The stores to the sets that the caller gave. -/
def storesOf (f : Which → Stores) (w : Which) : Stores := if (sets w).addr ≠ 0 then f w else []

def sysSelect (nfds : Int) (tv : Option (Nat × Nat)) (P : Waiting) (ticks : Nat) : Outcome (Which → Stores) × Waiting :=
  if nfds < 0 then (.error EINVAL, P)
  else
    let nfds := min nfds.toNat MAX_FDS
    match selectLoop T answers sets nfds 0 ⟨fun _ => 0, 0, ⟨[], true⟩⟩ with
    | none => (.error EBADF, P)
    | some g =>
      let words := max ((nfds + 31) / 32) 1
      if g.ready ≠ 0 then
        (.done g.ready (storesOf sets fun w => (0, g.out w) :: (List.range (words - 1)).map fun i => (i + 1, 0)),
          { pollKey := 0, pollDeadline := 0 })
      else
        waitOrExpire P (((sets .rd).addr + (sets .wr).addr + 1) % 0x100000000) (timevalMs tv) ticks g.parked
          (storesOf sets fun _ => (List.range K_FDSET_WORDS).map fun i => (i, 0))

end NovarisOS.Select32
