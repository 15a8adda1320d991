/-
NovarisOS.Timeouts32.Waits — the timed waits of the 32-bit kernel: `poll`, `select`
and `nanosleep` of posix.c, and the timed `FUTEX_WAIT` of posix_thread.c.
-/
import NovarisOS.Scheduler32.Waking

namespace NovarisOS.Timeouts32

open Function (update)
open Scheduler32 (since)

/-- The timer of `posix_proc_t`. -/
structure Proc where
  poll_key : Nat := 0
  poll_deadline : Nat := 0
  sleep_key : Nat := 0
  sleep_deadline : Nat := 0

/-- What an execution comes to. -/
inductive Result
  | ready | bad | timeout
  | waits (deadline : Nat)
  deriving DecidableEq

/-- What an execution finds before it looks at the clock. -/
inductive Look
  | nothing | ready | bad
  deriving DecidableEq

/-- 0 means that there is no deadline. -/
def deadline_at (now ticks : Nat) : Nat :=
  if (now + ticks) % 4294967296 = 0 then 1 else (now + ticks) % 4294967296

/-! ## The calls -/

/-- `poll_deadline_for`: whether the time is up, and the deadline. -/
def poll_deadline_for (now key : Nat) (timeout_ms : Int) (P : Proc) : Proc × Bool × Nat :=
  if timeout_ms < 0 then (P, false, 0)
  else if timeout_ms = 0 then (P, true, 0)
  else
    let ticks := (timeout_ms.toNat + 9) % 4294967296 / 10
    let P :=
      if P.poll_key ≠ key ∨ P.poll_deadline = 0 then
        { P with poll_key := key, poll_deadline := deadline_at now (if ticks ≠ 0 then ticks else 1) }
      else P
    if 0 ≤ since now P.poll_deadline then ({ P with poll_key := 0, poll_deadline := 0 }, true, 0)
    else (P, false, P.poll_deadline)

/-- What `sys_poll` and `sys_select` share. -/
def poll_common (now key : Nat) (timeout_ms : Int) (look : Look) (P : Proc) : Proc × Result :=
  match look with
  | .bad => (P, .bad)
  | .ready => ({ P with poll_key := 0, poll_deadline := 0 }, .ready)
  | .nothing =>
    match poll_deadline_for now key timeout_ms P with
    | (P, true, _) => (P, .timeout)
    | (P, false, deadline) => (P, .waits deadline)

def sys_poll (now fds_u : Nat) (timeout_ms : Int) (look : Look) (P : Proc) : Proc × Result :=
  poll_common now fds_u timeout_ms look P

/-- `(int)(tv[0] * 1000u + tv[1] / 1000u)`, and a timeout that is not zero stays so. -/
def select_timeout (tv : Option (Nat × Nat)) : Int :=
  match tv with
  | none => -1
  | some (sec, usec) =>
    let timeout_ms := Int.bmod (sec * 1000 + usec / 1000) 4294967296
    if timeout_ms = 0 ∧ (sec ≠ 0 ∨ usec ≠ 0) then 1 else timeout_ms

def sys_select (now rd wr : Nat) (tv : Option (Nat × Nat)) (look : Look) (P : Proc) : Proc × Result :=
  poll_common now ((rd + wr + 1) % 4294967296) (select_timeout tv) look P

def sys_nanosleep (now key : Nat) (req : Nat × Nat) (P : Proc) : Proc × Result :=
  let P :=
    if P.sleep_key ≠ key ∨ P.sleep_deadline = 0 then
      { P with sleep_key := key, sleep_deadline := deadline_at now ((req.1 * 100 + req.2 / 10000000) % 4294967296) }
    else P
  if 0 ≤ since now P.sleep_deadline then ({ P with sleep_key := 0, sleep_deadline := 0 }, .timeout)
  else (P, .waits P.sleep_deadline)

def timeout_to_ticks (ts : Nat × Nat) : Nat :=
  let ms := (ts.1 * 1000 + ts.2 / 1000000) % 4294967296
  let ticks := (ms + 9) % 4294967296 / 10
  if ticks ≠ 0 then ticks else 1

inductive Call
  | poll (fds_u : Nat) (timeout_ms : Int)
  | select (rd wr : Nat) (tv : Option (Nat × Nat))
  | nanosleep (key : Nat) (req : Nat × Nat)
  | futex_wait (uaddr : Nat) (ts : Nat × Nat)

/-! ## The machine -/

abbrev Thread := Nat × Nat

/-- How a thread waits: its call is going to happen again, it idles in the kernel with
the processor in its hands, or the scheduler has it and its deadline. -/
inductive Place
  | retry
  | idle (deadline : Nat)
  | parked (deadline : Nat)

structure Wait where
  call : Call
  due : Option Nat
  place : Place

structure Kernel where
  ticks : Nat := 0
  procs : Nat → Proc := fun _ => {}
  spin_addr : Nat := 0
  spin_deadline : Nat := 0
  idling : Option Thread := none
  waits : Thread → Option Wait := fun _ => none

def pit_get_ticks (k : Kernel) : Nat := k.ticks % 4294967296

/-- The duration a call asks for, in ticks; a call may ask to wait for ever. -/
def requested : Call → Option Nat
  | .poll _ timeout_ms => if timeout_ms < 0 then none else some ((timeout_ms.toNat + 9) / 10)
  | .select _ _ none => none
  | .select _ _ (some (sec, usec)) =>
      some (if sec = 0 ∧ usec = 0 then 0 else (max 1 (sec * 1000 + usec / 1000) + 9) / 10)
  | .nanosleep _ (sec, nsec) => some (sec * 100 + nsec / 10000000)
  | .futex_wait _ (sec, nsec) => some (max 1 ((sec * 1000 + nsec / 1000000 + 9) / 10))

/-- The wait an execution is of: the one the thread is in, or a new one. -/
def waitOf (k : Kernel) (t : Thread) (c : Call) : Wait :=
  (k.waits t).getD ⟨c, (requested c).map (k.ticks + ·), .retry⟩

/-- A call is over, or is going to happen again. -/
def after (w : Wait) : Result → Option Wait
  | .waits _ => some { w with place := .retry }
  | _ => none

/-- The calls that wait by being executed again. -/
def execute (k : Kernel) (c : Call) (look : Look) (P : Proc) : Proc × Result :=
  match c with
  | .poll fds_u timeout_ms => sys_poll (pit_get_ticks k) fds_u timeout_ms look P
  | .select rd wr tv => sys_select (pit_get_ticks k) rd wr tv look P
  | .nanosleep key req => sys_nanosleep (pit_get_ticks k) key req P
  | .futex_wait _ _ => (P, .bad)

/-- `posix_sys_futex(FUTEX_WAIT)` up to its idle loop. -/
def futex_wait (t : Thread) (w : Wait) (uaddr : Nat) (ts : Nat × Nat) (look : Look) (parks : Bool) (k : Kernel) :
    Kernel × Result :=
  match look with
  | .bad => (k, .bad)
  | .ready => (k, .ready)
  | .nothing =>
    let k :=
      if k.spin_addr = uaddr ∧ k.spin_deadline ≠ 0 then k
      else { k with spin_addr := uaddr, spin_deadline := deadline_at (pit_get_ticks k) (timeout_to_ticks ts) }
    let deadline := k.spin_deadline
    if 0 ≤ since (pit_get_ticks k) deadline then ({ k with spin_addr := 0, spin_deadline := 0 }, .timeout)
    else if parks then
      ({ k with
          spin_addr := 0
          spin_deadline := 0
          waits := update k.waits t (some { w with place := .parked deadline }) }, .waits deadline)
    else
      ({ k with
          idling := some t
          waits := update k.waits t (some { w with place := .idle deadline }) }, .waits deadline)

/-- One round of the idle loop, `parks` being what the scheduler says after the `hlt`. -/
def futex_idle (t : Thread) (w : Wait) (deadline : Nat) (changed parks : Bool) (k : Kernel) : Kernel × Result :=
  let done : Kernel :=
    { k with spin_addr := 0, spin_deadline := 0, idling := none, waits := update k.waits t none }
  if 0 ≤ since (pit_get_ticks k) deadline then (done, .timeout)
  else if changed then (done, .ready)
  else if parks then
    ({ done with waits := update k.waits t (some { w with place := .parked deadline }) }, .waits deadline)
  else (k, .waits deadline)

inductive Act
  | tick
  | exec (t : Thread) (c : Call) (look : Look) (parks : Bool)
  | idle (changed parks : Bool)
  | leave (t : Thread)
  | create (p : Nat)
  | clone (src dst : Nat)

/-- What a step answers, thread by thread. -/
abbrev Answers := Thread → Option Result

def silent : Answers := fun _ => none

/-- `scheduler_expire_waits` ends a parked wait. -/
def expires (now : Nat) : Option Wait → Bool
  | some ⟨_, _, .parked deadline⟩ => 0 ≤ since now deadline
  | _ => false

def tick (k : Kernel) : Kernel × Answers :=
  let k := { k with ticks := k.ticks + 1 }
  ({ k with waits := fun t => if expires (pit_get_ticks k) (k.waits t) then none else k.waits t },
    fun t => if expires (pit_get_ticks k) (k.waits t) then some .timeout else none)

/-- An execution. A thread that waits executes the call it waits in; one that is parked for good
or idles executes nothing, and nobody does while the processor is held. -/
def exec (t : Thread) (c : Call) (look : Look) (parks : Bool) (k : Kernel) : Kernel × Answers :=
  let w := waitOf k t c
  match k.idling, w.place with
  | none, .retry =>
    match w.call with
    | .futex_wait uaddr ts =>
      let r := futex_wait t w uaddr ts look parks k
      (r.1, update silent t (some r.2))
    | c =>
      let r := execute k c look (k.procs t.1)
      ({ k with procs := update k.procs t.1 r.1, waits := update k.waits t (after w r.2) },
        update silent t (some r.2))
  | _, _ => (k, silent)

def idle (changed parks : Bool) (k : Kernel) : Kernel × Answers :=
  match k.idling with
  | none => (k, silent)
  | some t =>
    match k.waits t with
    | some ⟨c, due, .idle deadline⟩ =>
      let r := futex_idle t ⟨c, due, .idle deadline⟩ deadline changed parks k
      (r.1, update silent t (some r.2))
    | _ => (k, silent)

/-- A wait is over with no answer of the clock: a `FUTEX_WAKE` ends a parked one, and a
thread may be gone or be made to leave its call. -/
def quit (t : Thread) (k : Kernel) : Kernel :=
  if k.idling = some t then k else { k with waits := update k.waits t none }

def step (k : Kernel) : Act → Kernel × Answers
  | .tick => tick k
  | .exec t c look parks => exec t c look parks k
  | .idle changed parks => idle changed parks k
  | .leave t => (quit t k, silent)
  | .create p => ({ k with procs := update k.procs p {} }, silent)
  | .clone src dst =>
      ({ k with procs := update k.procs dst { k.procs src with poll_key := 0, poll_deadline := 0 } }, silent)

def waiting : Machine Kernel Act Answers := ⟨step⟩

def booted : Kernel := {}

end NovarisOS.Timeouts32
