/-
NovarisOS.Timeouts32.Executions — one execution of a timed wait works to the deadline
its wait began with.

`Condition` is what has to hold before a step.
-/
import NovarisOS.Timeouts32.Timers

namespace NovarisOS.Timeouts32

open Scheduler32 (since)

variable {k k' : Kernel} {t t' : Thread} {c : Call} {w w' : Wait} {look : Look} {parks : Bool} {n : Nat} {a : Act}

/-! ## The condition -/

/-- A wait of the thread is kept in the timer: it has a deadline, and its call is going to happen again. -/
def Kept (k : Kernel) (t : Thread) (kind : Kind) : Prop :=
  ∃ w, k.waits t = some w ∧ w.place = .retry ∧ w.due ≠ none ∧ kindOf w.call = kind

/-- No other thread of the process has a wait kept in the timer. -/
def Alone (k : Kernel) (t : Thread) (kind : Kind) : Prop := ∀ t', t' ≠ t → t'.1 = t.1 → ¬ Kept k t' kind

/-- The clock can tell that the wait is over. -/
def InTime (k : Kernel) (w : Wait) : Prop := ∀ d, w.due = some d → k.ticks ≤ d + 2147483647

/-- The first execution of a call that sets its timer: the deadline can be told, the timer
does not look set already, and nobody else is kept in it. -/
structure Starts (k : Kernel) (t : Thread) (c : Call) (n : Nat) : Prop where
  range : InRange c
  nonzero : (k.ticks + n) % 4294967296 ≠ 0
  unset : ((k.procs t.1).timer (kindOf c)).1 = keyOf c → ((k.procs t.1).timer (kindOf c)).2 = 0
  alone : Alone k t (kindOf c)

def Condition (k : Kernel) : Act → Prop
  | .exec t c look _ => k.idling = none →
      (look = .ready → Alone k t (kindOf (waitOf k t c).call)) ∧
      (k.waits t = none → look = .nothing ∨ kindOf c = .sleep → ∀ n, Arms c n → Starts k t c n) ∧
      ∀ w, k.waits t = some w → InTime k w
  | .idle _ _ => ∀ t w, k.idling = some t → k.waits t = some w → InTime k w
  | .create p => ∀ t kind, t.1 = p → ¬ Kept k t kind
  | .clone _ dst => ∀ t kind, t.1 = dst → ¬ Kept k t kind
  | _ => True

/-! ## What holds between steps -/

/-- The deadline of a wait as the code has it. -/
def dueWord : Option Nat → Nat
  | none => 0
  | some d => d % 4294967296

/-- What is known of a wait, by the place it waits in. -/
def Right (k : Kernel) (t : Thread) (w : Wait) : Prop :=
  match w.place with
  | .retry => kindOf w.call ≠ .futex ∧ InRange w.call ∧ (w.due = none → requested w.call = none) ∧
      ∀ d, w.due = some d → (∃ n, Arms w.call n) ∧ d ≤ k.ticks + 2147483648 ∧ d % 4294967296 ≠ 0 ∧
        (k.procs t.1).timer (kindOf w.call) = (keyOf w.call, d % 4294967296)
  | .idle deadline => k.idling = some t ∧ ∃ d, w.due = some d ∧ deadline = d % 4294967296 ∧ d ≤ k.ticks + 2147483648
  | .parked deadline => ∃ d, w.due = some d ∧ deadline = d % 4294967296 ∧ k.ticks < d ∧ d ≤ k.ticks + 2147483648

structure Inv (k : Kernel) : Prop where
  right : ∀ t w, k.waits t = some w → Right k t w
  alone : ∀ t t' kind, t.1 = t'.1 → Kept k t kind → Kept k t' kind → t = t'
  idling : ∀ t, k.idling = some t → ∃ c due deadline, k.waits t = some ⟨c, due, .idle deadline⟩
  spin : k.idling = none → k.spin_deadline = 0

theorem Inv.booted : Inv booted where
  right := by simp [Timeouts32.booted]
  alone := by simp [Timeouts32.booted, Kept]
  idling := by simp [Timeouts32.booted]
  spin := fun _ => rfl

/-- What an execution for wait `w` of thread `t` comes to is what the wait's own deadline says. -/
structure Answered (k : Kernel) (w : Wait) (nothing : Prop) (r : Result) : Prop where
  timeout : r = .timeout → ∃ d, w.due = some d ∧ d ≤ k.ticks
  waits : ∀ deadline, r = .waits deadline → deadline = dueWord w.due
  late : nothing → ∀ d, w.due = some d → d ≤ k.ticks → r = .timeout

/-- The three ends of a timed `FUTEX_WAIT`'s execution. -/
inductive FutexDone (k : Kernel) (t : Thread) (w : Wait) (look : Look) : Kernel → Result → Prop
  | bad (hlook : look = .bad) : FutexDone k t w look k .bad
  | ready (hlook : look = .ready) : FutexDone k t w look k .ready
  | parked (d : Nat) (hdue : w.due = some d) (hlt : k.ticks < d) (hhi : d ≤ k.ticks + 2147483648) (key : Nat) :
      FutexDone k t w look
        { k with
          spin_addr := key
          spin_deadline := 0
          waits := Function.update k.waits t (some { w with place := .parked (d % 4294967296) }) }
        (.waits (d % 4294967296))
  | idles (d : Nat) (hdue : w.due = some d) (hlt : k.ticks < d) (hhi : d ≤ k.ticks + 2147483648) (key : Nat) :
      FutexDone k t w look
        { k with
          spin_addr := key
          spin_deadline := d % 4294967296
          idling := some t
          waits := Function.update k.waits t (some { w with place := .idle (d % 4294967296) }) }
        (.waits (d % 4294967296))

end NovarisOS.Timeouts32
