/-
NovarisOS.Scheduler32.Tasks — the task table of scheduler.c, and what parks a
task in it and wakes it.

The table is the list of its first `process_count` slots, `current` is the
slot of the running task, and a task's saved frame lies in memory, on the
task's own kernel stack: `wake_one` writes the answer of the call it ends
there.
-/
import NovarisOS.Lib.Bytes
import NovarisOS.Lib.Machine

namespace NovarisOS.Scheduler32

abbrev MAX_PROCESSES : Nat := 256
abbrev PROC_KSTACK_SIZE : Nat := 8192
abbrev PROC_WAIT_MAX : Nat := 256
abbrev SCHED_TICKS_PER_SLICE : Nat := 2
abbrev EAGAIN : Int := 11
abbrev ETIMEDOUT : Int := 110

/-- `sizeof(registers_t)`, and where in it `eax` is. -/
abbrev FRAME_SIZE : Nat := 76
abbrev FRAME_EAX : Nat := 44

/-- `process_state_t`. -/
inductive ProcessState
  | ready | running | blocked | zombie
  deriving DecidableEq

/-- `process_t`. -/
structure Process where
  pid : Nat := 0
  state : ProcessState := .ready
  esp : Nat
  kernel_stack_base : Nat
  page_directory : Nat
  wait_addr : List Nat := []
  wait_deadline : Nat := 0
  wait_retry : Bool := false
  due : Nat := 0

/-- The static variables of scheduler.c, the clock and the memory. -/
structure Kernel where
  process_table : List Process := []
  next_pid : Nat := 1
  current : Option Nat := none
  active : Bool := false
  tick_countdown : Nat := SCHED_TICKS_PER_SLICE
  ticks : Nat := 0
  mem : Mem
  handed : List ProcessState := []

/-- The task `current` points at. -/
def Kernel.running (k : Kernel) : Option Process := k.current.bind (k.process_table[·]?)

/-- The fields of the task in slot `i` are written. -/
def Kernel.set (k : Kernel) (i : Nat) (f : Process → Process) : Kernel :=
  { k with process_table := k.process_table.modify i f }

def pit_get_ticks (k : Kernel) : Nat := k.ticks % 4294967296

/-- `(int32_t)(now - deadline)`. -/
def since (now deadline : Nat) : Int := Int.bmod ((now : Int) - deadline) 4294967296

/-- `(uint32_t)result`. -/
def asWord (result : Int) : Nat := (result % 4294967296).toNat

/-! ## Waking -/

/-- What `wake_one` does to the task. -/
def Process.wake (p : Process) : Process :=
  { p with state := .ready, wait_addr := [], wait_deadline := 0, wait_retry := false }

/-- What `wake_one` does to the memory. -/
def Process.answer (p : Process) (result : Int) (m : Mem) : Mem :=
  if p.wait_retry then m else m.wr32 (p.esp + FRAME_EAX) (asWord result)

/-- The loop the three wakers share: the slots in order, as long as fewer than
`max` tasks are woken, and of these the ones that are `hit`. -/
def wake_each (hit : Process → Bool) (result : Int) : Nat → List Process → Mem → List Process × Mem × Nat
  | _, [], m => ([], m, 0)
  | 0, ps, m => (ps, m, 0)
  | max + 1, p :: ps, m =>
    if hit p then
      let (ps', m', n) := wake_each hit result max ps (p.answer result m)
      (p.wake :: ps', m', n + 1)
    else
      let (ps', m', n) := wake_each hit result (max + 1) ps m
      (p :: ps', m', n)

def Kernel.wake_each (k : Kernel) (hit : Process → Bool) (max : Nat) (result : Int) : Kernel × Nat :=
  let r := Scheduler32.wake_each hit result max k.process_table k.mem
  ({ k with process_table := r.1, mem := r.2.1 }, r.2.2)

def wake_every_blocked (result : Int) (k : Kernel) : Kernel × Nat :=
  k.wake_each (fun p => p.state = .blocked) k.process_table.length result

/-- What `wake_on_common` looks for in a slot. -/
def waits_on (pd addr : Nat) (p : Process) : Bool :=
  p.state = .blocked && (pd = 0 || p.page_directory = pd) && p.wait_addr.any (· = addr)

def wake_on_common (pd addr : Nat) (max result : Int) (k : Kernel) : Kernel × Nat :=
  if addr = 0 then (k, 0) else k.wake_each (waits_on pd addr) max.toNat result

def scheduler_wake_on (addr : Nat) (max result : Int) (k : Kernel) : Kernel × Nat :=
  wake_on_common 0 addr max result k

def scheduler_current_address_space (k : Kernel) : Nat := (k.running.map (·.page_directory)).getD 0

def scheduler_wake_on_local (addr : Nat) (max result : Int) (k : Kernel) : Kernel × Nat :=
  let pd := scheduler_current_address_space k
  if pd = 0 then wake_on_common 0 addr max result k else wake_on_common pd addr max result k

def scheduler_expire_waits (now : Nat) (result : Int) (k : Kernel) : Kernel × Nat :=
  k.wake_each (fun p => p.state = .blocked && p.wait_deadline ≠ 0 && 0 ≤ since now p.wait_deadline)
    k.process_table.length result

/-! ## Choosing and switching -/

/-- `st != PROC_ZOMBIE && st != PROC_BLOCKED`. -/
def ProcessState.runnable (st : ProcessState) : Bool := st ≠ .zombie && st ≠ .blocked

def scan_runnable (cur_idx : Nat) (k : Kernel) : Option Nat :=
  ((List.range k.process_table.length).map fun off => (cur_idx + (off + 1)) % k.process_table.length).find?
    fun idx => k.process_table[idx]?.any (·.state.runnable)

def pick_next_ready (k : Kernel) : Kernel × Option Nat :=
  let cur_idx := k.current.getD 0
  match scan_runnable cur_idx k with
  | some next => (k, some next)
  | none =>
    let (k', n) := wake_every_blocked (-EAGAIN) k
    if n > 0 then (k', scan_runnable cur_idx k') else (k', none)

def switch_to (next : Nat) (k : Kernel) : Kernel :=
  { k.set next (fun p => { p with state := .running }) with
    current := some next
    handed := k.handed ++ (k.process_table[next]?.map (·.state)).toList }

/-! ## The calls -/

/-- `scheduler_tick`, where `user` says whether the interrupt came out of ring 3. -/
def scheduler_tick (regs : Nat) (user : Bool) (k : Kernel) : Kernel :=
  match k.active, k.current with
  | true, some me =>
    let k := (scheduler_expire_waits (pit_get_ticks k) (-ETIMEDOUT) k).1
    if !user then k
    else if k.tick_countdown > 0 then { k with tick_countdown := k.tick_countdown - 1 }
    else
      let k := { k with tick_countdown := SCHED_TICKS_PER_SLICE }
      let k := k.set me fun p => { p with esp := regs, state := .ready }
      match pick_next_ready k with
      | (k, none) => k.set me fun p => { p with state := .running }
      | (k, some next) => switch_to next k
  | _, _ => k

def pit_handler (regs : Nat) (user : Bool) (k : Kernel) : Kernel :=
  scheduler_tick regs user { k with ticks := k.ticks + 1 }

def scheduler_exit_current (k : Kernel) : Kernel :=
  match k.current with
  | none => k
  | some me =>
    match pick_next_ready (k.set me fun p => { p with state := .zombie }) with
    | (k, none) => { k with active := false, current := none }
    | (k, some next) => switch_to next k

/-- The tick a deadline stands for, of all that show it the one nearest to now. -/
def tick_of (k : Kernel) (deadline : Nat) : Nat :=
  ((k.ticks : Int) - since (pit_get_ticks k) deadline).toNat

def block_common (regs : Nat) (addrs : List Nat) (n : Int) (deadline : Nat) (retry : Bool) (k : Kernel) :
    Kernel × Nat :=
  match k.active, k.current with
  | true, some me =>
    match pick_next_ready k with
    | (k, none) => (k, 0)
    | (k, some next) =>
      if next = me then (k, 0)
      else
        let k := k.set me fun p =>
          { p with
            esp := regs
            wait_addr := addrs.take (min n PROC_WAIT_MAX).toNat
            wait_deadline := deadline
            wait_retry := retry
            state := .blocked
            due := tick_of k deadline }
        (switch_to next { k with tick_countdown := SCHED_TICKS_PER_SLICE }, 1)
  | _, _ => (k, 0)

def scheduler_block_current (regs wait_addr deadline : Nat) (k : Kernel) : Kernel × Nat :=
  block_common regs [wait_addr] (if wait_addr ≠ 0 then 1 else 0) deadline false k

def scheduler_block_current_retry (regs wait_addr deadline : Nat) (k : Kernel) : Kernel × Nat :=
  block_common regs [wait_addr] (if wait_addr ≠ 0 then 1 else 0) deadline true k

def scheduler_block_current_retry_multi (regs : Nat) (addrs : List Nat) (n : Int) (deadline : Nat) (k : Kernel) :
    Kernel × Nat :=
  block_common regs addrs n deadline true k

def scheduler_yield_would_switch (k : Kernel) : Kernel × Nat :=
  match k.active, k.current with
  | true, some me =>
    match pick_next_ready k with
    | (k, none) => (k, 0)
    | (k, some next) => (k, if next ≠ me then 1 else 0)
  | _, _ => (k, 0)

def scheduler_yield_from_trap (regs : Nat) (k : Kernel) : Kernel × Nat :=
  match k.active, k.current with
  | true, some me =>
    match pick_next_ready k with
    | (k, none) => (k, 0)
    | (k, some next) =>
      if next = me then (k, 0)
      else
        let k := k.set me fun p => { p with esp := regs, state := .ready }
        (switch_to next { k with tick_countdown := SCHED_TICKS_PER_SLICE }, 1)
  | _, _ => (k, 0)

/-- `spawn_common` once its allocations have come to `kstack_base`: the spawns
differ in the frame they leave on the new stack and in the directory the task
runs in. The answer is -1 or the pid. -/
def spawn_common (kstack_base page_directory : Nat) (frame : Mem) (k : Kernel) : Kernel × Int :=
  let esp := kstack_base + PROC_KSTACK_SIZE - FRAME_SIZE
  ({ k with
      mem := k.mem.copyAt esp frame FRAME_SIZE
      process_table := k.process_table ++
        [{ pid := k.next_pid, esp := esp, kernel_stack_base := kstack_base, page_directory := page_directory }]
      next_pid := k.next_pid + 1 }, k.next_pid)

/-- The spawns: `kstack` is what the allocations came to, `none` where one failed. -/
def scheduler_spawn (kstack : Option Nat) (page_directory : Nat) (frame : Mem) (k : Kernel) : Kernel × Int :=
  if k.process_table.length ≥ MAX_PROCESSES then (k, -1)
  else match kstack with
    | none => (k, -1)
    | some kstack_base => spawn_common kstack_base page_directory frame k

/-- `scheduler_run_until_idle` up to where it enters the first task. -/
def run_until_idle (k : Kernel) : Kernel :=
  if k.process_table.length = 0 then k
  else { k.set 0 (fun p => { p with state := .running }) with
    active := true
    tick_countdown := SCHED_TICKS_PER_SLICE
    current := some 0 }

/-- What `scheduler_run_until_idle` does once the last task has exited. -/
def reap_all (k : Kernel) : Kernel := { k with process_table := [] }

inductive Act
  | block (regs wait_addr deadline : Nat)
  | block_retry (regs wait_addr deadline : Nat)
  | block_retry_multi (regs : Nat) (addrs : List Nat) (n : Int) (deadline : Nat)
  | wake_on (addr : Nat) (max result : Int)
  | wake_on_local (addr : Nat) (max result : Int)
  | tick (regs : Nat) (user : Bool)
  | spawn (kstack : Option Nat) (page_directory : Nat) (frame : Mem)
  | exit_current
  | yield_would_switch
  | yield_from_trap (regs : Nat)
  | run_until_idle
  | reap_all

def step (k : Kernel) : Act → Kernel × Int
  | .block regs addr deadline => (scheduler_block_current regs addr deadline k).map id (↑)
  | .block_retry regs addr deadline => (scheduler_block_current_retry regs addr deadline k).map id (↑)
  | .block_retry_multi regs addrs n deadline =>
      (scheduler_block_current_retry_multi regs addrs n deadline k).map id (↑)
  | .wake_on addr max result => (scheduler_wake_on addr max result k).map id (↑)
  | .wake_on_local addr max result => (scheduler_wake_on_local addr max result k).map id (↑)
  | .tick regs user => (pit_handler regs user k, 0)
  | .spawn kstack pd frame => scheduler_spawn kstack pd frame k
  | .exit_current => (scheduler_exit_current k, 0)
  | .yield_would_switch => (scheduler_yield_would_switch k).map id (↑)
  | .yield_from_trap regs => (scheduler_yield_from_trap regs k).map id (↑)
  | .run_until_idle => (run_until_idle k, 0)
  | .reap_all => (reap_all k, 0)

def scheduler : Machine Kernel Act Int := ⟨step⟩

/-- After `scheduler_init`. -/
def booted (m : Mem) : Kernel := { mem := m }

end NovarisOS.Scheduler32
