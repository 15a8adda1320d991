/-
NovarisOS.Signal64.Signals — masks, handlers and frames of `kernel/signal64.c`.

A signal set is a word with bit `sig` for signal `sig`; a user's has bit
`sig - 1`. The masks, the saved masks and the alternate stacks are kept by
task, the handlers by process slot. `sched64_current` is an argument: `none`
is that no task runs, where the source works on a word that is thrown away.
-/
import NovarisOS.Lib.Machine
import NovarisOS.Lib.Words

namespace NovarisOS.Signal64

open Function (update)

abbrev NSIG : Nat := 64
abbrev SIG64_KILLSIG : Nat := 9
abbrev SIG64_STOP : Nat := 19

abbrev SIG64_BLOCK : Nat := 0
abbrev SIG64_UNBLOCK : Nat := 1
abbrev SIG64_SETMASK : Nat := 2

abbrev SIG64_IGN : Word := 1

/-- SA_ONSTACK, SA_NODEFER and SA_RESETHAND of an action's flags. -/
def onStack (flags : Word) : Bool := flags.getLsbD 27
def noDefer (flags : Word) : Bool := flags.getLsbD 30
def resetHand (flags : Word) : Bool := flags.getLsbD 31

/-- The bit of a signal. -/
def bit (sig : Nat) : Word := 1#64 <<< sig

def UNBLOCKABLE : Word := bit SIG64_KILLSIG ||| bit SIG64_STOP

def fromUserSet (u : Word) : Word := (u <<< 1) &&& ~~~UNBLOCKABLE

def toUserSet (k : Word) : Word := k >>> 1

/-- The kernel's `struct sigaction`. -/
structure Action where
  handler : Word
  flags : Word
  restorer : Word
  mask : Word

/-- The default action. -/
def Action.default : Action := ⟨0, 0, 0, 0⟩

structure Signals where
  handlers : Nat → Nat → Action
  blocked : Nat → Word
  saved : Nat → Word
  hasSaved : Nat → Bool
  sasSp : Nat → Word
  sasSize : Nat → Word

/-- The tables as they are before the first call. -/
def Signals.init : Signals :=
  ⟨fun _ _ => Action.default, fun _ => 0, fun _ => 0, fun _ => false, fun _ => 0, fun _ => 0⟩

namespace Signals

/-! ## Masks -/

/-- `*my_blocked()`. -/
def myBlocked (s : Signals) : Option Nat → Word
  | some t => s.blocked t
  | none => 0

/-- `*my_blocked() = mask`. -/
def setBlocked (s : Signals) (cur : Option Nat) (mask : Word) : Signals :=
  match cur with
  | some t => { s with blocked := update s.blocked t mask }
  | none => s

def pushMask (s : Signals) (cur : Option Nat) (userSet : Word) : Signals :=
  match cur with
  | none => s
  | some t =>
    let s :=
      if !s.hasSaved t then
        { s with saved := update s.saved t (s.blocked t), hasSaved := update s.hasSaved t true }
      else s
    s.setBlocked (some t) (fromUserSet userSet)

/-- `signal64_pop_mask`. -/
def popMask (s : Signals) (cur : Option Nat) : Int × Signals :=
  match cur with
  | none => (0, s)
  | some t =>
    if !s.hasSaved t then (0, s)
    else (1, { s.setBlocked (some t) (s.saved t) with hasSaved := update s.hasSaved t false })

/-- `signal64_sigprocmask`, and the old set. -/
def sigprocmask (s : Signals) (cur : Option Nat) (how : Nat) (set : Option Word) (setsize : Nat) :
    (Int × Word) × Signals :=
  let was := s.myBlocked cur
  if setsize ≠ 8 then ((-22, 0), s)
  else
    match set with
    | none => ((0, toUserSet was), s)
    | some u =>
      if how = SIG64_BLOCK then ((0, toUserSet was), s.setBlocked cur (was ||| fromUserSet u))
      else if how = SIG64_UNBLOCK then ((0, toUserSet was), s.setBlocked cur (was &&& ~~~fromUserSet u))
      else if how = SIG64_SETMASK then ((0, toUserSet was), s.setBlocked cur (fromUserSet u))
      else ((-22, 0), s)

def taskStart (s : Signals) (tid : Nat) (fromTid : Option Nat) : Signals :=
  { s with
    blocked := update s.blocked tid (s.myBlocked fromTid)
    hasSaved := update s.hasSaved tid false
    sasSp := update s.sasSp tid 0
    sasSize := update s.sasSize tid 0 }

/-! ## Handlers and stacks -/

def sigaction (s : Signals) (slot sig : Nat) (act : Action) : Int × Signals :=
  if sig = 0 ∨ NSIG ≤ sig then (-22, s)
  else if act.handler ≠ 0 ∧ ¬ act.flags.getLsbD 26 then (-22, s)
  else (0, { s with handlers := update s.handlers slot (update (s.handlers slot) sig act) })

/-- `signal64_exec`. -/
def exec (s : Signals) (cur : Option Nat) (slot : Nat) : Signals :=
  let s :=
    match cur with
    | some t => { s with sasSp := update s.sasSp t 0, sasSize := update s.sasSize t 0 }
    | none => s
  { s with
    handlers := update s.handlers slot fun i =>
      if i < NSIG ∧ (s.handlers slot i).handler ≠ SIG64_IGN then Action.default else s.handlers slot i }

def onAltstack (s : Signals) (cur : Option Nat) (sp : Word) : Bool :=
  match cur with
  | some t => s.sasSize t ≠ 0 && s.sasSp t ≤ sp && sp < s.sasSp t + s.sasSize t
  | none => false

/-- `signal64_sigaltstack`, with `SS_DISABLE` among the flags or not. -/
def sigaltstack (s : Signals) (cur : Option Nat) (disable : Bool) (sp size curRsp : Word) : Int × Signals :=
  match cur with
  | none => (-22, s)
  | some t =>
    if s.onAltstack cur curRsp then (-1, s)
    else if disable then
      (0, { s with sasSp := update s.sasSp t 0, sasSize := update s.sasSize t 0 })
    else if size < 2048 then (-12, s)
    else (0, { s with sasSp := update s.sasSp t sp, sasSize := update s.sasSize t size })

end Signals

/-! ## What is interrupted -/

structure Regs where
  r8 : Word
  r9 : Word
  r10 : Word
  r11 : Word
  r12 : Word
  r13 : Word
  r14 : Word
  r15 : Word
  rdi : Word
  rsi : Word
  rbp : Word
  rbx : Word
  rdx : Word
  rax : Word
  rcx : Word
  rsp : Word
  rip : Word
  rflags : Word
  cs : Word
  ss : Word
  errCode : Word
  intNo : Word

structure Thread where
  regs : Regs
  /-- The bytes FXSAVE writes. -/
  fpu : Nat → UInt8
  mem : Space
  /-- The page is there or can be brought. -/
  page : Word → Bool

abbrev SIGFRAME_SIZE : Nat := 560

/-- The loop of `range_present`. -/
def rangeLoop (page : Word → Bool) (stop : Word) : Nat → Word → Bool
  | 0, _ => true
  | fuel + 1, p => if p < stop then page p && rangeLoop page stop fuel (p + 0x1000) else true

/-- `range_present`. There are no more pages than rounds. -/
def rangePresent (page : Word → Bool) (addr len : Word) : Bool :=
  rangeLoop page (addr + len) (2 ^ 52) (addr &&& ~~~0xFFF)

/-! ## Delivery -/

/-- The words of `rt_sigframe64_t` as a delivery leaves them. -/
def frameWords (sig : Nat) (act : Action) (r : Regs) (faultAddr fpsp mask : Word) : List Word :=
  [act.restorer,
    -- uc_flags, uc_link and uc_stack
    0, 0, 0, 0, 0,
    r.r8, r.r9, r.r10, r.r11, r.r12, r.r13, r.r14, r.r15,
    r.rdi, r.rsi, r.rbp, r.rbx, r.rdx, r.rax, r.rcx, r.rsp, r.rip, r.rflags,
    (r.cs &&& 0xFFFF) ||| ((r.ss &&& 0xFFFF) <<< 48),
    r.errCode, r.intNo, mask, faultAddr, fpsp,
    0, 0, 0, 0, 0, 0, 0, 0,
    -- uc_sigmask
    mask, 0, 0, 0, 0, 0, 0, 0, 0, 0, 0, 0, 0, 0, 0, 0,
    -- si_signo, si_code and si_addr
    BitVec.ofNat 64 sig, 1, faultAddr, 0, 0, 0, 0, 0, 0, 0, 0, 0, 0, 0, 0, 0]

namespace Signals

/-- Where the floating-point state goes: above the frame, on the alternate
stack or below the red zone. -/
def fpStack (s : Signals) (cur : Option Nat) (act : Action) (rsp : Word) : Word :=
  let top :=
    match cur with
    | some t =>
      if onStack act.flags && s.sasSize t ≠ 0 && !s.onAltstack cur rsp then s.sasSp t + s.sasSize t
      else rsp - 128
    | none => rsp - 128
  (top - 512) &&& ~~~63

/-- Where the frame goes. -/
def frameStack (fpsp : Word) : Word := ((fpsp - BitVec.ofNat 64 SIGFRAME_SIZE) &&& ~~~15) - 8

/-- The mask that the frame takes back, and the tables without it. -/
def maskBack (s : Signals) (cur : Option Nat) : Word × Signals :=
  match cur with
  | some t =>
    if s.hasSaved t then (s.saved t, { s with hasSaved := update s.hasSaved t false })
    else (s.blocked t, s)
  | none => (0, s)

/-- The mask while the handler runs. -/
def handlerMask (was : Word) (sig : Nat) (act : Action) : Word :=
  let mask := was ||| fromUserSet act.mask
  let mask := if noDefer act.flags then mask else mask ||| bit sig
  mask &&& ~~~UNBLOCKABLE

/-- The delivery goes through. -/
def delivers (s : Signals) (cur : Option Nat) (slot sig : Nat) (thr : Thread) : Bool :=
  let act := s.handlers slot sig
  let fpsp := s.fpStack cur act thr.regs.rsp
  let sp := frameStack fpsp
  sig ≠ 0 && sig < NSIG && !(s.myBlocked cur).getLsbD sig && act.handler ≠ 0 && act.handler ≠ SIG64_IGN &&
    thr.regs.cs &&& 3 = 3 && rangePresent thr.page sp (fpsp + 512 - sp)

/-- `signal64_deliver`. -/
def deliver (s : Signals) (cur : Option Nat) (slot sig : Nat) (thr : Thread) (faultAddr : Word) :
    Int × Signals × Thread :=
  if !s.delivers cur slot sig thr then (0, s, thr)
  else
    let act := s.handlers slot sig
    let r := thr.regs
    let fpsp := s.fpStack cur act r.rsp
    let sp := frameStack fpsp
    let (back, s) := s.maskBack cur
    let mem := thr.mem.put sp SIGFRAME_SIZE (Space.ofWords (frameWords sig act r faultAddr fpsp (toUserSet back)))
    let mem := mem.put fpsp 512 thr.fpu
    let regs := { r with
      rip := act.handler, rsp := sp, rdi := BitVec.ofNat 64 sig, rsi := sp + 432, rdx := sp + 8
      rflags := r.rflags &&& ~~~(bit 10 ||| bit 8) }
    let s := s.setBlocked cur (handlerMask (s.myBlocked cur) sig act)
    let s :=
      if resetHand act.flags then
        { s with handlers := update s.handlers slot (update (s.handlers slot) sig Action.default) }
      else s
    (1, s, { thr with regs := regs, mem := mem })

/-- FXRSTOR after the reserved bits of MXCSR are cleared. -/
def fxrstor (image : Nat → UInt8) : Nat → UInt8 := fun i => if i = 26 ∨ i = 27 then 0 else image i

def sigreturn (s : Signals) (cur : Option Nat) (userRsp : Word) (thr : Thread) : Signals × Thread :=
  let field := fun i : Nat => thr.mem.word (userRsp + BitVec.ofNat 64 (8 * i))
  let regs : Regs :=
    { r8 := field 5, r9 := field 6, r10 := field 7, r11 := field 8, r12 := field 9, r13 := field 10
      r14 := field 11, r15 := field 12, rdi := field 13, rsi := field 14, rbp := field 15, rbx := field 16
      rdx := field 17, rax := field 18, rcx := field 19, rsp := field 20, rip := field 21
      rflags := (field 22 &&& 0xCD5) ||| 0x202, cs := 0x23, ss := 0x1B, errCode := 0, intNo := 0 }
  let fpstate := field 28
  let fpu :=
    if fpstate ≠ 0 && fpstate &&& 15 = 0 && rangePresent thr.page fpstate 512 then fxrstor (thr.mem.byte fpstate)
    else thr.fpu
  (s.setBlocked cur (fromUserSet (field 37)), { thr with regs := regs, fpu := fpu })

end Signals

end NovarisOS.Signal64
