/-
NovarisOS.Uspace64.Memory — a process's memory calls, `kernel/uspace64.c`.

A call works on the machine and on the process that makes it, whose space is
loaded; both come back changed. Addresses, lengths and answers are 64-bit
numbers, errors among them as in the source (`errno`). The bound of the
reservation list is a parameter (see `Reservations`).
-/
import NovarisOS.Uspace64.Paging
import NovarisOS.Uspace64.Reservations

namespace NovarisOS.Uspace64

open Function (update)
open Pmm64 (Pmm wrap)

abbrev USPACE64_MMAP_BASE : Nat := 0x0000100000000000
abbrev MAP_FIXED : Nat := 0x10
abbrev MAP_ANONYMOUS : Nat := 0x20
abbrev MAP_FIXED_NOREPLACE : Nat := 0x100000

/-- `(uint64_t)-e`. -/
def errno (e : Nat) : Nat := 0x10000000000000000 - e

/-- The fields of `proc64_t` these calls use. -/
structure Proc where
  space : Nat
  brkBase : Nat
  brkCurrent : Nat
  mmapNext : Nat
  resv : List Resv

/-- `uspace64_reset`. -/
def Proc.reset (p : Proc) (brkStart : Nat) : Proc :=
  { p with brkBase := brkStart, brkCurrent := brkStart, mmapNext := USPACE64_MMAP_BASE, resv := [] }

def fitsInUserHalf (start length : Nat) : Bool :=
  if start ≥ USPACE64_LIMIT then false else length ≤ USPACE64_LIMIT - start

/-! ## Backing pages -/

def getZeroFrame (sys : Sys) : Nat × Sys :=
  if sys.zero ≠ 0 then (sys.zero, sys)
  else
    let (f, sys) := sys.allocFrame
    if f = 0 then (0, sys) else (f, { sys.zeroFrame f with zero := f })

/-- `for (va = start; va < end; va += PAGE64_SIZE)`, until a page fails. -/
def forPages (body : Sys → Nat → Bool × Sys) : Nat → Sys → Nat → Bool × Sys
  | 0, sys, _ => (true, sys)
  | n + 1, sys, va =>
    match body sys va with
    | (false, sys) => (false, sys)
    | (true, sys) => forPages body n sys (va + PAGE64_SIZE)

/-- How often that loop runs. -/
def pageSteps (start stop : Nat) : Nat := (stop - start + (PAGE64_SIZE - 1)) / PAGE64_SIZE

/-- `map_zero_page`, through `spill_to_zero_page`. -/
def spillToZeroPage (sys : Sys) (s start stop : Nat) : Bool × Sys :=
  let (z, sys) := getZeroFrame sys
  if z = 0 then (false, sys)
  else
    forPages (fun sys va =>
      match pagingTranslate sys s (pageOf va) with
      | some _ => (true, sys)
      | none => pagingMap sys s (pageOf va) z (PAGE64_PRESENT ||| PAGE64_USER))
      (pageSteps start stop) sys start

/-- `back_page`: one fresh zeroed page. -/
def backPage (sys : Sys) (s va flags : Nat) : Bool × Sys :=
  let (frame, sys) := sys.allocUser
  if frame = 0 then (false, sys)
  else
    match pagingMap (sys.zeroFrame frame) s (pageOf va) frame flags with
    | (false, sys) => (false, sys.free frame)
    | (true, sys) => (true, sys)

/-- `spill_range`: a range the list has no room for, backed now. -/
def spillRange (sys : Sys) (s : Nat) (x : Resv) : Bool × Sys :=
  if x.flags = 0 then spillToZeroPage sys s x.start x.stop
  else
    forPages (fun sys va =>
      match pagingTranslate sys s (pageOf va) with
      | some _ => (true, sys)
      | none => backPage sys s va x.flags)
      (pageSteps x.start x.stop) sys x.start

/-- `resv_remove`, with what it spills. -/
def dropResv (bound : Option Nat) (sys : Sys) (p : Proc) (start stop : Nat) : Sys × Proc :=
  match resvRemove bound p.resv start stop with
  | (r, none) => (sys, { p with resv := r })
  | (r, some x) => ((spillRange sys p.space x).2, { p with resv := r })

/-- `resv_add`, with what it spills. -/
def addResv (bound : Option Nat) (sys : Sys) (p : Proc) (start stop flags : Nat) :
    Bool × Sys × Proc :=
  match resvAdd bound p.resv start stop flags with
  | (r, none) => (true, sys, { p with resv := r })
  | (r, some x) =>
    let (ok, sys) := spillRange sys p.space x
    (ok, sys, { p with resv := r })

/-- `uspace64_fault`. -/
def fault (sys : Sys) (p : Proc) (va : Nat) (write : Bool) : Bool × Sys :=
  if va ≥ USPACE64_LIMIT then (false, sys)
  else
    let va := pageDown va
    match p.resv[resvFirstAfter p.resv va]? with
    | none => (false, sys)
    | some x =>
      if x.start > va then (false, sys)
      else if x.flags = 0 then (false, sys)
      else if write && !x.flags.testBit 1 then (false, sys)
      else if (pagingTranslate sys p.space (pageOf va)).isSome then (false, sys)
      else backPage sys p.space va x.flags

/-! ## Taking pages away -/

/-- A page goes, and its frame with it unless it is the one every
reservation shares. -/
def unmapPage (s : Nat) (sys : Sys) (va : Nat) : Sys :=
  match pagingTranslate sys s (pageOf va) with
  | none => sys
  | some frame =>
    let sys := pagingUnmap sys s (pageOf va)
    if sys.isZero frame then sys else sys.free frame

/-- The walk over the mapped pages of `[start, stop)`. -/
def overMapped (s : Nat) (body : Sys → Nat → Sys) (sys : Sys) (start stop : Nat) : Sys :=
  forMapped (fun sys va => nextMapped sys s va stop) body stop (walkSteps stop) sys start

def unmapPages (sys : Sys) (s start stop : Nat) : Sys := overMapped s (unmapPage s) sys start stop

def rangeFree (sys : Sys) (p : Proc) (start stop : Nat) : Bool :=
  if resvOverlaps p.resv start stop then false
  else nextMapped sys p.space start stop = stop

/-- The inner loop of `find_free`: past the whole run of mapped pages. -/
def skipRun (sys : Sys) (s : Nat) : Nat → Nat → Nat
  | 0, at' => at'
  | n + 1, at' =>
    if fitsInUserHalf at' PAGE64_SIZE && nextMapped sys s at' (at' + PAGE64_SIZE) = at' then
      skipRun sys s n (at' + PAGE64_SIZE)
    else at'

/-- The loop of `find_free`. -/
def findFreeLoop (sys : Sys) (p : Proc) (length : Nat) : Nat → Nat → Nat
  | 0, _ => 0
  | n + 1, s =>
    if !fitsInUserHalf s length then 0
    else
      let e := s + length
      let i := resvFirstAfter p.resv s
      if i < p.resv.length && (p.resv.getD i ⟨0, 0, 0⟩).start < e then
        findFreeLoop sys p length n (pageUp (p.resv.getD i ⟨0, 0, 0⟩).stop)
      else
        let m := nextMapped sys p.space s e
        if m < e then
          findFreeLoop sys p length n (skipRun sys p.space (LOW_PAGES + 1) (m + PAGE64_SIZE))
        else s

/-- `find_free`: 0 when nothing fits. -/
def findFree (sys : Sys) (p : Proc) (length : Nat) : Nat :=
  findFreeLoop sys p length (LOW_PAGES + 1) p.mmapNext

def bumpPast (p : Proc) (stop : Nat) : Proc :=
  if stop > p.mmapNext then { p with mmapNext := stop } else p

/-! ## The calls -/

/-- A page already there when `map_anon` comes to it. -/
def anonPage (s flags : Nat) (zeroExisting : Bool) (sys : Sys) (va : Nat) : Sys :=
  match pagingTranslate sys s (pageOf va) with
  | none => sys
  | some existing =>
    if !sys.isZero existing && !zeroExisting then
      (pagingMap sys s (pageOf va) existing flags).2
    else
      let sys := pagingUnmap sys s (pageOf va)
      if sys.isZero existing then sys else sys.free existing

def mapAnon (bound : Option Nat) (sys : Sys) (p : Proc) (start stop flags : Nat)
    (zeroExisting : Bool) : Bool × Sys × Proc :=
  let (sys, p) := dropResv bound sys p start stop
  let sys := overMapped p.space (anonPage p.space flags zeroExisting) sys start stop
  addResv bound sys p start stop flags

/-- `uspace64_brk`. -/
def brk (bound : Option Nat) (sys : Sys) (p : Proc) (addr : Nat) : Nat × Sys × Proc :=
  if addr = 0 ∨ addr < p.brkBase then (p.brkCurrent, sys, p)
  else
    let want := pageUp addr
    if want > p.brkCurrent then
      match mapAnon bound sys p p.brkCurrent want (PAGE64_PRESENT ||| PAGE64_WRITE ||| PAGE64_USER)
        false with
      | (false, sys, p) => (p.brkCurrent, sys, p)
      | (true, sys, p) => (addr, sys, { p with brkCurrent := addr })
    else (addr, sys, { p with brkCurrent := addr })

/-- What a new mapping is mapped with. -/
def protFlags (prot : Nat) : Nat :=
  if prot.testBit 1 then PAGE64_PRESENT ||| PAGE64_USER ||| PAGE64_WRITE
  else PAGE64_PRESENT ||| PAGE64_USER

/-- Where `uspace64_mmap` puts the mapping, or what it answers instead. -/
def mmapPlace (sys : Sys) (p : Proc) (addr length flags : Nat) : Except Nat Nat :=
  let start := pageDown addr
  if flags &&& MAP_FIXED_NOREPLACE ≠ 0 then
    if !fitsInUserHalf start length then .error (errno 12)
    else if !rangeFree sys p start (start + length) then .error (errno 17)
    else .ok start
  else if flags &&& MAP_FIXED ≠ 0 then
    if !fitsInUserHalf start length then .error (errno 12) else .ok start
  else
    let start :=
      if addr = 0 || !(fitsInUserHalf start length && rangeFree sys p start (start + length)) then
        findFree sys p length
      else start
    if start = 0 then .error (errno 12) else .ok start

/-- What `mmap` does in the place it has found. -/
def mmapAt (bound : Option Nat) (sys : Sys) (p : Proc) (start stop prot flags : Nat) : Bool × Sys × Proc :=
  if prot = 0 ∧ flags &&& MAP_ANONYMOUS ≠ 0 then
    let sys := unmapPages sys p.space start stop
    let (sys, p) := dropResv bound sys p start stop
    addResv bound sys p start stop 0
  else mapAnon bound sys p start stop (protFlags prot) true

/-- `uspace64_mmap`. -/
def mmap (bound : Option Nat) (sys : Sys) (p : Proc) (addr length prot flags : Nat) :
    Nat × Sys × Proc :=
  if length = 0 then (errno 22, sys, p)
  else
    let length := pageUp length
    match mmapPlace sys p addr length flags with
    | .error e => (e, sys, p)
    | .ok start =>
      let stop := start + length
      match mmapAt bound sys p start stop prot flags with
      | (false, sys, p) => (errno 12, sys, p)
      | (true, sys, p) =>
        (start, sys, if flags &&& (MAP_FIXED ||| MAP_FIXED_NOREPLACE) ≠ 0 then p else bumpPast p stop)

/-- The page that was in the way of a fixed mapping of frames. -/
def displacePage (s : Nat) (sys : Sys) (va : Nat) : Sys :=
  match pagingTranslate sys s (pageOf va) with
  | none => sys
  | some old => (pagingUnmap sys s (pageOf va)).free old

/-- The pages mapped so far are taken away again. -/
def undoFrames (s start : Nat) : Nat → List Nat → Sys → Sys
  | _, [], sys => sys
  | i, f :: fs, sys =>
    undoFrames s start (i + 1) fs ((pagingUnmap sys s (pageOf (start + i * PAGE64_SIZE))).free f)

/-- The loop of `map_frames`; `done` are the frames mapped so far. Whether
the reference was given is not looked at. -/
def mapFramesLoop (s start flags : Nat) : List Nat → List Nat → Sys → Bool × Sys
  | _, [], sys => (true, sys)
  | done, f :: fs, sys =>
    match pagingMap sys s (pageOf (start + done.length * PAGE64_SIZE)) f flags with
    | (false, sys) => (false, undoFrames s start 0 done sys)
    | (true, sys) =>
      let sys := match sys.pmm.refFrame f with
        | some pmm => { sys with pmm := pmm }
        | none => sys
      mapFramesLoop s start flags (done ++ [f]) fs sys

/-- The flags of a shared or of a private mapping of a file. -/
def frameFlags (prot : Nat) (cow : Bool) : Nat :=
  if cow then
    if prot.testBit 1 then PAGE64_PRESENT ||| PAGE64_USER ||| PAGE64_COW ||| PAGE64_COW_RW
    else PAGE64_PRESENT ||| PAGE64_USER ||| PAGE64_COW
  else protFlags prot ||| PAGE64_SHARED

/-- Where `map_frames` puts the frames, if anywhere. -/
def framesPlace (sys : Sys) (p : Proc) (addr : Nat) (fixed : Bool) (length : Nat) : Option Nat :=
  let start := if fixed then pageDown addr else findFree sys p length
  if !fixed && start = 0 then none
  else if !fitsInUserHalf start length then none
  else some start

/-- Whatever was there is replaced. -/
def clearForFrames (bound : Option Nat) (sys : Sys) (p : Proc) (start n : Nat) : Sys × Proc :=
  let (sys, p) := dropResv bound sys p start (start + wrap (n * PAGE64_SIZE))
  ((List.range n).foldl (fun sys i => displacePage p.space sys (start + i * PAGE64_SIZE)) sys, p)

/-- `map_frames`: `uspace64_map_frames`, and `uspace64_map_frames_cow` where
`cow` is set. -/
def mapFrames (bound : Option Nat) (sys : Sys) (p : Proc) (addr : Nat) (fixed : Bool)
    (frames : List Nat) (prot : Nat) (cow : Bool) : Nat × Sys × Proc :=
  if frames = [] then (errno 22, sys, p)
  else
    match framesPlace sys p addr fixed (wrap (frames.length * PAGE64_SIZE)) with
    | none => (errno 12, sys, p)
    | some start =>
      let (sys, p) := if fixed then clearForFrames bound sys p start frames.length else (sys, p)
      match mapFramesLoop p.space start (frameFlags prot cow) [] frames sys with
      | (false, sys) => (errno 12, sys, p)
      | (true, sys) =>
        (start, sys, if fixed then p else bumpPast p (start + wrap (frames.length * PAGE64_SIZE)))

/-- The loop of `uspace64_map_phys`, over the pages from `i` on. -/
def mapPhysLoop (s start frame flags : Nat) : Nat → Nat → Sys → Bool × Sys
  | 0, _, sys => (true, sys)
  | n + 1, i, sys =>
    -- an entry holds 40 bits of the frame's number
    match pagingMap sys s (pageOf (start + i * PAGE64_SIZE)) ((frame + i) % 1099511627776) flags with
    | (false, sys) =>
      (false, (List.range i).foldl (fun sys j => pagingUnmap sys s (pageOf (start + j * PAGE64_SIZE)))
        sys)
    | (true, sys) => mapPhysLoop s start frame flags n (i + 1) sys

/-- `uspace64_map_phys`. -/
def mapPhys (sys : Sys) (p : Proc) (length phys prot : Nat) : Nat × Sys × Proc :=
  if length = 0 then (errno 22, sys, p)
  else
    let length := pageUp length
    if phys % PAGE64_SIZE ≠ 0 then (errno 22, sys, p)
    else
      let start := findFree sys p length
      if start = 0 then (errno 12, sys, p)
      else
        match mapPhysLoop p.space start (phys / PAGE64_SIZE)
          (protFlags prot ||| PAGE64_PCD ||| PAGE64_PWT) (length / PAGE64_SIZE) 0 sys with
        | (false, sys) => (errno 12, sys, p)
        | (true, sys) => (start, sys, bumpPast p (start + length))

/-- The first loop of `uspace64_protect`: the ranges with no pages yet take
the new protection. -/
def protectLoop (bound : Option Nat) (stop nf : Nat) : Nat → Sys → Proc → Nat → Sys × Proc
  | 0, sys, p, _ => (sys, p)
  | n + 1, sys, p, at' =>
    if at' < stop then
      match p.resv[resvFirstAfter p.resv at']? with
      | none => (sys, p)
      | some x =>
        if x.start ≥ stop then (sys, p)
        else
          let s := if x.start < at' then at' else x.start
          let e := if x.stop > stop then stop else x.stop
          if x.flags ≠ nf then
            let (sys, p) := dropResv bound sys p s e
            let (_, sys, p) := addResv bound sys p s e nf
            protectLoop bound stop nf n sys p e
          else protectLoop bound stop nf n sys p e
    else (sys, p)

/-- `uspace64_protect`. -/
def protect (bound : Option Nat) (sys : Sys) (p : Proc) (addr length prot : Nat) : Sys × Proc :=
  let start := pageDown addr
  let stop := wrap (start + pageUp length)
  let nf := if prot = 0 then 0 else protFlags prot
  let (sys, p) := protectLoop bound stop nf (stop + 1) sys p start
  (overMapped p.space (fun sys va => (setWritable sys p.space va (prot.testBit 1)).2) sys start stop,
    p)

/-- A page `uspace64_discard` comes to: dropped only if it lies in a range
the process holds as anonymous memory. -/
def discardPage (p : Proc) (sys : Sys) (va : Nat) : Sys :=
  match p.resv[resvFirstAfter p.resv va]? with
  | none => sys
  | some x => if x.start ≤ va ∧ x.flags ≠ 0 then unmapPage p.space sys va else sys

/-- `uspace64_discard`. -/
def discard (sys : Sys) (p : Proc) (addr length : Nat) : Sys :=
  let start := pageDown addr
  let stop := wrap (start + pageUp length)
  overMapped p.space (discardPage p) sys start stop

/-- `uspace64_munmap`. -/
def munmap (bound : Option Nat) (sys : Sys) (p : Proc) (addr length : Nat) : Nat × Sys × Proc :=
  if length = 0 then (errno 22, sys, p)
  else
    let start := pageDown addr
    let stop := wrap (start + pageUp length)
    let (sys, p) := dropResv bound sys p start stop
    (0, unmapPages sys p.space start stop, p)

/-! ## What the program does -/

/-- A read by the program, with the fault it may cause: the byte, if it gets
one. -/
def userRead (sys : Sys) (p : Proc) (va : Nat) : Option UInt8 × Sys :=
  match sys.pte p.space (pageOf va) with
  | some e => (if e.user then some (sys.mem e.frame (va % PAGE64_SIZE)) else none, sys)
  | none =>
    match fault sys p va false with
    | (false, sys) => (none, sys)
    | (true, sys) =>
      match sys.pte p.space (pageOf va) with
      | some e => (if e.user then some (sys.mem e.frame (va % PAGE64_SIZE)) else none, sys)
      | none => (none, sys)

/-- A store that needs no fault any more. -/
def storeAt (sys : Sys) (p : Proc) (va : Nat) (b : UInt8) : Bool × Sys :=
  match sys.pte p.space (pageOf va) with
  | none => (false, sys)
  | some e =>
    if e.user && e.write then (true, sys.store e.frame (va % PAGE64_SIZE) b) else (false, sys)

/-- A write by the program, with the fault it may cause. -/
def userWrite (sys : Sys) (p : Proc) (va : Nat) (b : UInt8) : Bool × Sys :=
  match sys.pte p.space (pageOf va) with
  | none =>
    match fault sys p va true with
    | (false, sys) => (false, sys)
    | (true, sys) => storeAt sys p va b
  | some e =>
    if e.user && e.write then storeAt sys p va b
    else
      match breakCow sys p.space va with
      | (false, sys) => (false, sys)
      | (true, sys) => storeAt sys p va b

/-! ## Processes, files, and the calls as a machine -/

/-- The processes by number, and the frames each file holds. -/
structure Kernel where
  sys : Sys
  procs : Nat → Option Proc
  files : Nat → List Nat
  nextPid : Nat

/-- The descriptor of no space; while the kernel's own space is loaded no
process's is. -/
abbrev KERNEL_SPACE : Nat := 0

/-- The loop of `make_framed` in `kernel/ramfs64.c`: zeroed frames after the
ones the file has. A failure gives back the new ones. -/
def growFile : Nat → List Nat → Sys → Bool × List Nat × Sys
  | 0, got, sys => (true, got, sys)
  | n + 1, got, sys =>
    let (f, sys) := sys.allocFrame
    if f = 0 then (false, [], got.foldl Sys.free sys)
    else growFile n (got ++ [f]) (sys.zeroFrame f)

/-- A call or an access of a process. -/
inductive Call where
  | mmap (addr length prot flags : Nat)
  | munmap (addr length : Nat)
  | protect (addr length prot : Nat)
  | discard (addr length : Nat)
  | brk (addr : Nat)
  | mapFile (addr : Nat) (fixed : Bool) (file first count prot : Nat) (cow : Bool)
  | mapPhys (length phys prot : Nat)
  | breakCow (va : Nat)
  | read (va : Nat)
  | write (va : Nat) (b : UInt8)

inductive Op where
  | spawn (brkStart : Nat)
  | fork (n : Nat)
  | exit (n : Nat)
  | call (n : Nat) (c : Call)
  | frames (file need : Nat)
  | release (file : Nat)

inductive Out where
  | answer (n : Nat)
  | byte (b : UInt8)
  | done
  | refused
  deriving DecidableEq

/-- The process `p` makes the call. -/
def Call.run (bound : Option Nat) (files : Nat → List Nat) (sys : Sys) (p : Proc) :
    Call → Out × Sys × Proc
  | .mmap addr length prot flags =>
    let (r, sys, p) := Uspace64.mmap bound sys p addr length prot flags
    (.answer r, sys, p)
  | .munmap addr length =>
    let (r, sys, p) := Uspace64.munmap bound sys p addr length
    (.answer r, sys, p)
  | .protect addr length prot =>
    let (sys, p) := Uspace64.protect bound sys p addr length prot
    (.done, sys, p)
  | .discard addr length => (.done, Uspace64.discard sys p addr length, p)
  | .brk addr =>
    let (r, sys, p) := Uspace64.brk bound sys p addr
    (.answer r, sys, p)
  | .mapFile addr fixed file first count prot cow =>
    let (r, sys, p) := mapFrames bound sys p addr fixed (((files file).drop first).take count) prot cow
    (.answer r, sys, p)
  | .mapPhys length phys prot =>
    let (r, sys, p) := Uspace64.mapPhys sys p length phys prot
    (.answer r, sys, p)
  | .breakCow va =>
    let (ok, sys) := Uspace64.breakCow sys p.space va
    (if ok then .done else .refused, sys, p)
  | .read va =>
    let (b, sys) := userRead sys p va
    (b.elim .refused .byte, sys, p)
  | .write va b =>
    let (ok, sys) := userWrite sys p va b
    (if ok then .done else .refused, sys, p)

namespace Kernel

def setSys (k : Kernel) (sys : Sys) : Kernel := { k with sys := sys }

/-- A process with a space of its own and nothing in it. -/
def spawn (k : Kernel) (brkStart : Nat) : Kernel × Out :=
  let (space, sys) := createSpace k.sys KERNEL_SPACE
  if space = 0 then (k.setSys sys, .refused)
  else
    ({ k with
       sys := sys
       procs := update k.procs k.nextPid (some (Proc.reset ⟨space, 0, 0, 0, []⟩ brkStart))
       nextPid := k.nextPid + 1 }, .answer k.nextPid)

/-- `proc64_fork_from` and the part of `do_fork_common` that makes the
child's space. A space that could not be filled is destroyed again. -/
def fork (k : Kernel) (p : Proc) : Kernel × Out :=
  let (space, sys) := createSpace k.sys p.space
  if space = 0 then (k.setSys sys, .refused)
  else
    match cloneCow sys p.space space with
    | (false, sys) => (k.setSys (destroySpace sys p.space space), .refused)
    | (true, sys) =>
      ({ k with
         sys := sys
         procs := update k.procs k.nextPid (some { p with space := space })
         nextPid := k.nextPid + 1 }, .answer k.nextPid)

/-- The process is gone, and its space with it. -/
def exit (k : Kernel) (n : Nat) (p : Proc) : Kernel × Out :=
  ({ k with
     sys := destroySpace k.sys KERNEL_SPACE p.space
     procs := update k.procs n none }, .done)

/-- The process `n`, which is `p`, makes a call. -/
def callBy (bound : Option Nat) (k : Kernel) (n : Nat) (c : Call) (p : Proc) : Kernel × Out :=
  let (o, sys, p) := c.run bound k.files k.sys p
  ({ k with sys := sys, procs := update k.procs n (some p) }, o)

/-- `ramfs64_frames`, up to `need` frames. -/
def frames (k : Kernel) (file need : Nat) : Kernel × Out :=
  match growFile (need - (k.files file).length) [] k.sys with
  | (true, got, sys) =>
    ({ k with sys := sys, files := update k.files file (k.files file ++ got) }, .done)
  | (false, _, sys) => (k.setSys sys, .refused)

/-- The frames that `release_node` gives back. -/
def release (k : Kernel) (file : Nat) : Kernel × Out :=
  ({ k with
     sys := (k.files file).foldl Sys.free k.sys
     files := update k.files file [] }, .done)

def call (bound : Option Nat) (k : Kernel) : Op → Kernel × Out
  | .spawn brkStart => k.spawn brkStart
  | .fork n => (k.procs n).elim (k, .refused) k.fork
  | .exit n => (k.procs n).elim (k, .refused) (k.exit n)
  | .call n c => (k.procs n).elim (k, .refused) (k.callBy bound n c)
  | .frames file need => k.frames file need
  | .release file => k.release file

end Kernel

/-- A machine before its first process. -/
def Kernel.boot (sys : Sys) : Kernel := ⟨sys, fun _ => none, fun _ => [], 1⟩

/-- A machine for the examples: 8192 frames, all of them memory and all but
the first megabyte free. -/
def plainSys : Sys where
  pmm := { Pmm.static with
    ready := true, frameCount := 8192, highHint := 8192, usedCount := 256
    bitmap := fun b => if b < 32 then 0xFF else 0, ram := fun _ => true }
  mem := fun _ _ => 0
  zero := 0
  live := []
  spaces := fun _ => none
  upper := PageTree.empty
  starved := false

/-- The kernel's memory calls, with a list of at most `bound` reservations. -/
def memory (bound : Option Nat) : Machine Kernel Op Out := ⟨Kernel.call bound⟩

theorem memory_step (bound : Option Nat) {I : Kernel → Prop} {k : Kernel} (h : I k) (op : Op)
    (hspawn : ∀ brkStart, op = .spawn brkStart → I (k.spawn brkStart).1)
    (hfork : ∀ n p, op = .fork n → k.procs n = some p → I (k.fork p).1)
    (hexit : ∀ n p, op = .exit n → k.procs n = some p → I (k.exit n p).1)
    (hcall : ∀ n c p, op = .call n c → k.procs n = some p → I (k.callBy bound n c p).1)
    (hframes : ∀ file need, op = .frames file need → I (k.frames file need).1)
    (hrelease : ∀ file, op = .release file → I (k.release file).1) :
    I ((memory bound).step k op).1 := by
  show I (k.call bound op).1
  cases op with
  | spawn brkStart => exact hspawn _ rfl
  | fork n =>
    rw [Kernel.call]
    cases hp : k.procs n with
    | none => exact h
    | some p => exact hfork n p rfl hp
  | exit n =>
    rw [Kernel.call]
    cases hp : k.procs n with
    | none => exact h
    | some p => exact hexit n p rfl hp
  | call n c =>
    rw [Kernel.call]
    cases hp : k.procs n with
    | none => exact h
    | some p => exact hcall n c p rfl hp
  | frames file need => exact hframes _ _ rfl
  | release file => exact hrelease _ rfl

end NovarisOS.Uspace64
