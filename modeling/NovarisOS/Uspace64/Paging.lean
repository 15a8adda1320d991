/-
NovarisOS.Uspace64.Paging — page tables and address spaces over the frame
allocator: `kernel/paging64.c` and `kernel/vmspace64.c`.

A four-level tree is kept by what its entries say. A table is named by its
level and by the part of the page number that selects it (`tableKey`); the
entry that leads to it is a `Link`. A huge page stands where a table of level
1 or 2 would.
-/
import Mathlib.Data.List.Sort
import NovarisOS.Page
import NovarisOS.Pmm64.Frames
import NovarisOS.Vmspace64.Space

namespace NovarisOS.Uspace64

open Function (update)
open Pmm64 (Pmm wrap)
open Vmspace64 (Pte tableKey shareFlags ownFlags liveAdd liveRemove)


/-- The pages below `USPACE64_LIMIT`. -/
abbrev LOW_PAGES : Nat := 0x800000000

abbrev PAGE64_PRESENT : Nat := 0x1
abbrev PAGE64_WRITE : Nat := 0x2
abbrev PAGE64_USER : Nat := 0x4
abbrev PAGE64_PWT : Nat := 0x8
abbrev PAGE64_PCD : Nat := 0x10
abbrev PAGE64_COW : Nat := 0x200
abbrev PAGE64_COW_RW : Nat := 0x400
abbrev PAGE64_SHARED : Nat := 0x800

/-- The page number the walk to `va` uses. -/
def pageOf (va : Nat) : Nat := va / PAGE64_SIZE % 0x1000000000

/-- `va & ~(PAGE64_SIZE - 1)`. -/
def pageDown (va : Nat) : Nat := va / PAGE64_SIZE * PAGE64_SIZE

/-- `(n + PAGE64_SIZE - 1) & ~(PAGE64_SIZE - 1)`, on 64 bits. -/
def pageUp (n : Nat) : Nat := pageDown (wrap (n + PAGE64_SIZE - 1))

/-- `frame | flags | PAGE64_PRESENT`. -/
def pteOf (frame flags : Nat) : Pte where
  frame := frame
  write := flags.testBit 1
  user := flags.testBit 2
  cow := flags.testBit 9
  cowRw := flags.testBit 10
  shared := flags.testBit 11
  rest := flags &&& (PAGE64_PWT ||| PAGE64_PCD)

/-! ## The tree -/

/-- An entry that leads to a table. -/
structure Link where
  frame : Nat
  write : Bool
  user : Bool
  deriving DecidableEq

structure PageTree where
  tables : Table (Nat × Nat) Link
  huge : Nat × Nat → Option Nat
  pages : Table Nat Pte

/-- What a walk finds at a page: nothing, with the size of the empty span
round it; a frame of a huge page; an entry. -/
inductive Slot where
  | absent (skip : Nat)
  | huge (frame : Nat)
  | page (e : Pte)

namespace PageTree

def empty : PageTree := ⟨Table.empty, fun _ => none, Table.empty⟩

def look (t : PageTree) (v : Nat) : Slot :=
  match t.tables.get (tableKey 0 v) with
  | none => .absent 0x8000000000
  | some _ =>
    match t.huge (tableKey 1 v) with
    | some f => .huge (f + v % 512 ^ 2)
    | none =>
      match t.tables.get (tableKey 1 v) with
      | none => .absent 0x40000000
      | some _ =>
        match t.huge (tableKey 2 v) with
        | some f => .huge (f + v % 512)
        | none =>
          match t.tables.get (tableKey 2 v) with
          | none => .absent 0x200000
          | some _ =>
            match t.pages.get v with
            | none => .absent PAGE64_SIZE
            | some e => .page e

end PageTree

/-- The frame a walk ends at, if it ends at one. -/
def Slot.frame : Slot → Option Nat
  | .absent _ => none
  | .huge f => some f
  | .page e => some e.frame

/-! ## The machine -/

/-- The allocator, the memory behind the direct map by frame, the frame
every reservation shares (0 until there is one), the table of live spaces,
and the page tables: of each space by its PML4's frame, and of the kernel. -/
structure Sys where
  pmm : Pmm
  mem : Nat → Mem
  zero : Nat
  live : List Nat
  spaces : Nat → Option PageTree
  upper : PageTree
  starved : Bool

namespace Sys

/-- The tree that holds page `v` while the space `s` is loaded. -/
def tree (sys : Sys) (s v : Nat) : PageTree :=
  if v < LOW_PAGES then (sys.spaces s).getD PageTree.empty else sys.upper

def setTree (sys : Sys) (s v : Nat) (t : PageTree) : Sys :=
  if v < LOW_PAGES then
    match sys.spaces s with
    | none => sys
    | some _ => { sys with spaces := update sys.spaces s (some t) }
  else { sys with upper := t }

def look (sys : Sys) (s v : Nat) : Slot := (sys.tree s v).look v

/-- The entry of page `v`, if it is PRESENT: `pte_for(.., 0)` and the test
that follows it. -/
def pte (sys : Sys) (s v : Nat) : Option Pte :=
  match sys.look s v with
  | .page e => some e
  | _ => none

/-- `*pte = e`. -/
def setPte (sys : Sys) (s v : Nat) (e : Pte) : Sys :=
  sys.setTree s v { sys.tree s v with pages := (sys.tree s v).pages.set v e }

/-- `*pte = 0`. -/
def clearPte (sys : Sys) (s v : Nat) : Sys :=
  sys.setTree s v { sys.tree s v with pages := (sys.tree s v).pages.erase v }

/-- `pmm64_free_frame`. -/
def free (sys : Sys) (f : Nat) : Sys := { sys with pmm := sys.pmm.freeFrame f }

/-- What an allocation returned, and that it was refused if it was. -/
def took (sys : Sys) (r : Nat × Pmm) : Nat × Sys :=
  (r.1, { sys with pmm := r.2, starved := sys.starved || r.1 == 0 })

def allocFrame (sys : Sys) : Nat × Sys := sys.took sys.pmm.allocFrame
def allocHigh (sys : Sys) : Nat × Sys := sys.took sys.pmm.allocHigh
def allocUser (sys : Sys) : Nat × Sys := sys.took sys.pmm.allocUser

/-- `kmemcpy` of a page through the direct map. -/
def copyFrame (sys : Sys) (dst src : Nat) : Sys :=
  { sys with
    mem := update sys.mem dst ((sys.mem dst).copyAt 0 (sys.mem src) PAGE64_SIZE) }

/-- `kmemset` of a page through the direct map. -/
def zeroFrame (sys : Sys) (f : Nat) : Sys :=
  { sys with mem := update sys.mem f ((sys.mem f).fillAt 0 0 PAGE64_SIZE) }

/-- A store through the direct map. -/
def store (sys : Sys) (f off : Nat) (b : UInt8) : Sys :=
  { sys with mem := update sys.mem f (update (sys.mem f) off b) }

/-- `uspace64_zero_frame() == frame`, where there is a zero frame. -/
def isZero (sys : Sys) (f : Nat) : Bool := f == sys.zero

end Sys

/-! ## `kernel/paging64.c` -/

/-- `ensure_table`: the entry for a table of level `lvl`, widened if it is
there and made if it is not. -/
def ensureTable (sys : Sys) (s v lvl flags : Nat) : Bool × Sys :=
  let t := sys.tree s v
  match t.tables.get (tableKey lvl v) with
  | some l =>
    (true, sys.setTree s v { t with
      tables := t.tables.set (tableKey lvl v)
        { l with write := l.write || flags.testBit 1, user := l.user || flags.testBit 2 } })
  | none =>
    let (f, sys) := sys.allocFrame
    if f = 0 then (false, sys)
    else
      (true, sys.setTree s v { t with
        tables := t.tables.set (tableKey lvl v) ⟨f, true, flags.testBit 2⟩ })

/-- `paging64_map`; the answer is whether it was `PAGING64_OK`. -/
def pagingMap (sys : Sys) (s v frame flags : Nat) : Bool × Sys :=
  match ensureTable sys s v 0 flags with
  | (false, sys) => (false, sys)
  | (true, sys) =>
    if ((sys.tree s v).huge (tableKey 1 v)).isSome then (false, sys)
    else
      match ensureTable sys s v 1 flags with
      | (false, sys) => (false, sys)
      | (true, sys) =>
        if ((sys.tree s v).huge (tableKey 2 v)).isSome then (false, sys)
        else
          match ensureTable sys s v 2 flags with
          | (false, sys) => (false, sys)
          | (true, sys) => (true, sys.setPte s v (pteOf frame flags))

/-- `paging64_unmap`. The tables above the page stay. -/
def pagingUnmap (sys : Sys) (s v : Nat) : Sys :=
  match sys.look s v with
  | .page _ => sys.clearPte s v
  | _ => sys

/-- `paging64_translate`. -/
def pagingTranslate (sys : Sys) (s v : Nat) : Option Nat := (sys.look s v).frame

/-! ## `kernel/vmspace64.c` -/

/-- The loop of `vmspace64_next_mapped`. -/
def nextMappedLoop (sys : Sys) (s stop : Nat) : Nat → Nat → Nat
  | 0, _ => stop
  | n + 1, va =>
    if va < stop then
      match sys.look s (pageOf va) with
      | .absent skip => nextMappedLoop sys s stop n (wrap (va / skip * skip + skip))
      | _ => va
    else stop

/-- Enough steps to go from `va` to `stop`, round the top and up again. -/
def walkSteps (stop : Nat) : Nat := 2 * (stop / PAGE64_SIZE + 2)

/-- `vmspace64_next_mapped` with the space `s` loaded. -/
def nextMapped (sys : Sys) (s va stop : Nat) : Nat :=
  nextMappedLoop sys s stop (walkSteps stop) (pageDown va)

/-- `while ((va = vmspace64_next_mapped(va, end)) < end) { ..; va += PAGE64_SIZE; }`. -/
def forMapped {σ : Type} (next : σ → Nat → Nat) (body : σ → Nat → σ) (stop : Nat) :
    Nat → σ → Nat → σ
  | 0, st, _ => st
  | n + 1, st, va =>
    let m := next st va
    if m < stop then forMapped next body stop n (body st m) (wrap (m + PAGE64_SIZE)) else st

/-- One level of `pte_for(.., 1)`. -/
def makeTable (sys : Sys) (s v lvl : Nat) : Bool × Sys :=
  let t := sys.tree s v
  match t.tables.get (tableKey lvl v) with
  | some _ => (true, sys)
  | none =>
    let (f, sys) := sys.allocFrame
    if f = 0 then (false, sys)
    else (true, sys.setTree s v { t with tables := t.tables.set (tableKey lvl v) ⟨f, true, true⟩ })

/-- `pte_for(.., 1)`: whether there is a place for the entry of `v` now. -/
def makeTables (sys : Sys) (s v : Nat) : Bool × Sys :=
  match makeTable sys s v 0 with
  | (false, sys) => (false, sys)
  | (true, sys) =>
    if ((sys.tree s v).huge (tableKey 1 v)).isSome then (false, sys)
    else
      match makeTable sys s v 1 with
      | (false, sys) => (false, sys)
      | (true, sys) =>
        if ((sys.tree s v).huge (tableKey 2 v)).isSome then (false, sys)
        else makeTable sys s v 2

/-- The pages of a tree, in the order the walks go through them. -/
def PageTree.inOrder (t : PageTree) : List Nat := t.pages.keys.insertionSort (· ≤ ·)

/-- One entry of the walk of `vmspace64_clone_cow`; `false` where it returns
0. -/
def clonePage (src dst : Nat) (sys : Sys) (v : Nat) : Bool × Sys :=
  match sys.pte src v with
  | none => (true, sys)
  | some e =>
    match makeTables sys dst v with
    | (false, sys) => (false, sys)
    | (true, sys) =>
      if !sys.pmm.owns e.frame then (true, sys.setPte dst v e)
      else if sys.isZero e.frame then (true, sys.setPte dst v e)
      else
        match (if e.shared then sys.pmm.refFrame e.frame else none) with
        | some pmm => (true, ({ sys with pmm := pmm }).setPte dst v e)
        | none =>
          match sys.pmm.refFrame e.frame with
          | some pmm =>
            (true, (({ sys with pmm := pmm }).setPte src v (shareFlags e)).setPte dst v
              (shareFlags e))
          | none =>
            -- The count saturated. Copying is always correct.
            let (fresh, sys) := sys.allocHigh
            if fresh = 0 then (false, sys)
            else (true, (sys.copyFrame fresh e.frame).setPte dst v { e with frame := fresh })

/-- The walk over the pages of the source. -/
def clonePages (src dst : Nat) : List Nat → Sys → Bool × Sys
  | [], sys => (true, sys)
  | v :: vs, sys =>
    match clonePage src dst sys v with
    | (false, sys) => (false, sys)
    | (true, sys) => clonePages src dst vs sys

def cloneCow (sys : Sys) (src dst : Nat) : Bool × Sys :=
  clonePages src dst (sys.tree src 0).inOrder sys

/-- The page of `SCRATCH_VA`. -/
abbrev SCRATCH_PAGE : Nat := 0xC00000001

/-- `vmspace64_create` with the space `loaded` loaded: the new PML4's frame,
0 if there is none. -/
def createSpace (sys : Sys) (loaded : Nat) : Nat × Sys :=
  let (frame, sys) := sys.allocFrame
  if frame = 0 then (0, sys)
  else
    match pagingMap sys loaded SCRATCH_PAGE frame (PAGE64_PRESENT ||| PAGE64_WRITE) with
    | (false, sys) => (0, sys.free frame)
    | (true, sys) =>
      let sys := pagingUnmap sys loaded SCRATCH_PAGE
      (frame, { sys with
        live := liveAdd sys.live frame
        spaces := update sys.spaces frame (some PageTree.empty) })

/-- `free_low_half_tables`: the pages and the tables that lead to them. -/
def freeLowHalfTables (sys : Sys) (t : PageTree) : Pmm :=
  let pmm := t.pages.keys.foldl (fun pmm v =>
    match t.pages.get v with
    | none => pmm
    | some e => if sys.isZero e.frame then pmm else pmm.freeFrame e.frame) sys.pmm
  t.tables.keys.foldl (fun pmm k =>
    match t.tables.get k with
    | none => pmm
    | some l => pmm.freeFrame l.frame) pmm

/-- `vmspace64_destroy` of the descriptor that names `pml4`. One that is not
live is forgotten and not freed. -/
def destroySpace (sys : Sys) (loaded pml4 : Nat) : Sys :=
  if pml4 = 0 ∨ loaded = pml4 then sys
  else
    match liveRemove sys.live pml4 with
    | none => sys
    | some live =>
      { sys with
        live := live
        pmm := (freeLowHalfTables sys ((sys.spaces pml4).getD PageTree.empty)).freeFrame pml4
        spaces := update sys.spaces pml4 none }

/-- `vmspace64_set_writable` with the space `s` loaded. -/
def setWritable (sys : Sys) (s va : Nat) (writable : Bool) : Bool × Sys :=
  let v := pageOf va
  match sys.pte s v with
  | none => (false, sys)
  | some e =>
    if sys.isZero e.frame && writable then
      let (fresh, sys) := sys.allocHigh
      if fresh = 0 then (false, sys)
      else (true, (sys.zeroFrame fresh).setPte s v { ownFlags e with frame := fresh })
    else if e.cow then (true, sys.setPte s v { e with cowRw := writable, write := false })
    else (true, sys.setPte s v { e with write := writable })

/-- `vmspace64_break_cow` with the space `s` loaded. -/
def breakCow (sys : Sys) (s va : Nat) : Bool × Sys :=
  let v := pageOf va
  match sys.pte s v with
  | none => (false, sys)
  | some e =>
    if !e.cow then (false, sys)
    else if !e.cowRw then (false, sys)
    else if sys.pmm.frameOwners e.frame > 1 then
      let (fresh, sys) := sys.allocUser
      if fresh = 0 then (false, sys)
      else
        let sys := (sys.copyFrame fresh e.frame).free e.frame
        (true, sys.setPte s v { ownFlags e with frame := fresh })
    else (true, sys.setPte s v (ownFlags e))

end NovarisOS.Uspace64
