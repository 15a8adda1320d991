/-
NovarisOS.Vmspace64.Space — address spaces and copy-on-write fork,
`kernel/vmspace64.c` over `kernel/pmm64.c`.

A space is its PML4 frame, the tables under its low half and the page table
entries those lead to.
-/
import Mathlib.Algebra.Group.Nat.Defs
import Mathlib.Data.Finset.Basic
import NovarisOS.Lib.Machine
import NovarisOS.Lib.Mem
import NovarisOS.Lib.Table
import NovarisOS.Page

namespace NovarisOS.Vmspace64

open Function (update)

abbrev REF_MAX : Nat := 255
abbrev LIVE_MAX : Nat := 1024

/-- The pages below `0x0000800000000000`. -/
abbrev LOW_PAGES : Nat := 34359738368

/-! ## `kernel/pmm64.c` -/

/-- The bitmap and the counts: `refs f` is how many owners `f` has beyond
the first. -/
structure Pmm where
  used : Finset Nat
  refs : Nat → Nat

/-- Which of its callers an allocation is for. -/
inductive Pool where
  | low
  | high
  | user

/-- The frames there are, and a way to find a free one. -/
structure Allocator where
  ram : Nat → Bool
  pick : Pool → Finset Nat → Nat
  pick_free : ∀ pool used, pick pool used ∉ used
  pick_ram : ∀ pool used, ram (pick pool used) = true

/-- `pmm64_alloc_frame`, `pmm64_alloc_high` and `pmm64_alloc_user`. -/
def allocFrame (A : Allocator) (pool : Pool) (pmm : Pmm) : Nat × Pmm :=
  (A.pick pool pmm.used, { pmm with used := insert (A.pick pool pmm.used) pmm.used })

def freeFrame (pmm : Pmm) (f : Nat) : Pmm :=
  if f ∉ pmm.used then pmm
  else if pmm.refs f ≠ 0 then { pmm with refs := update pmm.refs f (pmm.refs f - 1) }
  else { pmm with used := pmm.used.erase f }

def refFrame (pmm : Pmm) (f : Nat) : Option Pmm :=
  if f ∉ pmm.used then none
  else if pmm.refs f ≥ REF_MAX then none
  else some { pmm with refs := update pmm.refs f (pmm.refs f + 1) }

def frameOwners (pmm : Pmm) (f : Nat) : Nat :=
  if f ∉ pmm.used then 0 else 1 + pmm.refs f

/-! ## Spaces -/

/-- A page table entry that is PRESENT. -/
structure Pte where
  frame : Nat
  write : Bool
  user : Bool
  cow : Bool
  cowRw : Bool
  shared : Bool
  rest : Nat
  deriving DecidableEq

structure Space where
  pml4 : Nat
  tables : Table (Nat × Nat) Nat
  pages : Table Nat Pte

/-- The machine: the allocator's state, the memory behind the direct map,
`uspace64_zero_frame()`, the table of live spaces, and the spaces. -/
structure Sys where
  pmm : Pmm
  mem : Nat → Mem
  zero : Nat
  live : List Nat
  spaces : Nat → Option Space
  count : Nat

namespace Sys

/-- `pte_for(.., 0)`. -/
def pte (sys : Sys) (s v : Nat) : Option Pte := (sys.spaces s).bind fun sp => sp.pages.get v

/-- `*pte = e`. -/
def setPte (sys : Sys) (s v : Nat) (e : Pte) : Sys :=
  match sys.spaces s with
  | none => sys
  | some sp =>
    { sys with spaces := update sys.spaces s (some { sp with pages := sp.pages.set v e }) }

/-- `kmemcpy(phys64_to_virt(dst), phys64_to_virt(src), PAGE64_SIZE)`. -/
def copyFrame (sys : Sys) (dst src : Nat) : Sys :=
  { sys with
    mem := update sys.mem dst ((sys.mem dst).copyAt 0 (sys.mem src) PAGE64_SIZE) }

/-- A store through the direct map. -/
def store (sys : Sys) (f off : Nat) (b : UInt8) : Sys :=
  { sys with mem := update sys.mem f (update (sys.mem f) off b) }

end Sys

/-- The table of level `lvl` that the walk to page `v` goes through. -/
def tableKey (lvl v : Nat) : Nat × Nat := (lvl, v / 512 ^ (3 - lvl))

/-- One level of `pte_for(.., 1)`: the table, made if it is not there. -/
def ensureTable (A : Allocator) (sys : Sys) (s v lvl : Nat) : Sys :=
  match sys.spaces s with
  | none => sys
  | some sp =>
    match sp.tables.get (tableKey lvl v) with
    | some _ => sys
    | none =>
      let (fresh, pmm) := allocFrame A .low sys.pmm
      { sys with
        pmm := pmm
        spaces := update sys.spaces s
          (some { sp with tables := sp.tables.set (tableKey lvl v) fresh }) }

/-- The three levels above the entry. -/
def ensureTables (A : Allocator) (sys : Sys) (s v : Nat) : Sys :=
  ensureTable A (ensureTable A (ensureTable A sys s v 0) s v 1) s v 2

/-- `share_flags`, with the frame. -/
def shareFlags (e : Pte) : Pte :=
  { e with write := false, cow := true, cowRw := e.cowRw || e.write }

/-- The flags of a page that is one's own again. -/
def ownFlags (e : Pte) : Pte := { e with write := true, cow := false, cowRw := false }

/-- One entry of the walk of `vmspace64_clone_cow`. -/
def clonePage (A : Allocator) (src dst : Nat) (sys : Sys) (v : Nat) : Sys :=
  match sys.pte src v with
  | none => sys
  | some e =>
    let sys := ensureTables A sys dst v
    if !A.ram e.frame then sys.setPte dst v e
    else if e.frame = sys.zero then sys.setPte dst v e
    else
      match refFrame sys.pmm e.frame with
      | some pmm =>
        let sys := { sys with pmm := pmm }
        if e.shared then sys.setPte dst v e
        else (sys.setPte src v (shareFlags e)).setPte dst v (shareFlags e)
      | none =>
        -- The count saturated: copying is always correct.
        let (fresh, pmm) := allocFrame A .high sys.pmm
        (({ sys with pmm := pmm }).copyFrame fresh e.frame).setPte dst v { e with frame := fresh }

def cloneCow (A : Allocator) (sys : Sys) (src dst : Nat) : Sys :=
  match sys.spaces src with
  | none => sys
  | some sp => sp.pages.keys.foldl (clonePage A src dst) sys

def liveAdd (live : List Nat) (pml4 : Nat) : List Nat :=
  if live.length < LIVE_MAX then live ++ [pml4] else live

/-- `live_remove`: the last one takes the place of the one that goes. -/
def liveRemove (live : List Nat) (pml4 : Nat) : Option (List Nat) :=
  match live.idxOf? pml4, live.getLast? with
  | some i, some last => some (live.set i last).dropLast
  | _, _ => none

/-- `vmspace64_create`. -/
def createSpace (A : Allocator) (sys : Sys) : Sys :=
  let (frame, pmm) := allocFrame A .low sys.pmm
  { sys with
    pmm := pmm
    live := liveAdd sys.live frame
    spaces := update sys.spaces sys.count (some ⟨frame, Table.empty, Table.empty⟩)
    count := sys.count + 1 }

/-- The frame of a shared page becomes this space's own: a copy if anybody
else owns it, the frame itself if nobody does. The block that
`vmspace64_break_cow` and `vmspace64_user_frame` share. -/
def ownPage (A : Allocator) (sys : Sys) (s v : Nat) (e : Pte) : Sys :=
  if frameOwners sys.pmm e.frame > 1 then
    let (fresh, pmm) := allocFrame A .user sys.pmm
    let sys := ({ sys with pmm := pmm }).copyFrame fresh e.frame
    let sys := { sys with pmm := freeFrame sys.pmm e.frame }
    sys.setPte s v { ownFlags e with frame := fresh }
  else sys.setPte s v (ownFlags e)

/-- `vmspace64_break_cow` with the space `s` loaded. -/
def breakCow (A : Allocator) (sys : Sys) (s v : Nat) : Bool × Sys :=
  match sys.pte s v with
  | none => (false, sys)
  | some e =>
    if !e.cow then (false, sys)
    else if !e.cowRw then (false, sys)
    else (true, ownPage A sys s v e)

def userFrame (A : Allocator) (sys : Sys) (s v : Nat) (write : Bool) : Option Nat × Sys :=
  if v ≥ LOW_PAGES then (none, sys)
  else
    match sys.pte s v with
    | none => (none, sys)
    | some e =>
      if !e.user then (none, sys)
      else if !write then (some e.frame, sys)
      else if e.frame = sys.zero then (none, sys)
      else if e.cow then
        if !e.cowRw then (none, sys)
        else
          let sys := ownPage A sys s v e
          ((sys.pte s v).map Pte.frame, sys)
      else if !e.write then (none, sys)
      else (some e.frame, sys)

/-- `vmspace64_set_writable` with the space `s` loaded. -/
def setWritable (A : Allocator) (sys : Sys) (s v : Nat) (writable : Bool) : Bool × Sys :=
  match sys.pte s v with
  | none => (false, sys)
  | some e =>
    if e.frame = sys.zero && writable then
      -- A reservation: the page every other process stands on is not given away.
      let (fresh, pmm) := allocFrame A .high sys.pmm
      let sys := { sys with
        pmm := pmm
        mem := update sys.mem fresh ((sys.mem fresh).fillAt 0 0 PAGE64_SIZE) }
      (true, sys.setPte s v { ownFlags e with frame := fresh })
    else if e.cow then (true, sys.setPte s v { e with cowRw := writable, write := false })
    else (true, sys.setPte s v { e with write := writable })

/-- `free_low_half_tables`: the pages, then the tables. -/
def freeLowHalfTables (sys : Sys) (sp : Space) : Pmm :=
  let pmm := sp.pages.keys.foldl (fun pmm v =>
    match sp.pages.get v with
    | none => pmm
    | some e => if e.frame = sys.zero then pmm else freeFrame pmm e.frame) sys.pmm
  sp.tables.keys.foldl (fun pmm k =>
    match sp.tables.get k with
    | none => pmm
    | some f => freeFrame pmm f) pmm

/-- `vmspace64_destroy` with the space `loaded` loaded. A space that is not
live is forgotten and not freed. -/
def destroySpace (sys : Sys) (loaded s : Nat) : Sys :=
  match sys.spaces s with
  | none => sys
  | some sp =>
    if loaded = s then sys
    else
      match liveRemove sys.live sp.pml4 with
      | none => { sys with spaces := update sys.spaces s none }
      | some live =>
        { sys with
          live := live
          pmm := freeFrame (freeLowHalfTables sys sp) sp.pml4
          spaces := update sys.spaces s none }

/-- A store by the program in the space `s`: at once where the entry allows
it, else after the fault that `vmspace64_break_cow` dealt with. -/
def userWrite (A : Allocator) (sys : Sys) (s v off : Nat) (b : UInt8) : Bool × Sys :=
  match sys.pte s v with
  | none => (false, sys)
  | some e =>
    if e.user && e.write then (true, sys.store e.frame off b)
    else
      match breakCow A sys s v with
      | (false, sys) => (false, sys)
      | (true, sys) =>
        match sys.pte s v with
        | none => (false, sys)
        | some e => if e.user && e.write then (true, sys.store e.frame off b) else (false, sys)

/-! ## The calls as a machine -/

inductive Op where
  | fork (src : Nat)
  | write (s v : Nat) (off : Fin 4096) (b : UInt8)
  | poke (s v : Nat) (off : Fin 4096) (b : UInt8)
  | peek (s v : Nat) (off : Fin 4096)
  | setWritable (s v : Nat) (writable : Bool)
  | destroy (loaded s : Nat)

inductive Out where
  | done
  | refused
  | byte (b : UInt8)
  deriving DecidableEq

def Sys.call (A : Allocator) (sys : Sys) : Op → Sys × Out
  | .fork src =>
      match sys.spaces src with
      | none => (sys, .refused)
      | some _ => (cloneCow A (createSpace A sys) src sys.count, .done)
  | .write s v off b =>
      match userWrite A sys s v off b with
      | (true, sys) => (sys, .done)
      | (false, sys) => (sys, .refused)
  | .poke s v off b =>
      match userFrame A sys s v true with
      | (some f, sys) => (sys.store f off b, .done)
      | (none, sys) => (sys, .refused)
  | .peek s v off =>
      match userFrame A sys s v false with
      | (some f, sys) => (sys, .byte (sys.mem f off))
      | (none, sys) => (sys, .refused)
  | .setWritable s v writable =>
      match setWritable A sys s v writable with
      | (true, sys) => (sys, .done)
      | (false, sys) => (sys, .refused)
  | .destroy loaded s => (destroySpace sys loaded s, .done)

/-- Copy-on-write. -/
def cow (A : Allocator) : Machine Sys Op Out := ⟨Sys.call A⟩

/-- What a program in the space `s` reads. -/
def Sys.read (sys : Sys) (s v : Nat) (off : Fin 4096) : Option UInt8 :=
  (sys.pte s v).map fun e => sys.mem e.frame off

/-! ## Eager copying -/

/-- A page nobody shares: PRESENT, and WRITE and USER or not, which is what
`vmspace64_clone` carries over. -/
structure Page where
  bytes : Mem
  write : Bool
  user : Bool

structure Eager where
  spaces : Nat → Option (Nat → Option Page)
  count : Nat

namespace Eager

def page (sys : Eager) (s v : Nat) : Option Page := (sys.spaces s).bind fun sp => sp v

def setPage (sys : Eager) (s v : Nat) (p : Page) : Eager :=
  match sys.spaces s with
  | none => sys
  | some sp =>
    { sys with spaces := update sys.spaces s (some (update sp v (some p))) }

def storeByte (p : Page) (off : Nat) (b : UInt8) : Page :=
  { p with bytes := update p.bytes off b }

def call (sys : Eager) : Op → Eager × Out
  | .fork src =>
      match sys.spaces src with
      | none => (sys, .refused)
      | some sp =>
        ({ spaces := update sys.spaces sys.count (some sp)
           count := sys.count + 1 }, .done)
  | .write s v off b =>
      match sys.page s v with
      | none => (sys, .refused)
      | some p =>
        if p.user && p.write then (sys.setPage s v (storeByte p off b), .done) else (sys, .refused)
  | .poke s v off b =>
      if v ≥ LOW_PAGES then (sys, .refused)
      else
        match sys.page s v with
        | none => (sys, .refused)
        | some p =>
          if p.user && p.write then (sys.setPage s v (storeByte p off b), .done)
          else (sys, .refused)
  | .peek s v off =>
      if v ≥ LOW_PAGES then (sys, .refused)
      else
        match sys.page s v with
        | none => (sys, .refused)
        | some p => if p.user then (sys, .byte (p.bytes off)) else (sys, .refused)
  | .setWritable s v writable =>
      match sys.page s v with
      | none => (sys, .refused)
      | some p => (sys.setPage s v { p with write := writable }, .done)
  | .destroy loaded s =>
      match sys.spaces s with
      | none => (sys, .done)
      | some _ =>
        if loaded = s then (sys, .done)
        else ({ sys with spaces := update sys.spaces s none }, .done)

def read (sys : Eager) (s v : Nat) (off : Fin 4096) : Option UInt8 :=
  (sys.page s v).map fun p => p.bytes off

end Eager

/-- Every fork copies. -/
def eager : Machine Eager Op Out := ⟨Eager.call⟩

end NovarisOS.Vmspace64
