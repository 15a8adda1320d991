/-
NovarisOS.Posix.Paging — the 32-bit kernel's frames and page tables,
`kernel/pmm.c` and `kernel/paging.c`, as the memory calls of
`kernel/posix.c` use them.

The tables are the two levels the processor walks: a directory and one table
for each of its entries.
-/
import Mathlib.Data.List.Basic
import NovarisOS.Page

namespace NovarisOS.Posix

open Function (update)

abbrev USER_SPACE_END : Nat := 0xC0000000
abbrev RECURSIVE_PD_INDEX : Nat := 1023
abbrev PMM_SHARE_FRAMES : Nat := 0x40000
abbrev HEAP_START : Nat := 0xD0000000
abbrev HEAP_LIMIT : Nat := 0xDC000000

/-- A value of 32 bits. -/
@[irreducible] def u32 (n : Nat) : Nat := n % 0x100000000

/-- The bits an entry is made with. `cowRw` is `PAGE_COW_RW`. -/
structure Flags where
  rw : Bool := false
  user : Bool := false
  shared : Bool := false
  cowRw : Bool := false
  cow : Bool := false
  deriving DecidableEq

/-- A directory or table entry. Bit 10 is `PAGE_RESERVED` where the entry is
not present and `PAGE_COW_RW` where it is. -/
structure Entry where
  frame : Nat := 0
  present : Bool := false
  rw : Bool := false
  user : Bool := false
  shared : Bool := false
  bit10 : Bool := false
  cow : Bool := false
  deriving DecidableEq

/-- `frame | flags | PAGE_PRESENT`. -/
def entryOf (frame : Nat) (f : Flags) : Entry where
  frame := frame
  present := true
  rw := f.rw
  user := f.user
  shared := f.shared
  bit10 := f.cowRw
  cow := f.cow

namespace Entry

/-- `PAGE_RESERVED`, on an entry that is not present. -/
def reserved (e : Entry) : Bool := !e.present && e.bit10

/-- `pte & (PAGE_PRESENT | PAGE_RESERVED)`, for the two bits that never stand
in one entry with the same meaning. -/
def taken (e : Entry) : Bool := e.present || e.bit10

/-- What a program can tell of an entry: the frame and who may do what. -/
def grant (e : Entry) : Nat × Bool × Bool × Bool := (e.frame, e.present, e.rw, e.user)

end Entry

/-- The kernel, and the process the call is made by. `isFile` says which
descriptors are open files. -/
structure Machine where
  pd : Nat → Entry
  pt : Nat → Nat → Entry
  used : Nat → Bool
  refs : Nat → Nat
  highestFrame : Nat
  searchFrom : Nat
  released : List (Nat × Nat)
  reservations : List (Nat × Nat)
  heapEnd : Nat
  isFile : Int → Bool
  mmapNext : Nat
  brkCurrent : Nat
  brkMapped : Nat

/-- The addresses of `for (va = lo; va < hi; va += PAGE_SIZE)`. Both ends are
page aligned wherever the source has such a loop, so `va` never wraps. -/
def pages (lo hi : Nat) : List Nat :=
  (List.range ((hi - lo + (PAGE_SIZE - 1)) / PAGE_SIZE)).map (lo + PAGE_SIZE * ·)

def pdIndex (va : Nat) : Nat := va / 0x400000

def ptIndex (va : Nat) : Nat := va / PAGE_SIZE % 1024

namespace Machine

/-! ## Frames -/

/-- `pmm_alloc_frame`: the lowest free frame from `search_from` on, or 0. -/
def pmmAllocFrame (m : Machine) : Nat × Machine :=
  match (List.range' m.searchFrom (m.highestFrame + 1 - m.searchFrom)).find? (fun f => !m.used f) with
  | some f => (f, { m with used := update m.used f true, searchFrom := f + 1 })
  | none => (0, { m with searchFrom := m.highestFrame + 1 })

/-- `pmm_free_frame`, for the frame that was mapped at `va`. A frame that is
free already is only counted; one with other owners loses one. -/
def pmmFreeFrame (m : Machine) (va frame : Nat) : Machine :=
  let m := { m with released := (va, frame) :: m.released }
  if m.used frame = false then m
  else if frame < PMM_SHARE_FRAMES ∧ m.refs frame ≠ 0 then
    { m with refs := update m.refs frame (m.refs frame - 1) }
  else
    { m with
      used := update m.used frame false
      searchFrom := min m.searchFrom frame }

/-! ## Tables -/

/-- `PAGE_TABLE(n)[i]`. -/
def tableAt (m : Machine) (n i : Nat) : Entry := if n = RECURSIVE_PD_INDEX then m.pd i else m.pt n i

def setTable (m : Machine) (n i : Nat) (e : Entry) : Machine :=
  if n = RECURSIVE_PD_INDEX then { m with pd := update m.pd i e }
  else { m with pt := update m.pt n (update (m.pt n) i e) }

def pagingGetEntry (m : Machine) (va : Nat) : Entry :=
  if (m.pd (pdIndex va)).present then m.tableAt (pdIndex va) (ptIndex va) else {}

/-- A directory entry that points at a new, empty table in `frame`. -/
def pointAt (m : Machine) (n frame : Nat) : Machine :=
  { m with
    pd := update m.pd n { frame := frame, present := true, rw := true, user := true }
    pt := update m.pt n (fun _ => {}) }

/-- The first part of `paging_map_page`: the table `va` needs. The answer of
`pmm_alloc_frame` is not looked at. -/
def needTable (m : Machine) (va : Nat) : Machine :=
  if (m.pd (pdIndex va)).present then m
  else m.pmmAllocFrame.2.pointAt (pdIndex va) m.pmmAllocFrame.1

def pagingMapPage (m : Machine) (va frame : Nat) (f : Flags) : Machine :=
  (m.needTable va).setTable (pdIndex va) (ptIndex va) (entryOf frame f)

def pagingUnmapPage (m : Machine) (va : Nat) : Machine :=
  if (m.pd (pdIndex va)).present then m.setTable (pdIndex va) (ptIndex va) {} else m

/-- `paging_reserve_page`, which does look at the allocator's answer. -/
def pagingReservePage (m : Machine) (va : Nat) : Bool × Machine :=
  if !(m.pd (pdIndex va)).present && m.pmmAllocFrame.1 == 0 then (false, m.pmmAllocFrame.2)
  else (true, (m.needTable va).setTable (pdIndex va) (ptIndex va) { bit10 := true })

/-- `paging_region_conflict`, as a yes or no. -/
def pagingRegionConflict (m : Machine) (start stop : Nat) : Bool :=
  decide (start < stop) && m.reservations.any (fun r => decide (start < r.2) && decide (r.1 < stop))

/-! ## The kernel heap -/

/-- `heap_expand`, with the pages still to be mapped. -/
def heapExpand : List Nat → Machine → Machine
  | [], m => m
  | va :: rest, m =>
      let (frame, m) := m.pmmAllocFrame
      if frame = 0 then m
      else heapExpand rest { m.pagingMapPage va frame { rw := true } with heapEnd := va + PAGE_SIZE }

/-- The growth of `kmalloc`, up to `newEnd` and never past the heap's room. -/
def heapGrow (m : Machine) (newEnd : Nat) : Machine :=
  heapExpand (pages m.heapEnd (min newEnd HEAP_LIMIT)) m

end Machine

end NovarisOS.Posix
