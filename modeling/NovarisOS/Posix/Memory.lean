/-
NovarisOS.Posix.Memory — `mmap2`, `munmap`, `mprotect` and `brk` of the
32-bit kernel, `kernel/posix.c`.

The calls are translated with their 32-bit sums. Two inputs stand for what is
decided elsewhere: what `vfs_make_mappable` answers for the file being mapped
(`Storage`: whether it could, where the storage is, how large it is and how
far the heap had to grow for it), and which descriptors are files.
-/
import NovarisOS.Posix.Paging

namespace NovarisOS.Posix

abbrev MMAP_ARENA_START : Nat := 0x42000000
abbrev MMAP_ARENA_END : Nat := 0x48000000
abbrev BRK_ARENA_START : Nat := 0x48000000
abbrev BRK_ARENA_END : Nat := 0x49000000

abbrev PROT_NONE : Nat := 0

abbrev EBADF : Int := 9
abbrev ENOMEM : Int := 12
abbrev EEXIST : Int := 17
abbrev EINVAL : Int := 22

/-- `(length + PAGE_SIZE - 1) & ~(PAGE_SIZE - 1)`. -/
def roundUp (length : Nat) : Nat := u32 (length + (PAGE_SIZE - 1)) / PAGE_SIZE * PAGE_SIZE

/-- `prot & PROT_WRITE`. -/
def protWrite (prot : Nat) : Bool := prot.testBit 1

def protToPte (prot : Nat) : Flags :=
  if prot = PROT_NONE then {} else { user := true, rw := protWrite prot }

/-- What `vfs_make_mappable` did for a file. -/
structure Storage where
  made : Bool
  heapTo : Nat
  data : Nat
  capacity : Nat

/-- The bits of `flags` the call looks at. -/
structure MapFlags where
  shared : Bool
  fixed : Bool
  anonymous : Bool
  noReplace : Bool
  deriving DecidableEq

/-- MAP_SHARED 0x01, MAP_FIXED 0x10, MAP_ANONYMOUS 0x20, MAP_FIXED_NOREPLACE 0x100000. -/
def mapFlags (flags : Nat) : MapFlags where
  shared := flags.testBit 0
  fixed := flags.testBit 4
  anonymous := flags.testBit 5
  noReplace := flags.testBit 20

namespace Machine

/-! ## Ranges -/

/-- What is mapped at `va` is taken out; the frame goes back unless it is
shared. -/
def clearPage (m : Machine) (va : Nat) : Machine :=
  let pte := m.pagingGetEntry va
  if pte.present then
    let m := m.pagingUnmapPage va
    if pte.shared then m else m.pmmFreeFrame va pte.frame
  else m

/-- The loop of `map_range`. -/
def mapPages (f : Flags) : List Nat → Machine → Bool × Machine
  | [], m => (true, m)
  | va :: rest, m =>
      let pte := m.pagingGetEntry va
      if pte.present && !pte.shared && !pte.cow then
        mapPages f rest (m.pagingMapPage va pte.frame f)
      else
        let (phys, m) := (m.clearPage va).pmmAllocFrame
        if phys = 0 then (false, m)
        else mapPages f rest (m.pagingMapPage va phys f)

def mapRange (m : Machine) (base bytes : Nat) (f : Flags) : Bool × Machine :=
  mapPages f (pages base (u32 (base + bytes))) m

/-- One round of `unmap_range`. -/
def unmapOne (m : Machine) (va : Nat) : Machine :=
  let pte := m.pagingGetEntry va
  if pte.taken then
    let m := m.pagingUnmapPage va
    if pte.present && !pte.shared then m.pmmFreeFrame va pte.frame else m
  else m

def unmapRange (m : Machine) (base bytes : Nat) : Machine :=
  (pages base (u32 (base + bytes))).foldl unmapOne m

/-- The flags of a page of the file. A private view never has PAGE_RW. -/
def fileFlags (f : Flags) (cow : Bool) : Flags :=
  if cow then { user := f.user, shared := true, cow := true, cowRw := f.rw }
  else { f with shared := true }

/-- What the loop of `map_file_range` does first: the frame that is mapped
over goes back. -/
def giveBack (m : Machine) (va : Nat) : Machine :=
  let old := m.pagingGetEntry va
  if old.present && !old.shared then m.pmmFreeFrame va old.frame else m

/-- The loop of `map_file_range`, at the offsets `p` still to come: 1, or -1
with what is mapped so far taken out again. -/
def mapFilePages (base off : Nat) (st : Storage) (f : Flags) (cow : Bool) :
    List Nat → Machine → Int × Machine
  | [], m => (1, m)
  | p :: rest, m =>
      let va := u32 (base + p)
      let m := m.giveBack va
      let here := u32 (off + p)
      if here < off ∨ st.capacity ≤ here then
        let (frame, m) := m.pmmAllocFrame
        if frame = 0 then (-1, m.unmapRange base p)
        else
          let m := m.pagingMapPage va frame { f with rw := true, user := true }
          mapFilePages base off st f cow rest (m.pagingMapPage va frame f)
      else
        let kpte := m.pagingGetEntry (u32 (st.data + here))
        if kpte.present = false then (-1, m.unmapRange base p)
        else mapFilePages base off st f cow rest (m.pagingMapPage va kpte.frame (fileFlags f cow))

/-- `map_file_range`: 1, 0 for a file that cannot be mapped, -1 for storage
that is not there. -/
def mapFileRange (m : Machine) (base bytes : Nat) (st : Storage) (off : Nat) (f : Flags) (cow : Bool) :
    Int × Machine :=
  let m := m.heapGrow st.heapTo
  if st.made then mapFilePages base off st f cow (pages 0 bytes) m else (0, m)

/-- One pass of `arena_find`: the addresses still to be looked at and the run
of free pages that ends where they begin. -/
def findRun (m : Machine) (bytes : Nat) : List Nat → Nat → Option Nat
  | [], _ => none
  | a :: rest, run =>
      if (m.pagingGetEntry a).taken then findRun m bytes rest (a + PAGE_SIZE)
      else if bytes ≤ a + PAGE_SIZE - run then some run
      else findRun m bytes rest run

/-- `arena_find`, with `none` for its 0. -/
def arenaFind (m : Machine) (bytes : Nat) : Option Nat :=
  if bytes = 0 ∨ MMAP_ARENA_END - MMAP_ARENA_START < bytes then none
  else
    let hint := if m.mmapNext < MMAP_ARENA_START ∨ MMAP_ARENA_END ≤ m.mmapNext then MMAP_ARENA_START
      else m.mmapNext
    match findRun m bytes (pages hint MMAP_ARENA_END) hint with
    | some run => some run
    | none => findRun m bytes (pages MMAP_ARENA_START hint) MMAP_ARENA_START

/-- A page of the process's own is taken out; a shared one is left to be
written over. -/
def clearOwnPage (m : Machine) (va : Nat) : Machine :=
  let old := m.pagingGetEntry va
  if old.present && !old.shared then (m.pagingUnmapPage va).pmmFreeFrame va old.frame else m

/-- The loop that makes a PROT_NONE reservation. -/
def reservePages (base : Nat) : List Nat → Machine → Bool × Machine
  | [], m => (true, m)
  | p :: rest, m =>
      let va := u32 (base + p)
      let (done, m) := (m.clearOwnPage va).pagingReservePage va
      if done then reservePages base rest m else (false, m.unmapRange base p)

/-! ## The calls -/

/-- Where `sys_mmap2` puts the mapping: an address, or the errno. -/
def mmapBase (m : Machine) (addr bytes : Nat) (fl : MapFlags) : Except Int Nat × Machine :=
  if fl.fixed || fl.noReplace then
    if addr = 0 ∨ addr % PAGE_SIZE ≠ 0 then (.error (-EINVAL), m)
    else if u32 (addr + bytes) < addr then (.error (-ENOMEM), m)
    else if USER_SPACE_END < u32 (addr + bytes) then (.error (-ENOMEM), m)
    else if fl.noReplace && (pages 0 bytes).any (fun p => (m.pagingGetEntry (u32 (addr + p))).taken) then
      (.error (-EEXIST), m)
    else if m.pagingRegionConflict addr (u32 (addr + bytes)) then (.error (-ENOMEM), m)
    else (.ok addr, m)
  else
    match m.arenaFind bytes with
    | none => (.error (-ENOMEM), m)
    | some base => (.ok base, { m with mmapNext := u32 (base + bytes) })

/-- The end of `sys_mmap2`, for memory of the process's own. A file gets here
when it could not be made mappable. -/
def mmapOwn (m : Machine) (base bytes : Nat) (f : Flags) (fileBacked : Bool) (fd : Int) : Int × Machine :=
  let (done, m) := m.mapRange base bytes f
  if done = false then (-ENOMEM, m.unmapRange base bytes)
  else if fileBacked && !m.isFile fd then (-EBADF, m.unmapRange base bytes)
  else (base, m)

/-- `sys_mmap2` behind the choice of the address. -/
def mmapAt (m : Machine) (base bytes prot : Nat) (fl : MapFlags) (fd : Int) (pgoff : Nat) (st : Storage) :
    Int × Machine :=
  let fileBacked := !fl.anonymous && decide (0 ≤ fd)
  if prot = PROT_NONE ∧ fileBacked = false then
    let (done, m) := reservePages base (pages 0 bytes) m
    if done then (base, m) else (-ENOMEM, m)
  else if fileBacked = false then m.mmapOwn base bytes (protToPte prot) false fd
  else if !m.isFile fd then (-EBADF, m)
  else
    let (r, m) := m.mapFileRange base bytes st (u32 (pgoff * PAGE_SIZE)) (protToPte prot) (!fl.shared)
    if 0 < r then (base, m)
    else if r < 0 ∨ fl.shared then (-ENOMEM, m)
    else m.mmapOwn base bytes (protToPte prot) true fd

def sysMmap2 (m : Machine) (addr length prot flags : Nat) (fd : Int) (pgoff : Nat) (st : Storage) :
    Int × Machine :=
  if length = 0 then (-EINVAL, m)
  else
    match m.mmapBase addr (roundUp length) (mapFlags flags) with
    | (.error e, m) => (e, m)
    | (.ok base, m) => m.mmapAt base (roundUp length) prot (mapFlags flags) fd pgoff st

def sysMunmap (m : Machine) (addr length : Nat) : Int × Machine :=
  if addr % PAGE_SIZE ≠ 0 then (-EINVAL, m)
  else if length = 0 then (-EINVAL, m)
  else (0, m.unmapRange addr (roundUp length))

/-- What `mprotect` makes of a present entry: the frame and the bits that say
whose it is stay. -/
def reprotect (pte : Entry) (f : Flags) : Flags :=
  if pte.cow then { user := f.user, shared := pte.shared, cow := true, cowRw := f.rw }
  else { f with shared := pte.shared }

/-- The loop of `sys_mprotect`. -/
def protectPages (prot : Nat) : List Nat → Machine → Int × Machine
  | [], m => (0, m)
  | va :: rest, m =>
      let pte := m.pagingGetEntry va
      if pte.present then
        protectPages prot rest (m.pagingMapPage va pte.frame (reprotect pte (protToPte prot)))
      else if pte.bit10 = false then (-ENOMEM, m)
      else if prot = PROT_NONE then protectPages prot rest m
      else
        let (frame, m) := m.pmmAllocFrame
        if frame = 0 then (-ENOMEM, m)
        else protectPages prot rest (m.pagingMapPage va frame (protToPte prot))

def sysMprotect (m : Machine) (addr length prot : Nat) : Int × Machine :=
  if addr % PAGE_SIZE ≠ 0 then (-EINVAL, m)
  else protectPages prot (pages addr (u32 (addr + roundUp length))) m

def sysBrk (m : Machine) (addr : Nat) : Int × Machine :=
  if addr = 0 then (m.brkCurrent, m)
  else if addr < BRK_ARENA_START ∨ BRK_ARENA_END < addr then (m.brkCurrent, m)
  else
    let want := roundUp addr
    if m.brkMapped < want then
      let (done, m') := m.mapRange m.brkMapped (want - m.brkMapped) { rw := true, user := true }
      if done then (addr, { m' with brkMapped := want, brkCurrent := addr })
      else (m.brkCurrent, m')
    else if want < m.brkMapped then
      (addr, { m.unmapRange want (m.brkMapped - want) with brkMapped := want, brkCurrent := addr })
    else (addr, { m with brkCurrent := addr })

end Machine

/-- The four calls, with any 32-bit values for their arguments. -/
inductive Call where
  | mmap2 (addr length prot flags : UInt32) (fd : Int32) (pgoff : UInt32) (st : Storage)
  | munmap (addr length : UInt32)
  | mprotect (addr length prot : UInt32)
  | brk (addr : UInt32)

def Machine.call (m : Machine) : Call → Int × Machine
  | .mmap2 addr length prot flags fd pgoff st =>
      m.sysMmap2 addr.toNat length.toNat prot.toNat flags.toNat fd.toInt pgoff.toNat st
  | .munmap addr length => m.sysMunmap addr.toNat length.toNat
  | .mprotect addr length prot => m.sysMprotect addr.toNat length.toNat prot.toNat
  | .brk addr => m.sysBrk addr.toNat

end NovarisOS.Posix
