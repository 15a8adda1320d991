/-
NovarisOS.Pmm64.Frames — the physical frames of the 64-bit kernel,
`kernel/pmm64.c`.

A frame is named by its number, its address divided by `PMM64_FRAME_SIZE`.
The address 0 that the allocating calls return for "there is none" is then
the number 0, and it is ambiguous exactly where it is in the source: frame 0
cannot be told from a refusal.

The bitmap is kept a byte at a time, because the scans look at whole bytes.
-/
import Mathlib.Data.List.Basic

namespace NovarisOS.Pmm64

open Function (update)

abbrev PMM64_FRAME_SIZE : Nat := 4096
abbrev BOOT_WINDOW_BYTES : Nat := 0x40000000
abbrev REF_MAX : Nat := 255
abbrev PMM64_USER_RESERVE : Nat := 2048
abbrev MULTIBOOT_MEMORY_AVAILABLE : Nat := 1

/-- A `uint64_t` after an operation that may have carried out of it. -/
abbrev wrap (n : Nat) : Nat := n % 18446744073709551616

/-- The statics of the file. -/
structure Pmm where
  ready : Bool
  frameCount : Nat
  bitmap : Nat → BitVec 8
  refs : Nat → Nat
  ram : Nat → Bool
  usedCount : Nat
  allocHint : Nat
  highHint : Nat
  doubleFrees : Nat
  userOom : Bool

namespace Pmm

/-! ## The bitmap -/

def bitmapTest (p : Pmm) (bit : Nat) : Bool := (p.bitmap (bit / 8)).getLsbD (bit % 8)

def bitmapSet (p : Pmm) (bit : Nat) : Pmm :=
  { p with
    usedCount := if !p.bitmapTest bit && bit < p.frameCount then p.usedCount + 1 else p.usedCount
    bitmap := update p.bitmap (bit / 8) (p.bitmap (bit / 8) ||| 1#8 <<< (bit % 8)) }

def bitmapClear (p : Pmm) (bit : Nat) : Pmm :=
  { p with
    usedCount := if p.bitmapTest bit && bit < p.frameCount then p.usedCount - 1 else p.usedCount
    bitmap := update p.bitmap (bit / 8) (p.bitmap (bit / 8) &&& ~~~(1#8 <<< (bit % 8))) }

/-- `mark_range`, from the frame `f` on. -/
def markRange (p : Pmm) (f : Nat) (count : Nat) (used : Bool) : Pmm :=
  match count with
  | 0 => p
  | count + 1 =>
    if f ≥ p.frameCount then p
    else (if used then p.bitmapSet f else p.bitmapClear f).markRange (f + 1) count used

end Pmm

/-! ## Initialisation -/

structure MmapEntry where
  addr : Nat
  len : Nat
  type : Nat

/-- What `pmm64_init` reads of the Multiboot information: the memory map and
the module ends, each of them only if its flag is set. -/
structure Multiboot where
  mmap : Option (List MmapEntry)
  memLower : Nat
  memUpper : Nat
  mods : Option (List Nat)

/-- The ranges `for_each_available` calls back for. -/
def Multiboot.available (mbi : Multiboot) : List (Nat × Nat) :=
  match mbi.mmap with
  | none => [(0, wrap (mbi.memLower * 1024)), (0x100000, wrap (0x100000 + mbi.memUpper * 1024))]
  | some entries =>
    (entries.filter fun e => e.type = MULTIBOOT_MEMORY_AVAILABLE && e.len > 0).map
      fun e => (e.addr, wrap (e.addr + e.len))

/-- `note_highest` over all of them. -/
def Multiboot.highestAddr (mbi : Multiboot) : Nat :=
  mbi.available.foldl (fun highest r => if r.2 > highest then r.2 else highest) 0

/-- Above the kernel and above what the bootloader loaded, page aligned. -/
def Multiboot.place (mbi : Multiboot) (kernelEnd : Nat) : Nat :=
  let place := (mbi.mods.getD []).foldl (fun place e => if e > place then e else place) kernelEnd
  wrap (place + PMM64_FRAME_SIZE - 1) / PMM64_FRAME_SIZE * PMM64_FRAME_SIZE

namespace Pmm

/-- The loop of `free_region` that notes what is memory. -/
def markRam (p : Pmm) (f : Nat) (count : Nat) : Pmm :=
  match count with
  | 0 => p
  | count + 1 =>
    if f ≥ p.frameCount then p
    else { p with ram := update p.ram f true }.markRam (f + 1) count

/-- A partial tail frame is not a whole frame and stays marked used. -/
def freeRegion (p : Pmm) (start stop : Nat) : Pmm :=
  let sf := start / PMM64_FRAME_SIZE
  let ef := stop / PMM64_FRAME_SIZE
  let p := if ef > sf then p.markRange sf (ef - sf) false else p
  p.markRam sf (ef - sf)

def reserveRegion (p : Pmm) (startAddr endAddr : Nat) : Pmm :=
  let sf := startAddr / PMM64_FRAME_SIZE
  let ef := wrap (endAddr + PMM64_FRAME_SIZE - 1) / PMM64_FRAME_SIZE
  if ef > sf then p.markRange sf (ef - sf) true else p

/-- The statics before anything has run. -/
def static : Pmm where
  ready := false
  frameCount := 0
  bitmap := fun _ => 0
  refs := fun _ => 0
  ram := fun _ => false
  usedCount := 0
  allocHint := 0
  highHint := 0
  doubleFrees := 0
  userOom := false

/-- `pmm64_init`. The tables go at `place`, one after the other; where they
do not fit the window that is mapped at boot, the allocator stays not
ready. -/
def init (mbi : Multiboot) (kernelStart kernelEnd : Nat) : Pmm :=
  if mbi.highestAddr = 0 then static
  else
    let frameCount := wrap (mbi.highestAddr + PMM64_FRAME_SIZE - 1) / PMM64_FRAME_SIZE
    let bitmapBytes := (frameCount + 7) / 8
    let place := mbi.place kernelEnd
    let tablesEnd := wrap (place + bitmapBytes + frameCount + bitmapBytes)
    if tablesEnd > BOOT_WINDOW_BYTES then
      { static with frameCount := frameCount, highHint := frameCount }
    else
      -- Everything used, then free only what the bootloader vouched for.
      let p := { static with
        frameCount := frameCount, highHint := frameCount
        bitmap := fun _ => 0xFF, usedCount := frameCount }
      let p := mbi.available.foldl (fun p r => p.freeRegion r.1 r.2) p
      let p := p.markRange 0 (0x100000 / PMM64_FRAME_SIZE) true
      let p := p.reserveRegion kernelStart kernelEnd
      let p := p.reserveRegion place tablesEnd
      { p with ready := true }

/-! ## Allocating -/

/-- The upward scan over `[f, stop)`: a byte with every frame taken is
passed in one test. -/
def scanUp (p : Pmm) (stop : Nat) : Nat → Nat → Option Nat
  | 0, _ => none
  | n + 1, f =>
    if f < stop then
      if f % 8 = 0 ∧ f + 8 ≤ stop ∧ p.bitmap (f / 8) = 0xFF then p.scanUp stop n (f + 8)
      else if !p.bitmapTest f then some f
      else p.scanUp stop n (f + 1)
    else none

/-- The downward scan, `for (f = start; f-- > stop; )`. -/
def scanDown (p : Pmm) (stop : Nat) : Nat → Nat → Option Nat
  | 0, _ => none
  | n + 1, f =>
    if f > stop then
      let f := f - 1
      if f % 8 = 7 ∧ f ≥ stop + 7 ∧ p.bitmap (f / 8) = 0xFF then p.scanDown stop n (f - 7)
      else if !p.bitmapTest f then some f
      else p.scanDown stop n f
    else none

/-- The two sweeps of `pmm64_alloc_frame`, from the hint and then up to it. -/
def findUp (p : Pmm) : Option Nat :=
  (p.scanUp p.frameCount (p.frameCount - p.allocHint) p.allocHint).or
    (p.scanUp p.allocHint p.allocHint 0)

/-- The two sweeps of `pmm64_alloc_high`, down from the hint and then down
to it. -/
def findDown (p : Pmm) : Option Nat :=
  (p.scanDown 0 p.highHint p.highHint).or
    (p.scanDown p.highHint (p.frameCount - p.highHint) p.frameCount)

def allocFrame (p : Pmm) : Nat × Pmm :=
  if !p.ready then (0, p)
  else
    match p.findUp with
    | some f => (f, { p.bitmapSet f with allocHint := f + 1 })
    | none => (0, p)

/-- `pmm64_alloc_high`. Out of high memory is not out of memory. -/
def allocHigh (p : Pmm) : Nat × Pmm :=
  if !p.ready then (0, p)
  else
    let p := if p.highHint > p.frameCount then { p with highHint := p.frameCount } else p
    match p.findDown with
    | some f => (f, { p.bitmapSet f with highHint := f })
    | none => p.allocFrame

def allocAbove (p : Pmm) (minPhys : Nat) : Nat × Pmm :=
  let first := wrap (minPhys + PMM64_FRAME_SIZE - 1) / PMM64_FRAME_SIZE
  if !p.ready then (0, p)
  else
    match (List.range' first (p.frameCount - first)).find? (fun f => !p.bitmapTest f) with
    | some f => (f, p.bitmapSet f)
    | none => (0, p)

def freeFrames (p : Pmm) : Nat := if !p.ready then 0 else p.frameCount - p.usedCount

def allocUser (p : Pmm) : Nat × Pmm :=
  if p.freeFrames < PMM64_USER_RESERVE then (0, { p with userOom := true })
  else
    let (f, p) := p.allocHigh
    if f = 0 then (0, { p with userOom := true }) else (f, p)

/-! ## Owners -/

/-- `pmm64_free_frame`. Both hints move to include the frame just returned. -/
def freeFrame (p : Pmm) (f : Nat) : Pmm :=
  if !p.ready || f ≥ p.frameCount then p
  else if !p.bitmapTest f then { p with doubleFrees := p.doubleFrees + 1 }
  else if p.refs f ≠ 0 then { p with refs := update p.refs f (p.refs f - 1) }
  else
    { p.bitmapClear f with
      allocHint := if f < p.allocHint then f else p.allocHint
      highHint := if f ≥ p.highHint then f + 1 else p.highHint }

/-- `pmm64_ref_frame`: one more owner, or nothing. -/
def refFrame (p : Pmm) (f : Nat) : Option Pmm :=
  if !p.ready || f ≥ p.frameCount then none
  else if !p.bitmapTest f then none
  else if p.refs f ≥ REF_MAX then none
  else some { p with refs := update p.refs f (p.refs f + 1) }

def frameOwners (p : Pmm) (f : Nat) : Nat :=
  if !p.ready || f ≥ p.frameCount then 0
  else if !p.bitmapTest f then 0
  else 1 + p.refs f

/-- `pmm64_owns`. -/
def owns (p : Pmm) (f : Nat) : Bool := p.ready && f < p.frameCount && p.ram f

/-! ## Counting -/

/-- `used_bits`, for the sixteen values of half a byte. -/
def usedBits : List Nat := [0, 1, 1, 2, 1, 2, 2, 3, 1, 2, 2, 3, 2, 3, 3, 4]

def byteUsed (v : BitVec 8) : Nat :=
  if v = 0xFF then 8 else usedBits.getD (v &&& 0xF).toNat 0 + usedBits.getD (v >>> 4).toNat 0

def freeFramesScanned (p : Pmm) : Nat :=
  if !p.ready then 0
  else
    let whole := p.frameCount / 8
    let used := (List.range whole).foldl (fun used b => used + byteUsed (p.bitmap b)) 0
    let used := (List.range' (whole * 8) (p.frameCount - whole * 8)).foldl
      (fun used f => if p.bitmapTest f then used + 1 else used) used
    p.frameCount - used

end Pmm

end NovarisOS.Pmm64
