/-
NovarisOS.Pmm32.Frames — the physical frames of the 32-bit kernel,
`kernel/pmm.c`.

A frame is named by its number; the calls take and return addresses, as the
source does, and the address 0 means that there is no frame to be had. Where a
sum of two 32-bit values may carry out of them it wraps here too (`wrap`);
frame numbers stay below `MAX_FRAMES`, so that no product does.
-/
import NovarisOS.Lib.Bitmap

namespace NovarisOS.Pmm32

abbrev PMM_FRAME_SIZE : Nat := 4096
abbrev MAX_FRAMES : Nat := 0x100000
abbrev PMM_SHARE_FRAMES : Nat := 0x40000
abbrev MULTIBOOT_MEMORY_AVAILABLE : Nat := 1

/-- A `uint32_t` after an operation that may have carried out of it. -/
abbrev wrap (n : Nat) : Nat := n % 0x100000000

/-- The statics of the file. -/
structure Pmm where
  frameBitmap : Bitmap
  highestFrame : Nat
  searchFrom : Nat
  frameRefs : Nat → Nat
  doubleFrees : Nat

structure MmapEntry where
  addr : Nat
  len : Nat
  type : Nat

structure Multiboot where
  mmap : Option (List MmapEntry)
  memLower : Nat
  memUpper : Nat

namespace Pmm

def bitmapTest (p : Pmm) (bit : Nat) : Bool := p.frameBitmap.test bit

def bitmapSet (p : Pmm) (bit : Nat) : Pmm := { p with frameBitmap := p.frameBitmap.set bit }

def bitmapClear (p : Pmm) (bit : Nat) : Pmm := { p with frameBitmap := p.frameBitmap.clear bit }

/-! ## Initialisation -/

/-- The body of the loop of `mark_region`. -/
def markOne (p : Pmm) (frame : Nat) (used : Bool) : Pmm :=
  let q :=
    if used then p.bitmapSet frame
    else { p.bitmapClear frame with searchFrom := if frame < p.searchFrom then frame else p.searchFrom }
  { q with highestFrame := if frame > p.highestFrame then frame else p.highestFrame }

def markRegion (p : Pmm) (frame count : Nat) (used : Bool) : Pmm :=
  match count with
  | 0 => p
  | count + 1 => if frame ≥ MAX_FRAMES then p else (p.markOne frame used).markRegion (frame + 1) count used

/-- The body of the loop over the memory map. -/
def freeEntry (p : Pmm) (e : MmapEntry) : Pmm :=
  if e.type = MULTIBOOT_MEMORY_AVAILABLE then
    if e.addr < 0x100000000 then
      let stop := (e.addr + e.len) % 18446744073709551616
      let stop := if stop > 0x100000000 then 0x100000000 else stop
      let startFrame := e.addr / PMM_FRAME_SIZE
      let endFrame := stop / PMM_FRAME_SIZE
      if endFrame > startFrame then p.markRegion startFrame (endFrame - startFrame) false else p
    else p
  else p

/-- Everything marked used. -/
def taken : Pmm := ⟨fun _ => 0xFF, 0, 0, fun _ => 0, 0⟩

/-- What the bootloader vouched for. -/
def freeAvailable (mbi : Multiboot) : Pmm :=
  match mbi.mmap with
  | some entries => entries.foldl freeEntry taken
  | none =>
    (taken.markRegion 0 (wrap (mbi.memLower * 1024) / PMM_FRAME_SIZE) false).markRegion
      (0x100000 / PMM_FRAME_SIZE) (wrap (mbi.memUpper * 1024) / PMM_FRAME_SIZE) false

def pmmInit (mbi : Multiboot) (kernelStart kernelEnd : Nat) : Pmm :=
  let p := freeAvailable mbi
  let p := p.markRegion 0 (0x100000 / PMM_FRAME_SIZE) true
  let kstartFrame := kernelStart / PMM_FRAME_SIZE
  let kendFrame := wrap (kernelEnd + PMM_FRAME_SIZE - 1) / PMM_FRAME_SIZE
  p.markRegion kstartFrame (wrap (kendFrame + 0x100000000 - kstartFrame)) true

def pmmReserveRegion (p : Pmm) (startAddr endAddr : Nat) : Pmm :=
  let startFrame := startAddr / PMM_FRAME_SIZE
  let endFrame := wrap (endAddr + PMM_FRAME_SIZE - 1) / PMM_FRAME_SIZE
  if endFrame > startFrame then p.markRegion startFrame (endFrame - startFrame) true else p

/-! ## Allocating -/

/-- The loop of `pmm_alloc_frame`: a byte with every frame taken is passed in
one test. -/
def scan (p : Pmm) : Nat → Nat → Option Nat
  | 0, _ => none
  | n + 1, frame =>
    if frame ≤ p.highestFrame then
      if frame % 8 = 0 ∧ p.frameBitmap (frame / 8) = 0xFF then p.scan n (frame + 8)
      else if !p.bitmapTest frame then some frame
      else p.scan n (frame + 1)
    else none

def pmmAllocFrame (p : Pmm) : Nat × Pmm :=
  match p.scan (p.highestFrame + 1) p.searchFrom with
  | some frame => (frame * PMM_FRAME_SIZE, { p.bitmapSet frame with searchFrom := frame + 1 })
  | none => (0, { p with searchFrom := p.highestFrame + 1 })

/-- The inner loop of `pmm_alloc_contiguous`: how many frames from `frame` on
are free, as far as `count`. -/
def freeRun (p : Pmm) (frame : Nat) : Nat → Nat
  | 0 => 0
  | count + 1 => if p.bitmapTest frame then 0 else p.freeRun (frame + 1) count + 1

/-- The outer loop. It goes on behind the frame that was taken. -/
def findRun (p : Pmm) (count : Nat) : Nat → Nat → Option Nat
  | 0, _ => none
  | n + 1, start =>
    if wrap (start + count) ≤ p.highestFrame + 1 then
      let i := p.freeRun start count
      if i < count then p.findRun count n (start + i + 1) else some start
    else none

/-- The loop that takes the run. -/
def takeRun (p : Pmm) (frame : Nat) : Nat → Pmm
  | 0 => p
  | count + 1 => (p.bitmapSet frame).takeRun (frame + 1) count

def pmmAllocContiguous (p : Pmm) (count : Nat) : Nat × Pmm :=
  if count = 0 then (0, p)
  else if count = 1 then p.pmmAllocFrame
  else
    match p.findRun count (p.highestFrame + 2) 0 with
    | some start => (start * PMM_FRAME_SIZE, p.takeRun start count)
    | none => (0, p)

/-! ## Owners -/

/-- `pmm_frame_share`: one more owner, or 0 and nothing. -/
def pmmFrameShare (p : Pmm) (physAddr : Nat) : Nat × Pmm :=
  let frame := physAddr / PMM_FRAME_SIZE
  if PMM_SHARE_FRAMES ≤ frame ∨ p.frameRefs frame = 0xFF then (0, p)
  else if !p.bitmapTest frame then (0, p)
  else (1, { p with frameRefs := Function.update p.frameRefs frame (p.frameRefs frame + 1) })

def pmmFreeFrame (p : Pmm) (physAddr : Nat) : Pmm :=
  let frame := physAddr / PMM_FRAME_SIZE
  if frame < MAX_FRAMES then
    if !p.bitmapTest frame then { p with doubleFrees := p.doubleFrees + 1 }
    else if frame < PMM_SHARE_FRAMES ∧ p.frameRefs frame ≠ 0 then
      { p with frameRefs := Function.update p.frameRefs frame (p.frameRefs frame - 1) }
    else { p.bitmapClear frame with searchFrom := if frame < p.searchFrom then frame else p.searchFrom }
  else p

def pmmFreeContiguous (p : Pmm) (physAddr : Nat) : Nat → Pmm
  | 0 => p
  | count + 1 => (p.pmmFreeFrame physAddr).pmmFreeContiguous (wrap (physAddr + PMM_FRAME_SIZE)) count

end Pmm

end NovarisOS.Pmm32
