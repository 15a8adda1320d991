/-
NovarisOS.Loader64.Elf — `kernel/elf64.c`, the loader of 64-bit ELF images.

All sums are of 64 bits and wrap. A read past the end of the file is a fault,
and so is a byte written or a page mapped at an address that is not in the
user half. Memory is what the space shows at each address, `present` the
pages that `paging64_translate` finds, `writable` those whose entry has
PAGE64_WRITE; what the physical allocator and `paging64_map` answer is a
parameter.
-/
import NovarisOS.Lib.Checked
import NovarisOS.Page

namespace NovarisOS.Loader64

open Checked


/-- A value of `uint64_t`. -/
@[irreducible] def u64 (n : Nat) : Nat := n % 0x10000000000000000

/-- `x & ~(PAGE64_SIZE - 1)`. -/
def pageOf (x : Nat) : Nat := x / PAGE64_SIZE * PAGE64_SIZE

/-- A file whose size is a `uint64_t`. -/
structure File64 extends File where
  size_lt : size < 0x10000000000000000

/-- What is asked of the memory manager: the frame that each call of
`pmm64_alloc_high` returns, and whether a page can be mapped. -/
structure Kernel where
  frame : Nat → Nat
  mapOk : Nat → Bool

/-- The address space, and how many frames were asked for. -/
structure Space where
  mem : Mem
  present : Nat → Bool
  writable : Nat → Bool
  asked : Nat

namespace Space

/-- `paging64_map` of the page `va` is in, with PAGE64_WRITE or without. -/
def map (s : Space) (va : Nat) (write : Bool) : Except Stop Space :=
  if va < USPACE64_LIMIT then
    .ok { s with
      present := Function.update s.present (va / PAGE64_SIZE) true
      writable := Function.update s.writable (va / PAGE64_SIZE) write }
  else .error .fault

/-- `kmemset` of `n` bytes to zero. -/
def clear (s : Space) (va n : Nat) : Except Stop Space :=
  if va + n ≤ USPACE64_LIMIT then .ok { s with mem := s.mem.fillAt va 0 n } else .error .fault

/-- `kmemcpy` of `n` bytes of the file. -/
def copyIn (s : Space) (va : Nat) (f : File) (off n : Nat) : Except Stop Space :=
  if off + n ≤ f.size ∧ va + n ≤ USPACE64_LIMIT then
    .ok { s with mem := s.mem.copyAt va (f.image.shift off) n }
  else .error .fault

end Space

namespace Elf

abbrev EHDR_BYTES : Nat := 64
abbrev PT_LOAD : Nat := 1
abbrev PT_INTERP : Nat := 3
abbrev PF_W : Nat := 2
abbrev EM_X86_64 : Nat := 62
abbrev ET_EXEC : Nat := 2
abbrev ET_DYN : Nat := 3

/-- What `elf64_load_at` returns. -/
inductive Result where
  | ok
  | notElf
  | wrongClass
  | wrongMachine
  | notExec
  | truncated
  | nomem
  | mapFailed
  deriving DecidableEq, Repr

/-- `elf64_info_t`. -/
structure Info where
  entry : Nat
  phdrVa : Nat
  phent : Nat
  phnum : Nat
  brkStart : Nat
  base : Nat
  isDyn : Bool
  hasInterp : Bool

/-- The fields of the file header that are used after the checks. -/
structure Header where
  type : Nat
  entry : Nat
  phoff : Nat
  phentsize : Nat
  phnum : Nat

/-- Where the program header `i` is, from the beginning of the file. -/
def Header.phdr (h : Header) (i : Nat) : Nat := u64 (h.phoff + i * h.phentsize)

/-- A segment to be loaded; `vaddr` is its address with the bias. -/
structure Segment where
  writable : Bool
  offset : Nat
  vaddr : Nat
  filesz : Nat
  memsz : Nat

/-! ## Segments -/

namespace Segment

def start (g : Segment) : Nat := pageOf g.vaddr

def stop (g : Segment) : Nat := pageOf (u64 (g.vaddr + g.memsz + PAGE64_SIZE - 1))

/-- How many pages the loop over them has; none if `stop` is not past
`start`. -/
def pages (g : Segment) : Nat := (g.stop - g.start) / PAGE64_SIZE

/-- The address behind the last byte that comes from the file. -/
def fileEnd (g : Segment) : Nat := u64 (g.vaddr + g.filesz)

end Segment

/-- The part of a page that the file has bytes for is copied. -/
def copyPage (f : File) (g : Segment) (va : Nat) (s : Space) : Except Stop Space :=
  let copyFrom := max va g.vaddr
  let copyTo := min (u64 (va + PAGE64_SIZE)) g.fileEnd
  if copyTo > copyFrom then s.copyIn copyFrom f (u64 (g.offset + (copyFrom - g.vaddr))) (copyTo - copyFrom)
  else .ok s

/-- The page that is there already: a segment that may be written maps it
once more. -/
def sharePage (g : Segment) (va : Nat) (s : Space) : Except Stop Space :=
  if g.writable then s.map va true else .ok s

/-- One page of a segment. -/
def loadPage (k : Kernel) (f : File) (g : Segment) (va : Nat) (s : Space) : Except Stop (Result × Space) :=
  if s.present (va / PAGE64_SIZE) then do
    let s ← sharePage g va s
    let s ← copyPage f g va s
    .ok (.ok, s)
  else
    let frame := k.frame s.asked
    let s := { s with asked := s.asked + 1 }
    if frame = 0 then .ok (.nomem, s)
    else if !k.mapOk (va / PAGE64_SIZE) then .ok (.mapFailed, s)
    else do
      let s ← s.map va g.writable
      let s ← s.clear va PAGE64_SIZE
      let s ← copyPage f g va s
      .ok (.ok, s)

/-- The loop over the pages from `va` on, with `n` to go. -/
def loadPages (k : Kernel) (f : File) (g : Segment) : (n va : Nat) → Space → Except Stop (Result × Space)
  | 0, _, s => .ok (.ok, s)
  | n + 1, va, s => do
    let (r, s) ← loadPage k f g va s
    if r ≠ .ok then .ok (r, s) else loadPages k f g n (va + PAGE64_SIZE) s

/-! ## Headers -/

/-- The file is an ELF image that can be loaded, or the reason why not. -/
def checkHeader (f : File) : Except Stop (Result × Option Header) :=
  if f.size < EHDR_BYTES then .ok (.truncated, none)
  else do
    let ident ← f.get32 0
    -- 0x7F 'E' 'L' 'F'
    if ident ≠ 0x464C457F then .ok (.notElf, none)
    else do
      let cls ← f.get8 4
      let data ← f.get8 5
      if cls ≠ 2 ∨ data ≠ 1 then .ok (.wrongClass, none)
      else do
        let machine ← f.get16 18
        let type ← f.get16 16
        if machine ≠ EM_X86_64 then .ok (.wrongMachine, none)
        else if type ≠ ET_EXEC ∧ type ≠ ET_DYN then .ok (.notExec, none)
        else do
          let entry ← f.get64 24
          let phoff ← f.get64 32
          let phentsize ← f.get16 54
          let phnum ← f.get16 56
          if u64 (phoff + phnum * phentsize) > f.size then .ok (.truncated, none)
          else .ok (.ok, some ⟨type, entry, phoff, phentsize, phnum⟩)

/-- The segment of the program header at `off`. -/
def segmentAt (f : File) (off bias memsz : Nat) : Except Stop Segment := do
  let flags ← f.get32 (off + 4)
  let offset ← f.get64 (off + 8)
  let vaddr ← f.get64 (off + 16)
  let filesz ← f.get64 (off + 32)
  .ok ⟨flags &&& PF_W ≠ 0, offset, u64 (vaddr + bias), filesz, memsz⟩

/-- What the loop over the program headers has found: `phdr_va` and
`brk_start`. -/
structure Found where
  phdrVa : Nat
  brkStart : Nat

def Found.add (x : Found) (h : Header) (g : Segment) : Found where
  phdrVa :=
    if x.phdrVa = 0 ∧ g.offset ≤ h.phoff ∧ h.phoff < u64 (g.offset + g.filesz) then
      u64 (g.vaddr + (h.phoff - g.offset))
    else x.phdrVa
  brkStart := max x.brkStart (u64 (g.vaddr + g.memsz))

/-- The loop over the program headers from `i` on, with `n` to go. -/
def loadHeaders (k : Kernel) (f : File) (h : Header) (bias : Nat) :
    (n i : Nat) → Found → Space → Except Stop (Result × Found × Space)
  | 0, _, x, s => .ok (.ok, x, s)
  | n + 1, i, x, s => do
    let type ← f.get32 (h.phdr i)
    if type ≠ PT_LOAD then loadHeaders k f h bias n (i + 1) x s
    else do
      let memsz ← f.get64 (h.phdr i + 40)
      if memsz = 0 then loadHeaders k f h bias n (i + 1) x s
      else do
        let g ← segmentAt f (h.phdr i) bias memsz
        if u64 (g.offset + g.filesz) > f.size ∨ g.filesz > g.memsz then .ok (.truncated, x, s)
        else do
          let (r, s) ← loadPages k f g g.pages g.start s
          if r ≠ .ok then .ok (r, x.add h g, s) else loadHeaders k f h bias n (i + 1) (x.add h g) s

/-- The loop of `elf64_interp` from `i` on, with `n` to go: what is left in a
buffer of `room` bytes. -/
def interpFrom (f : File) (h : Header) (room : Nat) : (n i : Nat) → Except Stop (Option (List UInt8))
  | 0, _ => .ok none
  | n + 1, i => do
    let type ← f.get32 (h.phdr i)
    if type ≠ PT_INTERP then interpFrom f h room n (i + 1)
    else do
      let offset ← f.get64 (h.phdr i + 8)
      let filesz ← f.get64 (h.phdr i + 32)
      if u64 (offset + filesz) > f.size then .ok none
      else if filesz = 0 ∨ filesz > room then .ok none
      else if offset + filesz ≤ f.size then .ok (some (f.image.bytes offset (filesz - 1) ++ [0]))
      else .error .fault

def elf64Interp (f : File) (room : Nat) : Except Stop (Option (List UInt8)) :=
  if f.size < EHDR_BYTES then .ok none
  else do
    let ident ← f.get16 0
    -- 0x7F 'E'
    if ident ≠ 0x457F then .ok none
    else do
      let phoff ← f.get64 32
      let phentsize ← f.get16 54
      let phnum ← f.get16 56
      interpFrom f ⟨0, 0, phoff, phentsize, phnum⟩ room phnum 0

def elf64LoadAt (k : Kernel) (f : File) (bias : Nat) (out : Bool) (s : Space) :
    Except Stop (Result × Option Info × Space) := do
  match ← checkHeader f with
  | (r, none) => .ok (r, none, s)
  | (_, some h) => do
    let (r, x, s) ← loadHeaders k f h bias h.phnum 0 ⟨0, 0⟩ s
    if r = .ok ∧ out then do
      let interp ← elf64Interp f 128
      .ok (r, some ⟨u64 (h.entry + bias), x.phdrVa, h.phentsize, h.phnum,
        pageOf (u64 (x.brkStart + PAGE64_SIZE - 1)), bias, h.type = ET_DYN, interp.isSome⟩, s)
    else .ok (r, none, s)

end Elf

end NovarisOS.Loader64
