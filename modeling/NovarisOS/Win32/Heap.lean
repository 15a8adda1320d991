/-
NovarisOS.Win32.Heap — the heap a Win32 program sees, as win32.c has it.

The arena runs from `WIN32_HEAP_BASE` to `heap_mapped_end` and only grows.
Most of it is blocks with a header of three words in front, in a list from
`heap_head`; `w32_mem_alloc_pages` takes whole pages off the top that are in
no block, and growth that runs out of frames part way leaves pages in no block
either.
-/
import NovarisOS.Lib.BlockList
import NovarisOS.Lib.Bytes
import NovarisOS.Page

namespace NovarisOS.Win32

open Mem BlockList

abbrev WIN32_HEAP_BASE : Nat := 0x60000000
abbrev WIN32_HEAP_SIZE : Nat := 0x08000000

/-- The values of a `uint32_t`. -/
abbrev WORD : Nat := 4294967296

theorem header_pos : 0 < 12 := by decide

theorem read_write_header (m : Mem) (a : Nat) (h : Header) (hsize : h.size < WORD) (hused : h.used < 2)
    (hnext : h.next < WORD) :
    let m' := wr32 (wr32 (wr32 m a h.size) (a + 4) h.used) (a + 8) h.next
    (⟨rd32 m' a, rd32 m' (a + 4), rd32 m' (a + 8)⟩ : Header) = h := by
  dsimp only
  rw [rd32_wr32, rd32_wr32_of_disjoint (by omega), rd32_wr32_of_disjoint (by omega), rd32_wr32,
    rd32_wr32_of_disjoint (by omega), rd32_wr32, Nat.mod_eq_of_lt hsize, Nat.mod_eq_of_lt hnext,
      Nat.mod_eq_of_lt (by omega)]

theorem read_header_congr (m m' : Mem) (a : Nat) (h : ∀ i, a ≤ i → i < a + 12 → m' i = m i) :
    (⟨rd32 m' a, rd32 m' (a + 4), rd32 m' (a + 8)⟩ : Header) = ⟨rd32 m a, rd32 m (a + 4), rd32 m (a + 8)⟩ := by
  rw [rd32_congr fun i hlo hi => h i hlo (by omega), rd32_congr fun i hlo hi => h i (by omega) (by omega),
    rd32_congr fun i hlo hi => h i (by omega) (by omega)]

theorem write_header_outside (m : Mem) (a : Nat) (h : Header) (i : Nat) (hi : i < a ∨ a + 12 ≤ i) :
    wr32 (wr32 (wr32 m a h.size) (a + 4) h.used) (a + 8) h.next i = m i := by
  rw [wr32_outside (by omega), wr32_outside (by omega), wr32_outside (by omega)]

/-- `w32_block_t`: `size`, `used` and `next`. -/
def w32_block : HeaderFormat where
  length := 12
  limit := WORD
  read m a := ⟨rd32 m a, rd32 m (a + 4), rd32 m (a + 8)⟩
  write m a h := wr32 (wr32 (wr32 m a h.size) (a + 4) h.used) (a + 8) h.next
  pos := header_pos
  read_write := read_write_header
  read_congr := read_header_congr
  write_outside := write_header_outside

/-- `sizeof(w32_block_t)`. -/
abbrev HEADER_SIZE : Nat := 12

/-- The arena: its memory, `heap_head` with 0 for none, and `heap_mapped_end`. -/
structure Arena where
  mem : Mem
  heap_head : Nat
  heap_mapped_end : Nat

/-- `(end + PAGE_SIZE - 1) & ~(PAGE_SIZE - 1)`. -/
def pageUp (n : Nat) : Nat := (n + (PAGE_SIZE - 1)) % WORD / PAGE_SIZE * PAGE_SIZE

/-- The loop of `arena_grow`: zeroed pages up to `want_end`, and whether there
were enough of them. -/
def arena_map (want_end : Nat) : Nat → Arena → Arena × Bool
  | 0, h => (h, decide (want_end ≤ h.heap_mapped_end))
  | frames + 1, h =>
    if h.heap_mapped_end < want_end then
      arena_map want_end frames { h with
        mem := fillAt h.mem h.heap_mapped_end 0 PAGE_SIZE
        heap_mapped_end := (h.heap_mapped_end + PAGE_SIZE) % WORD }
    else (h, true)

def arena_grow (want_end limit frames : Nat) (h : Arena) : Arena × Bool :=
  if limit < want_end then (h, false) else arena_map want_end frames h

def heap_grow (want_end frames : Nat) (h : Arena) : Arena × Bool :=
  arena_grow (pageUp want_end) (WIN32_HEAP_BASE + WIN32_HEAP_SIZE) frames h

/-- A used block at `a`, linked in behind the last one. -/
def Arena.link (h : Arena) (a size : Nat) : Arena :=
  let r := w32_block.append h.mem WORD h.heap_head a ⟨size, 1, 0⟩
  { h with mem := r.1, heap_head := r.2 }

def heap_new_block (frames size : Nat) (h : Arena) : Arena × Nat :=
  let addr := h.heap_mapped_end
  let need := (size + HEADER_SIZE) % WORD
  let r := heap_grow ((addr + need) % WORD) frames h
  if r.2 then
    (r.1.link addr ((r.1.heap_mapped_end + 2 * WORD - addr - HEADER_SIZE) % WORD), (addr + HEADER_SIZE) % WORD)
  else (r.1, 0)

/-- `size` as `w32_mem_alloc` rounds it. -/
def roundSize (size : Nat) : Nat := ((if size = 0 then 1 else size) + 7) % WORD / 8 * 8

def w32_mem_alloc (frames size : Nat) (h : Arena) : Arena × Nat :=
  match w32_block.search h.mem (roundSize size) WORD h.heap_head with
  | some cur => ({ h with mem := w32_block.carve 16 h.mem cur (roundSize size) }, (cur + HEADER_SIZE) % WORD)
  | none => heap_new_block frames (roundSize size) h

def w32_mem_alloc_zeroed (frames size : Nat) (h : Arena) : Arena × Nat :=
  let r := w32_mem_alloc frames size h
  if r.2 = 0 then r else ({ r.1 with mem := fillAt r.1.mem r.2 0 size }, r.2)

def crt_calloc (frames count size : Nat) (h : Arena) : Arena × Nat :=
  w32_mem_alloc_zeroed frames (count * size % WORD) h

/-- The header in front of an address. -/
def headerOf (addr : Nat) : Nat := (addr + WORD - HEADER_SIZE) % WORD

def w32_mem_size (addr : Nat) (h : Arena) : Nat :=
  if addr = 0 then 0 else (w32_block.read h.mem (headerOf addr)).size

def w32_mem_free (addr : Nat) (h : Arena) : Arena :=
  if addr = 0 then h
  else if addr < WIN32_HEAP_BASE ∨ h.heap_mapped_end ≤ addr then h
  else { h with mem := w32_block.release h.mem WORD h.heap_head (headerOf addr) }

def w32_mem_realloc (frames addr size : Nat) (h : Arena) : Arena × Nat :=
  if addr = 0 then w32_mem_alloc frames size h
  else if size = 0 then (w32_mem_free addr h, 0)
  else
    let old := w32_mem_size addr h
    if size ≤ old then (h, addr)
    else
      let r := w32_mem_alloc frames size h
      if r.2 = 0 then r
      else (w32_mem_free addr { r.1 with mem := copyAt r.1.mem r.2 (shift r.1.mem addr) old }, r.2)

/-- `size` as `w32_mem_alloc_pages` rounds it. -/
def roundPages (size : Nat) : Nat := if pageUp size = 0 then PAGE_SIZE else pageUp size

def w32_mem_alloc_pages (frames size : Nat) (h : Arena) : Arena × Nat :=
  let addr := pageUp h.heap_mapped_end
  let r := heap_grow ((addr + roundPages size) % WORD) frames h
  if r.2 then ({ r.1 with mem := fillAt r.1.mem addr 0 (roundPages size) }, addr) else (r.1, 0)

/-! ## The arena and its program -/

/-- What a call handed out: where it starts, how many bytes were asked for, and
whether it came from `w32_mem_alloc_pages`. -/
structure Held where
  ptr : Nat
  size : Nat
  pages : Bool
  deriving DecidableEq

/-- What a program does. -/
inductive Act
  | alloc (frames size : Nat)
  | allocZeroed (frames size : Nat)
  | calloc (frames count size : Nat)
  | realloc (frames addr size : Nat)
  | allocPages (frames size : Nat)
  | free (addr : Nat)
  | store (held : Held) (off : Nat) (v : UInt8)
  deriving DecidableEq

/-- The arena and what is outstanding of it. -/
structure Program where
  arena : Arena
  held : List Held

/-- A call's answer goes into the books, unless it is 0. -/
def Program.take (s : Program) (r : Arena × Nat) (size : Nat) (pages : Bool) : Program :=
  ⟨r.1, if r.2 = 0 then s.held else ⟨r.2, size, pages⟩ :: s.held⟩

/-- What is outstanding when `addr` is not any more. -/
def Program.without (s : Program) (addr : Nat) : List Held := s.held.eraseP (·.ptr = addr)

def Program.step (s : Program) : Act → Program
  | .alloc frames size => s.take (w32_mem_alloc frames size s.arena) size false
  | .allocZeroed frames size => s.take (w32_mem_alloc_zeroed frames size s.arena) size false
  | .calloc frames count size => s.take (crt_calloc frames count size s.arena) (count * size) false
  | .realloc frames addr size =>
    let r := w32_mem_realloc frames addr size s.arena
    if addr = 0 then s.take r size false
    else if size = 0 then ⟨r.1, s.without addr⟩
    else if r.2 = 0 then ⟨r.1, s.held⟩
    else ⟨r.1, ⟨r.2, size, false⟩ :: s.without addr⟩
  | .allocPages frames size => s.take (w32_mem_alloc_pages frames size s.arena) size true
  | .free addr => ⟨w32_mem_free addr s.arena, s.without addr⟩
  | .store held off v => { s with arena.mem := fillAt s.arena.mem (held.ptr + off) v 1 }

end NovarisOS.Win32
