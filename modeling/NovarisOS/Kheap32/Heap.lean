/-
NovarisOS.Kheap32.Heap — the 32-bit kernel's heap, as kheap.c has it.

The heap is one run of pages from `HEAP_START` to `heap_end`, with a header of
twelve bytes in front of each block. Memory is bytes, so a header is where a
client could write, and every sum of sizes and addresses is taken in 32 bits.
-/
import NovarisOS.Lib.BlockList
import NovarisOS.Lib.Bytes
import NovarisOS.Page

namespace NovarisOS.Kheap32

open Mem BlockList

abbrev HEAP_START : Nat := 0xD0000000
abbrev HEAP_INITIAL_SIZE : Nat := 16 * 4096
abbrev HEAP_MAX_SIZE : Nat := 192 * 1024 * 1024

/-- The values of a `uint32_t`. -/
abbrev WORD : Nat := 4294967296

/-- `(size + 3u) & ~3u`. -/
def align4 (size : Nat) : Nat := (size + 3) % WORD / 4 * 4

/-- One byte is written. -/
def setByte (m : Mem) (a : Nat) (v : UInt8) : Mem := fun i => if i = a then v else m i

/-- `block_header_t`: `size`, `used` in one byte, three bytes of padding, `next`. -/
def block_header : HeaderFormat where
  length := 12
  limit := WORD
  read m a := ⟨rd32 m a, (m (a + 4)).toNat, rd32 m (a + 8)⟩
  write m a h := wr32 (setByte (wr32 m a h.size) (a + 4) (UInt8.ofNat h.used)) (a + 8) h.next
  pos := by decide
  read_write m a h hsize hused hnext := by
    have hrd : ∀ x : Mem, rd32 (wr32 x (a + 8) h.next) a = rd32 x a := fun x => rd32_wr32_of_disjoint (by omega)
    have hset : rd32 (setByte (wr32 m a h.size) (a + 4) (UInt8.ofNat h.used)) a = rd32 (wr32 m a h.size) a :=
      rd32_congr fun i _ hi => if_neg (by omega)
    have hbyte : wr32 (setByte (wr32 m a h.size) (a + 4) (UInt8.ofNat h.used)) (a + 8) h.next
        (a + 4) = UInt8.ofNat h.used := by
      rw [wr32_outside (by omega)]
      exact if_pos rfl
    rw [hrd, hset, rd32_wr32, rd32_wr32, hbyte, Nat.mod_eq_of_lt hsize, Nat.mod_eq_of_lt hnext, UInt8.toNat_ofNat',
      Nat.mod_eq_of_lt (by omega)]
  read_congr m m' a h := by
    rw [rd32_congr fun i hlo hi => h i hlo (by omega), rd32_congr fun i hlo hi => h i (by omega) (by omega),
      h (a + 4) (by omega) (by omega)]
  write_outside m a h i hi := by
    rw [wr32_outside (by omega), setByte, if_neg (by omega), wr32_outside (by omega)]

/-- `sizeof(block_header_t)`. -/
abbrev HEADER_SIZE : Nat := 12

/-- The heap: its memory, `heap_end`, and `heap_head` with 0 for none. -/
structure Kheap where
  mem : Mem
  heap_end : Nat
  heap_head : Nat

/-- `heap_expand`, with `frames` frames to be had: where the heap ends now. -/
def heap_expand (new_end : Nat) : Nat → Nat → Nat
  | 0, heap_end => heap_end
  | frames + 1, heap_end =>
    if heap_end < new_end then heap_expand new_end frames ((heap_end + PAGE_SIZE) % WORD) else heap_end

def kheap_init (frames : Nat) (h : Kheap) : Kheap :=
  { mem := block_header.write h.mem HEAP_START ⟨HEAP_INITIAL_SIZE - HEADER_SIZE, 0, 0⟩
    heap_end := heap_expand (HEAP_START + HEAP_INITIAL_SIZE) frames h.heap_end
    heap_head := HEAP_START }

/-- A block at `a`, linked in behind the last one. -/
def Kheap.link (h : Kheap) (a size used : Nat) : Kheap :=
  let r := block_header.append h.mem WORD h.heap_head a ⟨size, used, 0⟩
  { h with mem := r.1, heap_head := r.2 }

/-- The end of `kmalloc`: the heap grows by what a block of `size` bytes needs. -/
def kmalloc_grow (frames size : Nat) (h : Kheap) : Kheap × Nat :=
  let needed := (size + HEADER_SIZE) % WORD
  let grow_to := (h.heap_end + needed) % WORD
  if HEAP_START + HEAP_MAX_SIZE < grow_to then (h, 0)
  else
    let old_end := h.heap_end
    let aligned_grow_to := (grow_to + (PAGE_SIZE - 1)) % WORD / PAGE_SIZE * PAGE_SIZE
    let h := { h with heap_end := heap_expand aligned_grow_to frames old_end }
    let got := (h.heap_end + WORD - old_end) % WORD
    if got < needed then
      if (old_end + HEADER_SIZE) % WORD < h.heap_end then (h.link old_end (got - HEADER_SIZE) 0, 0)
      else (h, 0)
    else (h.link old_end ((got + WORD - HEADER_SIZE) % WORD) 1, (old_end + HEADER_SIZE) % WORD)

def kmalloc (frames size : Nat) (h : Kheap) : Kheap × Nat :=
  if size = 0 then (h, 0)
  else
    match block_header.search h.mem (align4 size) WORD h.heap_head with
    | some block => ({ h with mem := block_header.carve 4 h.mem block (align4 size) }, (block + HEADER_SIZE) % WORD)
    | none => kmalloc_grow frames (align4 size) h

def kfree (ptr : Nat) (h : Kheap) : Kheap :=
  if ptr = 0 then h
  else { h with mem := block_header.release h.mem WORD h.heap_head ((ptr + WORD - HEADER_SIZE) % WORD) }

/-! ## The heap and who uses it -/

/-- What `kmalloc` handed out: where it starts, and how many bytes were asked for. -/
structure Held where
  ptr : Nat
  size : Nat
  deriving DecidableEq

/-- What a client does. -/
inductive Act
  | kmalloc (frames size : Nat)
  | kfree (ptr : Nat)
  | store (held : Held) (off : Nat) (v : UInt8)

/-- The heap and what is outstanding of it. -/
structure Clients where
  heap : Kheap
  held : List Held

def Clients.step (s : Clients) : Act → Clients
  | .kmalloc frames size =>
    let r := Kheap32.kmalloc frames size s.heap
    ⟨r.1, if r.2 = 0 then s.held else ⟨r.2, size⟩ :: s.held⟩
  | .kfree ptr => ⟨Kheap32.kfree ptr s.heap, s.held.eraseP (·.ptr = ptr)⟩
  | .store held off v => { s with heap.mem := setByte s.heap.mem (held.ptr + off) v }

end NovarisOS.Kheap32
