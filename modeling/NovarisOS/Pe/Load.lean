/-
NovarisOS.Pe.Load — `pe_load` of `kernel/pe.c`.

Memory is what the running address space shows at each address. `pte` is the
entry of each page, zero where there is none, and `mapped` says which pages
were mapped for the image. A read or a write of the image outside of these
is a fault, as is a read of the file past its end.
-/
import NovarisOS.Pe.Inspect

namespace NovarisOS.Pe

open Function (update)
open Checked

abbrev PE_RELOC_ARENA_END : Nat := 0x38000000
abbrev PE_MIN_LOAD_ADDR : Nat := 0x00100000
abbrev PE_MAX_LOAD_ADDR : Nat := 0xC0000000
abbrev PAGE_PRESENT : Nat := 1
abbrev PAGE_RW : Nat := 2
abbrev PAGE_USER : Nat := 4
abbrev BASE_RELOC_BLOCK_BYTES : Nat := 8
abbrev TLS_DIRECTORY_BYTES : Nat := 24
abbrev IMAGE_REL_BASED_HIGH : Nat := 1
abbrev IMAGE_REL_BASED_LOW : Nat := 2
abbrev IMAGE_REL_BASED_HIGHLOW : Nat := 3
abbrev IMAGE_REL_BASED_HIGHADJ : Nat := 4

/-- `resolve_import` or `missing_import`: the number of the call, the memory,
and the three arguments. -/
abbrev Resolver := Nat → Mem → Nat → Option Nat → Nat → Nat

/-- `pe_loader_ops_t`. -/
structure Ops where
  resolveImport : Option Resolver
  missingImport : Option Resolver
  strict : Bool

/-- What the loader asks and does not change. -/
structure Kernel where
  reservations : List (Nat × Nat)
  pdeIsGlobal : Nat → Bool
  heap : Nat → Nat
  frame : Nat → Nat
  ops : Option Ops

/-- What the loader changes. `calls` is how many imports were asked for. -/
structure Machine where
  mem : Mem
  pte : Nat → Nat
  mapped : Nat → Bool
  relocArenaNext : Nat
  calls : Nat

/-- `pe_image_t`. -/
structure Image where
  base : Nat := 0
  size : Nat := 0
  entry : Nat := 0
  pages : Nat := 0
  relocDelta : Nat := 0
  savedPtes : Option (List Nat) := none
  unresolved : Nat := 0
  resolved : Nat := 0
  subsystem : Nat := 0
  stackReserve : Nat := 0
  tlsCallbacks : Nat := 0

/-! ## Access to the image -/

namespace Machine

/-- Each of the `n` bytes at `a` is in a page that was mapped for the image. -/
def Holds (m : Machine) (a n : Nat) : Prop := ∀ i < n, m.mapped ((a + i) / PAGE_SIZE) = true

instance (m : Machine) (a n : Nat) : Decidable (m.Holds a n) := by
  unfold Holds
  infer_instance

def get8 (m : Machine) (a : Nat) : Except Stop Nat :=
  if m.Holds a 1 then .ok (m.mem a).toNat else .error .fault

def get16 (m : Machine) (a : Nat) : Except Stop Nat :=
  if m.Holds a 2 then .ok (m.mem.rd16 a) else .error .fault

def get32 (m : Machine) (a : Nat) : Except Stop Nat :=
  if m.Holds a 4 then .ok (m.mem.rd32 a) else .error .fault

def set16 (m : Machine) (a v : Nat) : Except Stop Machine :=
  if m.Holds a 2 then .ok { m with mem := m.mem.wr16 a v } else .error .fault

def set32 (m : Machine) (a v : Nat) : Except Stop Machine :=
  if m.Holds a 4 then .ok { m with mem := m.mem.wr32 a v } else .error .fault

/-- `kmemset`. -/
def fill (m : Machine) (a : Nat) (b : UInt8) (n : Nat) : Except Stop Machine :=
  if m.Holds a n then .ok { m with mem := m.mem.fillAt a b n } else .error .fault

/-- `kmemcpy` from the file. -/
def copyIn (m : Machine) (a : Nat) (f : File) (off n : Nat) : Except Stop Machine :=
  if off + n ≤ f.size ∧ m.Holds a n then .ok { m with mem := m.mem.copyAt a (f.image.shift off) n }
  else .error .fault

end Machine

def imgPtr (img : Image) (rva need : Nat) : Option Nat :=
  if rva + need > img.size then none else some (u32 (img.base + rva))

/-- There is a zero among the `n` bytes of the image from `a` on. -/
def Machine.terminated (m : Machine) : (n a : Nat) → Except Stop Bool
  | 0, _ => .ok false
  | n + 1, a => do
    let c ← m.get8 a
    if c = 0 then .ok true else m.terminated n (a + 1)

def imgStr (img : Image) (m : Machine) (rva : Nat) : Except Stop (Option Nat) :=
  if rva ≥ img.size then .ok none
  else do
    let found ← m.terminated (img.size - rva) (u32 (img.base + rva))
    .ok (if found then some (u32 (img.base + rva)) else none)

/-! ## Where the image goes -/

/-- `paging_region_conflict` finds one. -/
def pagingRegionConflict (k : Kernel) (start stop : Nat) : Bool :=
  if stop ≤ start then false else k.reservations.any (fun r => start < r.2 ∧ r.1 < stop)

def pagingRangeIsPrivate (k : Kernel) (start stop : Nat) : Bool :=
  if stop ≤ start then true
  else
    let first := start / 0x400000
    let last := (stop - 1) / 0x400000
    (List.range' first (last + 1 - first)).all (fun i => !k.pdeIsGlobal i)

def regionIsAvailable (k : Kernel) (base bytes : Nat) : Bool :=
  if base < PE_MIN_LOAD_ADDR then false
  else if base + bytes > PE_MAX_LOAD_ADDR then false
  else if pagingRegionConflict k base (u32 (base + bytes)) then false
  else pagingRangeIsPrivate k base (u32 (base + bytes))

def chooseBase (k : Kernel) (m : Machine) (info : Info) (bytes : Nat) : Nat × Machine :=
  if info.imageBase ≠ 0 ∧ regionIsAvailable k info.imageBase bytes then (info.imageBase, m)
  else if !info.hasRelocs then (0, m)
  else
    let candidate := u32 (m.relocArenaNext + 0xFFFF) / 0x10000 * 0x10000
    if candidate + bytes > PE_RELOC_ARENA_END then (0, m)
    else if !regionIsAvailable k candidate bytes then (0, m)
    else (candidate, { m with relocArenaNext := u32 (candidate + bytes) })

/-! ## Pages -/

namespace Machine

/-- `paging_map_page` for the image. -/
def mapPage (m : Machine) (va phys flags : Nat) : Machine :=
  { m with
    pte := update m.pte (va / PAGE_SIZE) (phys / PAGE_SIZE * PAGE_SIZE ||| flags % PAGE_SIZE ||| PAGE_PRESENT)
    mapped := update m.mapped (va / PAGE_SIZE) true }

/-- `paging_unmap_page`; the page is no longer one of the image. -/
def unmapPage (m : Machine) (va : Nat) : Machine :=
  { m with
    pte := update m.pte (va / PAGE_SIZE) 0
    mapped := update m.mapped (va / PAGE_SIZE) false }

/-- `paging_set_entry` of an entry that was saved. -/
def setEntry (m : Machine) (va entry : Nat) : Machine :=
  if entry &&& PAGE_PRESENT = 0 then m.unmapPage va
  else { m with pte := update m.pte (va / PAGE_SIZE) (entry ||| PAGE_PRESENT) }

end Machine

/-- `unmap_range`, for the pages below `upto`. -/
def unmapRange (img : Image) (m : Machine) : (upto : Nat) → Machine
  | 0 => m
  | upto + 1 =>
    let m := unmapRange img m upto
    let va := u32 (img.base + upto * PAGE_SIZE)
    let m := m.unmapPage va
    match img.savedPtes with
    | none => m
    | some saved => m.setEntry va (saved.getD upto 0)

/-- The loop of `pe_load` that maps the pages from `i` on, with `n` to go. The
second value says whether all of them were mapped. -/
def mapPages (k : Kernel) : (n i : Nat) → Image → Machine → Bool × Image × Machine
  | 0, _, img, m => (true, img, m)
  | n + 1, i, img, m =>
    let va := u32 (img.base + i * PAGE_SIZE)
    let img := { img with savedPtes := img.savedPtes.map (· ++ [m.pte (va / PAGE_SIZE)]) }
    if k.frame i = 0 then (false, { img with savedPtes := none }, unmapRange img m i)
    else
      mapPages k n (i + 1) { img with pages := i + 1 }
        (m.mapPage va (k.frame i) (PAGE_PRESENT ||| PAGE_RW ||| PAGE_USER))

def peUnload (img : Image) (m : Machine) : Image × Machine :=
  let m := if img.pages > 0 then unmapRange img m img.pages else m
  ({ img with savedPtes := none, pages := 0, base := 0, entry := 0 }, m)

/-! ## Relocations -/

/-- One entry of a block: the index of the next, and what it has changed. -/
def relocEntry (img : Image) (blk ent entries i : Nat) (m : Machine) : Except Stop (Nat × Machine) := do
  let e ← m.get16 (ent + 2 * i)
  let virtualAddress ← m.get32 blk
  let rva := u32 (virtualAddress + e % 0x1000)
  if e / 0x1000 = IMAGE_REL_BASED_HIGHLOW then
    match imgPtr img rva 4 with
    | none => .ok (i + 1, m)
    | some p => do
      let v ← m.get32 p
      let m ← m.set32 p (u32 (v + img.relocDelta))
      .ok (i + 1, m)
  else if e / 0x1000 = IMAGE_REL_BASED_HIGH then
    match imgPtr img rva 2 with
    | none => .ok (i + 1, m)
    | some p => do
      let v ← m.get16 p
      let m ← m.set16 p ((v + img.relocDelta / 0x10000) % 0x10000)
      .ok (i + 1, m)
  else if e / 0x1000 = IMAGE_REL_BASED_LOW then
    match imgPtr img rva 2 with
    | none => .ok (i + 1, m)
    | some p => do
      let v ← m.get16 p
      let m ← m.set16 p ((v + img.relocDelta % 0x10000) % 0x10000)
      .ok (i + 1, m)
  else if e / 0x1000 = IMAGE_REL_BASED_HIGHADJ then
    -- The next entry is the low half of what is moved.
    if i + 1 ≥ entries then .ok (i + 1, m)
    else
      match imgPtr img rva 2 with
      | none => .ok (i + 2, m)
      | some p => do
        let hi ← m.get16 p
        let lo ← m.get16 (ent + 2 * (i + 1))
        let v := u32 (hi * 0x10000 + lo + img.relocDelta)
        let m ← m.set16 p (u32 (v + 0x8000) / 0x10000)
        .ok (i + 2, m)
  else .ok (i + 1, m)

/-- The entries of a block from `i` on; `n` is at least as many as there are
to go. -/
def relocEntries (img : Image) (blk ent entries : Nat) : (n i : Nat) → Machine → Except Stop Machine
  | 0, _, m => .ok m
  | n + 1, i, m =>
    if i ≥ entries then .ok m
    else do
      let (i, m) ← relocEntry img blk ent entries i m
      relocEntries img blk ent entries n i m

/-- The loop of `apply_relocations` over the blocks. -/
def relocBlocks (img : Image) (stop : Nat) : (fuel pos : Nat) → Machine → Except Stop Machine
  | 0, _, _ => .error .fuel
  | fuel + 1, pos, m =>
    if pos + BASE_RELOC_BLOCK_BYTES ≤ stop then
      match imgPtr img pos BASE_RELOC_BLOCK_BYTES with
      | none => .ok m
      | some blk => do
        let sizeOfBlock ← m.get32 (blk + 4)
        if sizeOfBlock ≤ BASE_RELOC_BLOCK_BYTES then .ok m
        else
          let entries := (sizeOfBlock - BASE_RELOC_BLOCK_BYTES) / 2
          match imgPtr img (u32 (pos + BASE_RELOC_BLOCK_BYTES)) (entries * 2) with
          | none => .ok m
          | some ent => do
            let m ← relocEntries img blk ent entries entries 0 m
            let sizeOfBlock ← m.get32 (blk + 4)
            relocBlocks img stop fuel (u32 (pos + sizeOfBlock)) m
    else .ok m

def applyRelocations (f : File) (fuel opt : Nat) (img : Image) (m : Machine) :
    Except Stop (LoadResult × Machine) :=
  if img.relocDelta = 0 then .ok (.ok, m)
  else do
    match ← peDir f opt IMAGE_DIRECTORY_ENTRY_BASERELOC with
    | none => .ok (.noAddressSpace, m)
    | some (pos, size) => do
      let m ← relocBlocks img (min (pos + size) img.size) fuel pos m
      .ok (.ok, m)

/-! ## Imports -/

/-- The address for an import, and the image with it counted; or what
`bind_imports` returns. -/
def resolve (k : Kernel) (img : Image) (m : Machine) (dll : Nat) (fname : Option Nat) (ordinal : Nat) :
    Except LoadResult (Nat × Image) :=
  let addr := (k.ops.bind (·.resolveImport)).elim 0 (fun r => r m.calls m.mem dll fname ordinal)
  if addr ≠ 0 then .ok (addr, { img with resolved := u32 (img.resolved + 1) })
  else if (k.ops.map (·.strict)).getD false then .error .missingImports
  else
    .ok ((k.ops.bind (·.missingImport)).elim 0 (fun r => r m.calls m.mem dll fname ordinal),
      { img with unresolved := u32 (img.unresolved + 1) })

/-- The name that `entry` asks for, after a hint of two bytes; one that asks by
number has none. -/
def importName (img : Image) (m : Machine) (entry : Nat) : Except Stop (Option Nat) :=
  if entry &&& IMAGE_ORDINAL_FLAG32 ≠ 0 then .ok none else imgStr img m (u32 (entry + 2))

/-- The inner loop of `bind_imports`; `d` is where the descriptor is. -/
def bindThunks (k : Kernel) (d dll nameRva : Nat) :
    (fuel j : Nat) → Image → Machine → Except Stop (LoadResult × Image × Machine)
  | 0, _, _, _ => .error .fuel
  | fuel + 1, j, img, m => do
    let firstThunk ← m.get32 (d + 16)
    match imgPtr img (u32 (nameRva + j * 4)) 4, imgPtr img (u32 (firstThunk + j * 4)) 4 with
    | some nameSlot, some iatSlot => do
      let entry ← m.get32 nameSlot
      if entry = 0 then .ok (.ok, img, m)
      else do
        let fname ← importName img m entry
        if entry &&& IMAGE_ORDINAL_FLAG32 = 0 ∧ fname = none then .ok (.badImports, img, m)
        else
          let ordinal := if entry &&& IMAGE_ORDINAL_FLAG32 ≠ 0 then entry % 0x10000 else 0
          match resolve k img m dll fname ordinal with
          | .error r => .ok (r, img, m)
          | .ok (addr, img) => do
            let m ← ({ m with calls := m.calls + 1 } : Machine).set32 iatSlot (u32 addr)
            bindThunks k d dll nameRva fuel (j + 1) img m
    | _, _ => .ok (.badImports, img, m)

/-- The outer loop of `bind_imports`. -/
def bindDescriptors (k : Kernel) (dir : Nat) :
    (fuel i : Nat) → Image → Machine → Except Stop (LoadResult × Image × Machine)
  | 0, _, _, _ => .error .fuel
  | fuel + 1, i, img, m =>
    match imgPtr img (u32 (dir + i * IMPORT_DESCRIPTOR_BYTES)) IMPORT_DESCRIPTOR_BYTES with
    | none => .ok (.badImports, img, m)
    | some d => do
      let name ← m.get32 (d + 12)
      let firstThunk ← m.get32 (d + 16)
      if name = 0 ∧ firstThunk = 0 then .ok (.ok, img, m)
      else do
        match ← imgStr img m name with
        | none => .ok (.badImports, img, m)
        | some dll =>
          if firstThunk = 0 then .ok (.badImports, img, m)
          else do
            let originalFirstThunk ← m.get32 d
            let nameRva := if originalFirstThunk ≠ 0 then originalFirstThunk else firstThunk
            let (r, img, m) ← bindThunks k d dll nameRva fuel 0 img m
            if r ≠ .ok then .ok (r, img, m) else bindDescriptors k dir fuel (i + 1) img m

def bindImports (k : Kernel) (f : File) (fuel opt : Nat) (img : Image) (m : Machine) :
    Except Stop (LoadResult × Image × Machine) := do
  match ← peDir f opt IMAGE_DIRECTORY_ENTRY_IMPORT with
  | none => .ok (.ok, img, m)
  | some (dir, _) => bindDescriptors k dir fuel 0 img m

/-- The slot of the TLS index, if it is in the image, is set to zero. -/
def clearIndex (img : Image) (last addressOfIndex : Nat) (m : Machine) : Except Stop Machine :=
  if img.base ≤ addressOfIndex ∧ addressOfIndex ≤ last then m.set32 addressOfIndex 0 else .ok m

def setupTls (f : File) (opt : Nat) (img : Image) (m : Machine) : Except Stop (Image × Machine) := do
  match ← peDir f opt IMAGE_DIRECTORY_ENTRY_TLS with
  | none => .ok (img, m)
  | some (rva, _) =>
    match imgPtr img rva TLS_DIRECTORY_BYTES with
    | none => .ok (img, m)
    | some tls => do
      let last := u32 (img.base + img.size + 0x100000000 - 4)
      let addressOfIndex ← m.get32 (tls + 8)
      let m ← clearIndex img last addressOfIndex m
      let addressOfCallBacks ← m.get32 (tls + 12)
      if img.base ≤ addressOfCallBacks ∧ addressOfCallBacks ≤ last then do
        let first ← m.get32 addressOfCallBacks
        .ok (if first ≠ 0 then { img with tlsCallbacks := addressOfCallBacks } else img, m)
      else .ok (img, m)

/-! ## Loading -/

/-- The sections that `pe_load` copies, from `i` on with `n` to go. -/
def copySections (f : File) (sh base bytes : Nat) : (n i : Nat) → Machine → Except Stop Machine
  | 0, _, m => .ok m
  | n + 1, i, m => do
    let s ← sectionAt f sh i
    let copy := min s.sizeOfRawData s.vsize
    if s.vsize = 0 ∨ s.sizeOfRawData = 0 ∨ s.virtualAddress + copy > bytes ∨
        s.pointerToRawData + copy > f.size then
      copySections f sh base bytes n (i + 1) m
    else do
      let m ← m.copyIn (u32 (base + s.virtualAddress)) f s.pointerToRawData copy
      copySections f sh base bytes n (i + 1) m

/-- The bytes of the file that are in the image. -/
def copyImage (f : File) (opt : Nat) (s : Sections) (base bytes : Nat) (m : Machine) :
    Except Stop Machine := do
  let sectionAlignment ← f.get32 (opt + 32)
  if sectionAlignment < PAGE_SIZE then m.copyIn base f 0 (min f.size bytes)
  else do
    let sizeOfHeaders ← f.get32 (opt + 60)
    let m ← m.copyIn base f 0 (min (min sizeOfHeaders f.size) bytes)
    copySections f s.sh base bytes s.ns 0 m

def Kernel.kmalloc (k : Kernel) (size : Nat) : Nat := if size = 0 then 0 else k.heap size

/-- `pe_load` from where the pages are mapped, as far as the imports. -/
def beforeImports (f : File) (fuel opt : Nat) (s : Sections) (img : Image) (m : Machine) :
    Except Stop (LoadResult × Machine) := do
  let m ← m.fill img.base 0 img.size
  let m ← copyImage f opt s img.base img.size m
  applyRelocations f fuel opt img m

/-- `pe_load` from where the pages are mapped. -/
def finish (k : Kernel) (f : File) (fuel opt : Nat) (s : Sections) (img : Image) (m : Machine) :
    Except Stop (LoadResult × Image × Machine) := do
  let (r, m) ← beforeImports f fuel opt s img m
  if r ≠ .ok then
    let (img, m) := peUnload img m
    .ok (r, img, m)
  else do
    let (r, img, m) ← bindImports k f fuel opt img m
    if r ≠ .ok then
      let (img, m) := peUnload img m
      .ok (r, img, m)
    else do
      let (img, m) ← setupTls f opt img m
      let entry ← f.get32 (opt + 16)
      .ok (.ok, { img with entry := u32 (img.base + entry) }, m)

/-- `pe_load` of a file that `pe_inspect` has accepted. -/
def place (k : Kernel) (f : File) (fuel coff opt sh : Nat) (info : Info) (m : Machine) :
    Except Stop (LoadResult × Image × Machine) := do
  let sizeOfImage ← f.get32 (opt + 56)
  let bytes := u32 (sizeOfImage + PAGE_SIZE - 1) / PAGE_SIZE * PAGE_SIZE
  let pages := bytes / PAGE_SIZE
  match chooseBase k m info bytes with
  | (base, m) =>
    if base = 0 then .ok (.noAddressSpace, {}, m)
    else do
      let imageBase ← f.get32 (opt + 28)
      let subsystem ← f.get16 (opt + 68)
      let stackReserve ← f.get32 (opt + 72)
      let img : Image :=
        { base, size := bytes, relocDelta := u32 (base + 0x100000000 - imageBase), subsystem, stackReserve }
      if k.kmalloc (pages * 4) = 0 then .ok (.outOfMemory, img, m)
      else
        match mapPages k pages 0 { img with savedPtes := some [] } m with
        | (false, img, m) => .ok (.outOfMemory, img, m)
        | (true, img, m) => do
          let ns ← f.get16 (coff + 2)
          finish k f fuel opt ⟨sh, ns⟩ img m

/-- `pe_load`; at its start no page is mapped for the image. -/
def peLoad (k : Kernel) (f : File) (fuel : Nat) (m : Machine) :
    Except Stop (LoadResult × Image × Machine) := do
  let m := { m with mapped := fun _ => false }
  let (r, info) ← peInspect f fuel true
  if r ≠ .ok then .ok (r, {}, m)
  else do
    match ← peHeaders f with
    | ⟨some opt, _, some coff⟩ => do
      match ← peSections f coff with
      | none => .ok (.badSection, {}, m)
      | some sh => place k f fuel coff opt sh info m
    | ⟨_, err, _⟩ => .ok (err, {}, m)

end NovarisOS.Pe
