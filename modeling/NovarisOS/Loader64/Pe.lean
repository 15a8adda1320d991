/-
NovarisOS.Loader64.Pe — `load_common` of `kernel/pe64.c`, the loader of 64-bit
Windows images.

The loader is a machine of small steps, one for each turn of a loop, because
its tables are read from the image in memory while they are worked on: a
relocation or a bound import may change what is read next.
-/
import NovarisOS.Loader64.Elf

namespace NovarisOS.Loader64.Pe

open Checked

abbrev IMAGE_FILE_MACHINE_AMD64 : Nat := 0x8664
abbrev PE32PLUS_MAGIC : Nat := 0x20B
abbrev DIR_EXPORT : Nat := 0
abbrev DIR_IMPORT : Nat := 1
abbrev DIR_BASERELOC : Nat := 5
abbrev REL_BASED_ABSOLUTE : Nat := 0
abbrev REL_BASED_DIR64 : Nat := 10
abbrev MAX_MODULES : Nat := 8
abbrev MODULE_NAME_MAX : Nat := 32
abbrev THUNK_SIZE : Nat := 24
abbrev SECTION_HDR_BYTES : Nat := 40
abbrev RELOC_BLOCK_BYTES : Nat := 8

/-- A value of `uint32_t`. -/
def u32 (n : Nat) : Nat := n % 0x100000000

inductive Result where
  | ok
  | notPe
  | notPe32plus
  | wrongMachine
  | truncated
  | nomem
  | badImport
  deriving DecidableEq, Repr

/-- What the loader takes from the headers. -/
structure Image where
  bias : Nat
  base : Nat
  sizeImage : Nat
  sizeHeaders : Nat
  entryRva : Nat
  nSections : Nat
  sections : Nat
  nDirs : Nat
  dirs : Nat

namespace Image

def thunkVa (img : Image) : Nat := pageOf (u64 (img.base + img.sizeImage + PAGE64_SIZE - 1))

/-- The end of the thunk page. -/
def stop (img : Image) : Nat := img.thunkVa + PAGE64_SIZE

/-- The addresses from `va` on are some of the image, in the user half. -/
def Owns (img : Image) (va n : Nat) : Prop :=
  img.base ≤ va ∧ va + n ≤ img.stop ∧ va + n ≤ USPACE64_LIMIT

instance (img : Image) (va n : Nat) : Decidable (img.Owns va n) := by
  unfold Owns
  infer_instance

end Image

/-- What is asked of others. -/
structure System extends Kernel where
  moduleExport : Nat → Mem → Nat → Option Nat → Nat → Nat
  win32Resolve : Nat → Mem → Nat → Nat → Int

/-- An entry of `modules`. -/
structure Module where
  name : List UInt8
  base : Nat
  exportRva : Nat
  exportSize : Nat

/-- Where the loader is. -/
inductive Phase where
  | parse
  | mapPages (va : Nat)
  | headers
  | sections (i : Nat)
  | relocations
  | block (p stop : Nat)
  | entry (p stop n k : Nat)
  | register
  | imports
  | descriptor (d : Nat)
  | thunk (d dll lookup iat : Nat)
  | done (r : Result)

structure State where
  phase : Phase
  img : Image
  space : Space
  modules : List Module
  thunkNext : Nat
  pages : Nat
  importCount : Nat
  relocCount : Nat
  calls : Nat

/-! ## Headers -/

/-- The signature is compared byte by byte; the index wraps. -/
def signature (f : File) (peOff : Nat) : Except Stop Bool := do
  let c₀ ← f.get8 peOff
  if c₀ ≠ 0x50 then .ok false
  else do
    let c₁ ← f.get8 (u32 (peOff + 1))
    if c₁ ≠ 0x45 then .ok false
    else do
      let c₂ ← f.get8 (u32 (peOff + 2))
      if c₂ ≠ 0 then .ok false
      else do
        let c₃ ← f.get8 (u32 (peOff + 3))
        .ok (c₃ = 0)

/-- The fields of the optional header at `opt`. -/
def optionalHeader (f : File) (bias opt nSections sizeOpt : Nat) : Except Stop (Except Result Image) := do
  let entryRva ← f.get32 (opt + 16)
  let wantBase ← f.get64 (opt + 24)
  let sizeImage ← f.get32 (opt + 56)
  let sizeHeaders ← f.get32 (opt + 60)
  let nDirs ← f.get32 (opt + 108)
  if u32 (opt + sizeOpt) + nSections * SECTION_HDR_BYTES > f.size then .ok (.error .truncated)
  else
    .ok (.ok { bias, sizeImage, sizeHeaders, entryRva, nSections, nDirs
               base := u64 (wantBase + bias), sections := opt + sizeOpt, dirs := opt + 112 })

/-- The part of `load_common` before anything is mapped. -/
def parse (f : File) (bias : Nat) : Except Stop (Except Result Image) :=
  if f.size < 0x40 then .ok (.error .notPe)
  else do
    let mz ← f.get16 0
    if mz ≠ 0x5A4D then .ok (.error .notPe)
    else do
      let peOff ← f.get32 0x3C
      if u32 (peOff + 24) > f.size then .ok (.error .truncated)
      else do
        let found ← signature f peOff
        if !found then .ok (.error .notPe)
        else do
          let machine ← f.get16 (peOff + 4)
          if machine ≠ IMAGE_FILE_MACHINE_AMD64 then .ok (.error .wrongMachine)
          else do
            let nSections ← f.get16 (peOff + 6)
            let sizeOpt ← f.get16 (peOff + 20)
            let opt := u32 (peOff + 24)
            let magic ← f.get16 opt
            if magic ≠ PE32PLUS_MAGIC then .ok (.error .notPe32plus)
            else optionalHeader f bias opt nSections sizeOpt

/-! ## Writing to the image -/

/-- `kmemcpy` from the file. -/
def copyIn (img : Image) (s : Space) (va : Nat) (f : File) (off n : Nat) : Except Stop Space :=
  if off + n ≤ f.size ∧ (n = 0 ∨ img.Owns va n) then .ok { s with mem := s.mem.copyAt va (f.image.shift off) n }
  else .error .fault

/-- A store of 8 bytes. -/
def set64 (img : Image) (s : Space) (va v : Nat) : Except Stop Space :=
  if img.Owns va 8 then .ok { s with mem := s.mem.wr64 va v } else .error .fault

def prologue : List UInt8 :=
  [0x57, 0x56, 0x48, 0x89, 0xCF, 0x48, 0x89, 0xD6, 0x4C, 0x89, 0xC2, 0x4D, 0x89, 0xCA]

/-- The bytes of `write_thunk`. -/
def thunkCode (number : Nat) : List UInt8 :=
  prologue ++ [0xB8, UInt8.ofNat number, UInt8.ofNat (number / 0x100), UInt8.ofNat (number / 0x10000),
    UInt8.ofNat (number / 0x1000000), 0x0F, 0x05, 0x5E, 0x5F, 0xC3]

def writeThunk (img : Image) (s : Space) (va number : Nat) : Except Stop Space :=
  if img.Owns va THUNK_SIZE then
    .ok { s with mem := s.mem.copyAt va (fun i => (thunkCode number).getD i 0) THUNK_SIZE }
  else .error .fault

/-- `paging64_map` of the page `va` is in. -/
def mapPage (img : Image) (s : Space) (va : Nat) : Except Stop Space :=
  if img.Owns (pageOf va) PAGE64_SIZE then
    .ok { s with
      mem := s.mem.fillAt (pageOf va) 0 PAGE64_SIZE
      present := Function.update s.present (va / PAGE64_SIZE) true
      writable := Function.update s.writable (va / PAGE64_SIZE) true }
  else .error .fault

/-! ## The steps -/

namespace State

def goTo (s : State) (p : Phase) : State := { s with phase := p }

end State

section Steps

variable (y : System) (f : File) (name : Option (List UInt8))

/-- The entry `i` of the directories; only what is asked for is read. -/
def dirSize (img : Image) (i : Nat) : Except Stop Nat := f.get32 (img.dirs + 8 * i + 4)

def dirVa (img : Image) (i : Nat) : Except Stop Nat := f.get32 (img.dirs + 8 * i)

/-- A turn of `map_pages`. -/
def stepMap (s : State) (va : Nat) : Except Stop State :=
  if va < u64 s.img.stop then
    if s.space.present (va / PAGE64_SIZE) then .ok (s.goTo (.mapPages (va + PAGE64_SIZE)))
    else
      let frame := y.frame s.space.asked
      let space := { s.space with asked := s.space.asked + 1 }
      if frame = 0 ∨ !y.mapOk (va / PAGE64_SIZE) then .ok { s with space, phase := .done .nomem }
      else do
        let space ← mapPage s.img space va
        .ok { s with space, pages := s.pages + 1, phase := .mapPages (va + PAGE64_SIZE) }
  else .ok (s.goTo .headers)

def stepHeaders (s : State) : Except Stop State :=
  if s.img.sizeHeaders > f.size then .ok (s.goTo (.done .truncated))
  else do
    let space ← copyIn s.img s.space s.img.base f 0 s.img.sizeHeaders
    .ok { s with space, phase := .sections 0 }

def stepSection (s : State) (i : Nat) : Except Stop State :=
  if i < s.img.nSections then do
    let virtualAddress ← f.get32 (s.img.sections + SECTION_HDR_BYTES * i + 12)
    let sizeOfRawData ← f.get32 (s.img.sections + SECTION_HDR_BYTES * i + 16)
    if sizeOfRawData = 0 then .ok (s.goTo (.sections (i + 1)))
    else do
      let pointerToRawData ← f.get32 (s.img.sections + SECTION_HDR_BYTES * i + 20)
      if pointerToRawData + sizeOfRawData > f.size then .ok (s.goTo (.done .truncated))
      else do
        let space ← copyIn s.img s.space (u64 (s.img.base + virtualAddress)) f pointerToRawData sizeOfRawData
        .ok { s with space, phase := .sections (i + 1) }
  else .ok (s.goTo .relocations)

def stepRelocations (s : State) : Except Stop State :=
  if s.img.bias ≠ 0 ∧ s.img.nDirs > DIR_BASERELOC then do
    let size ← dirSize f s.img DIR_BASERELOC
    if size = 0 then .ok (s.goTo .register)
    else do
      let va ← dirVa f s.img DIR_BASERELOC
      let p := u64 (s.img.base + va)
      .ok (s.goTo (.block p (u64 (p + size))))
  else .ok (s.goTo .register)

def stepBlock (s : State) (p stop : Nat) : State :=
  if u64 (p + RELOC_BLOCK_BYTES) ≤ stop then
    let sizeOfBlock := s.space.mem.rd32 (u64 (p + 4))
    if sizeOfBlock < RELOC_BLOCK_BYTES then s.goTo .register
    else s.goTo (.entry p stop ((sizeOfBlock - RELOC_BLOCK_BYTES) / 2) 0)
  else s.goTo .register

/-- The entry `k` of the block at `p`, and where it points. -/
def relocWord (s : State) (p k : Nat) : Nat := s.space.mem.rd16 (u64 (p + RELOC_BLOCK_BYTES + k * 2))

def relocRva (s : State) (p k : Nat) : Nat := s.space.mem.rd32 p + relocWord s p k % 0x1000

def stepEntry (s : State) (p stop n k : Nat) : Except Stop State :=
  if k < n then
    if relocWord s p k / 0x1000 = REL_BASED_DIR64 then do
      let va := u64 (s.img.base + relocRva s p k)
      let space ← set64 s.img s.space va (u64 (s.space.mem.rd64 va + s.img.bias))
      .ok { s with space, relocCount := s.relocCount + 1, phase := .entry p stop n (k + 1) }
    else if relocWord s p k / 0x1000 ≠ REL_BASED_ABSOLUTE then .ok (s.goTo (.done .badImport))
    else .ok (s.goTo (.entry p stop n (k + 1)))
  else .ok (s.goTo (.block (u64 (p + s.space.mem.rd32 (u64 (p + 4)))) stop))

def stepRegister (s : State) : Except Stop State :=
  match name with
  | none => .ok (s.goTo .imports)
  | some name =>
    if s.modules.length ≥ MAX_MODULES then .ok (s.goTo (.done .nomem))
    else if s.img.nDirs > DIR_EXPORT then do
      let rva ← dirVa f s.img DIR_EXPORT
      let size ← dirSize f s.img DIR_EXPORT
      .ok { s with
        modules := s.modules ++ [⟨name.take (MODULE_NAME_MAX - 1), s.img.base, rva, size⟩]
        phase := .imports }
    else
      .ok { s with
        modules := s.modules ++ [⟨name.take (MODULE_NAME_MAX - 1), s.img.base, 0, 0⟩]
        phase := .imports }

def stepImports (s : State) : Except Stop State :=
  let s := { s with thunkNext := s.img.thunkVa }
  if s.img.nDirs > DIR_IMPORT then do
    let size ← dirSize f s.img DIR_IMPORT
    if size = 0 then .ok (s.goTo (.done .ok))
    else do
      let va ← dirVa f s.img DIR_IMPORT
      .ok (s.goTo (.descriptor (u64 (s.img.base + va))))
  else .ok (s.goTo (.done .ok))

def stepDescriptor (s : State) (d : Nat) : State :=
  let name := s.space.mem.rd32 (u64 (d + 12))
  if name = 0 then s.goTo (.done .ok)
  else
    let originalFirstThunk := s.space.mem.rd32 d
    let firstThunk := s.space.mem.rd32 (u64 (d + 16))
    s.goTo (.thunk d (u64 (s.img.base + name))
      (u64 (s.img.base + if originalFirstThunk ≠ 0 then originalFirstThunk else firstThunk))
      (u64 (s.img.base + firstThunk)))

/-- The import that the word at `lookup` asks for. -/
def byOrdinal (s : State) (lookup : Nat) : Bool := s.space.mem.rd64 lookup ≥ 0x8000000000000000

def ordinal (s : State) (lookup : Nat) : Nat :=
  if byOrdinal s lookup then s.space.mem.rd64 lookup % 0x10000 else 0

def fname (s : State) (lookup : Nat) : Option Nat :=
  if byOrdinal s lookup then none else some (u64 (s.img.base + s.space.mem.rd64 lookup % 0x80000000 + 2))

/-- An import of a loaded module. -/
def exported (s : State) (dll lookup : Nat) : Nat :=
  u64 (y.moduleExport s.calls s.space.mem dll (fname s lookup) (ordinal s lookup))

/-- The address of an import is stored, and the next one is looked at. -/
def bind (s : State) (d dll lookup iat addr : Nat) : Except Stop State := do
  let space ← set64 s.img s.space iat addr
  .ok { s with
    space, importCount := s.importCount + 1, calls := s.calls + 1
    phase := .thunk d dll (u64 (lookup + 8)) (u64 (iat + 8)) }

def stepThunk (s : State) (d dll lookup iat : Nat) : Except Stop State :=
  if s.space.mem.rd64 lookup = 0 then .ok (s.goTo (.descriptor (u64 (d + 20))))
  else if exported y s dll lookup ≠ 0 then bind s d dll lookup iat (exported y s dll lookup)
  else
    match fname s lookup with
    | none => .ok (s.goTo (.done .badImport))
    | some name =>
      let number := y.win32Resolve s.calls s.space.mem dll name
      if number < 0 then .ok (s.goTo (.done .badImport))
      else if u64 (s.thunkNext + THUNK_SIZE) > u64 s.img.stop then .ok (s.goTo (.done .nomem))
      else do
        let space ← writeThunk s.img s.space s.thunkNext number.toNat
        bind { s with space, thunkNext := u64 (s.thunkNext + THUNK_SIZE) } d dll lookup iat s.thunkNext

/-- One step of `load_common`. -/
def step (bias : Nat) (s : State) : Except Stop State :=
  match s.phase with
  | .parse => do
    match ← parse f bias with
    | .error r => .ok (s.goTo (.done r))
    | .ok img => .ok { s with img, phase := .mapPages img.base }
  | .mapPages va => stepMap y s va
  | .headers => stepHeaders f s
  | .sections i => stepSection f s i
  | .relocations => stepRelocations f s
  | .block p stop => .ok (stepBlock s p stop)
  | .entry p stop n k => stepEntry s p stop n k
  | .register => stepRegister f name s
  | .imports => stepImports f s
  | .descriptor d => .ok (stepDescriptor s d)
  | .thunk d dll lookup iat => stepThunk y s d dll lookup iat
  | .done _ => .ok s

/-- `n` steps. -/
def steps (bias : Nat) : Nat → State → Except Stop State
  | 0, s => .ok s
  | n + 1, s => do
    let s ← step y f name bias s
    steps bias n s

end Steps

/-- The beginning of `load_common` in a space, with the modules loaded so
far. -/
def start (space : Space) (modules : List Module) : State where
  phase := .parse
  img := ⟨0, 0, 0, 0, 0, 0, 0, 0, 0⟩
  space := space
  modules := modules
  thunkNext := 0
  pages := 0
  importCount := 0
  relocCount := 0
  calls := 0

end NovarisOS.Loader64.Pe
