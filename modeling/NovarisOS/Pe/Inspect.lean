/-
NovarisOS.Pe.Inspect — the headers and the import directory of a PE32 file,
`kernel/pe.c`.

A pointer into the file is its offset, and a null pointer is `none`. A field
of a structure is read at the offset it has there, and only when the source
reads it. What the source adds in 32 bits wraps, what it widens to 64 bits
first does not.

The walks over the import directory have no bound of their own; they take
fuel, one unit for each entry.
-/
import NovarisOS.Lib.Checked
import NovarisOS.Page

namespace NovarisOS.Pe

open Checked

abbrev IMAGE_DOS_SIGNATURE : Nat := 0x5A4D
abbrev IMAGE_NT_SIGNATURE : Nat := 0x4550
abbrev IMAGE_FILE_MACHINE_I386 : Nat := 0x14c
abbrev IMAGE_NT_OPTIONAL_HDR32_MAGIC : Nat := 0x10b
abbrev IMAGE_NT_OPTIONAL_HDR64_MAGIC : Nat := 0x20b
abbrev IMAGE_FILE_DLL : Nat := 0x2000
abbrev IMAGE_FILE_RELOCS_STRIPPED : Nat := 0x0001
abbrev IMAGE_DIRECTORY_ENTRY_IMPORT : Nat := 1
abbrev IMAGE_DIRECTORY_ENTRY_BASERELOC : Nat := 5
abbrev IMAGE_DIRECTORY_ENTRY_TLS : Nat := 9
abbrev IMAGE_DIRECTORY_ENTRY_COM_DESCRIPTOR : Nat := 14
abbrev IMAGE_ORDINAL_FLAG32 : Nat := 0x80000000
abbrev PE_MAX_IMAGE_PAGES : Nat := 4096

-- `sizeof` of the packed structures.
abbrev DOS_HEADER_BYTES : Nat := 64
abbrev COFF_HEADER_BYTES : Nat := 20
abbrev OPTIONAL_HEADER_BYTES : Nat := 224
abbrev SECTION_HEADER_BYTES : Nat := 40
abbrev IMPORT_DESCRIPTOR_BYTES : Nat := 20

/-- A value of `uint32_t`. -/
def u32 (n : Nat) : Nat := n % 0x100000000

/-- `pe_load_result_t`. -/
inductive LoadResult where
  | ok
  | notPe
  | badHeader
  | pe32plus
  | badMachine
  | isDll
  | dotnet
  | badSection
  | tooLarge
  | outOfMemory
  | noAddressSpace
  | badImports
  | missingImports
  deriving DecidableEq, Repr

/-! ## Headers -/

/-- What `pe_headers` returns and what it leaves in `*err` and `*out_coff`. -/
structure Headers where
  opt : Option Nat
  err : LoadResult
  coff : Option Nat

def peHeaders (f : File) : Except Stop Headers :=
  if f.size < DOS_HEADER_BYTES then .ok ⟨none, .notPe, none⟩
  else do
    let magic ← f.get16 0
    if magic ≠ IMAGE_DOS_SIGNATURE then .ok ⟨none, .notPe, none⟩
    else do
      let lfanew ← f.get32 60
      if lfanew + 4 + COFF_HEADER_BYTES > f.size then .ok ⟨none, .notPe, none⟩
      else do
        let sig ← f.get32 lfanew
        if sig ≠ IMAGE_NT_SIGNATURE then .ok ⟨none, .notPe, none⟩
        else
          let coff := lfanew + 4
          let optOff := u32 (lfanew + 4 + COFF_HEADER_BYTES)
          if optOff + 2 > f.size then .ok ⟨none, .badHeader, some coff⟩
          else do
            let magic ← f.get16 optOff
            if magic = IMAGE_NT_OPTIONAL_HDR64_MAGIC then .ok ⟨none, .pe32plus, some coff⟩
            else if magic ≠ IMAGE_NT_OPTIONAL_HDR32_MAGIC then .ok ⟨none, .badHeader, some coff⟩
            else do
              let sizeOfOptionalHeader ← f.get16 (coff + 16)
              if sizeOfOptionalHeader < OPTIONAL_HEADER_BYTES then .ok ⟨none, .badHeader, some coff⟩
              else if optOff + OPTIONAL_HEADER_BYTES > f.size then .ok ⟨none, .badHeader, some coff⟩
              else .ok ⟨some optOff, .ok, some coff⟩

def peSections (f : File) (coff : Nat) : Except Stop (Option Nat) := do
  let lfanew ← f.get32 60
  let sizeOfOptionalHeader ← f.get16 (coff + 16)
  let off := u32 (lfanew + 4 + COFF_HEADER_BYTES + sizeOfOptionalHeader)
  let numberOfSections ← f.get16 (coff + 2)
  if off + numberOfSections * SECTION_HEADER_BYTES > f.size then .ok none else .ok (some off)

/-- `pe_dir`, with the two fields of the entry it returns. -/
def peDir (f : File) (opt index : Nat) : Except Stop (Option (Nat × Nat)) := do
  let numberOfRvaAndSizes ← f.get32 (opt + 92)
  if numberOfRvaAndSizes ≤ index then .ok none
  else do
    let virtualAddress ← f.get32 (opt + 96 + 8 * index)
    let size ← f.get32 (opt + 96 + 8 * index + 4)
    if virtualAddress = 0 ∨ size = 0 then .ok none else .ok (some (virtualAddress, size))

/-! ## The section table -/

/-- The fields of a `section_header_t` that are used. -/
structure Section where
  virtualSize : Nat
  virtualAddress : Nat
  sizeOfRawData : Nat
  pointerToRawData : Nat

/-- `sh[i]`. -/
def sectionAt (f : File) (sh i : Nat) : Except Stop Section := do
  let virtualSize ← f.get32 (sh + SECTION_HEADER_BYTES * i + 8)
  let virtualAddress ← f.get32 (sh + SECTION_HEADER_BYTES * i + 12)
  let sizeOfRawData ← f.get32 (sh + SECTION_HEADER_BYTES * i + 16)
  let pointerToRawData ← f.get32 (sh + SECTION_HEADER_BYTES * i + 20)
  .ok ⟨virtualSize, virtualAddress, sizeOfRawData, pointerToRawData⟩

def Section.vsize (s : Section) : Nat := if s.virtualSize ≠ 0 then s.virtualSize else s.sizeOfRawData

/-- `rva_to_offset`, from section `i` on with `n` to go. -/
def rvaToOffset (f : File) (sh rva : Nat) : (n i : Nat) → Except Stop Nat
  | 0, _ => .ok 0
  | n + 1, i => do
    let s ← sectionAt f sh i
    if s.virtualAddress ≤ rva ∧ rva - s.virtualAddress < s.vsize then
      let delta := rva - s.virtualAddress
      if delta ≥ s.sizeOfRawData then .ok 0 else .ok (u32 (s.pointerToRawData + delta))
    else rvaToOffset f sh rva n (i + 1)

def filePtr (f : File) (off need : Nat) : Option Nat :=
  if off = 0 then none else if off + need > f.size then none else some off

/-- The section table that is found: its offset and how many entries it has. -/
structure Sections where
  sh : Nat
  ns : Nat

def rvaPtr (f : File) (s : Sections) (rva need : Nat) : Except Stop (Option Nat) := do
  let off ← rvaToOffset f s.sh rva s.ns 0
  .ok (filePtr f off need)

/-- There is a zero among the `n` bytes from `i` on. -/
def terminated (f : File) : (n i : Nat) → Except Stop Bool
  | 0, _ => .ok false
  | n + 1, i => do
    let c ← f.get8 i
    if c = 0 then .ok true else terminated f n (i + 1)

def rvaStr (f : File) (s : Sections) (rva : Nat) : Except Stop (Option Nat) := do
  let off ← rvaToOffset f s.sh rva s.ns 0
  if off = 0 ∨ off ≥ f.size then .ok none
  else do
    let found ← terminated f (f.size - off) off
    .ok (if found then some off else none)

/-! ## Inspection -/

/-- The fields of an `import_descriptor_t` that are used. -/
structure Descriptor where
  originalFirstThunk : Nat
  name : Nat
  firstThunk : Nat

def descriptorAt (f : File) (d : Nat) : Except Stop Descriptor := do
  let originalFirstThunk ← f.get32 d
  let name ← f.get32 (d + 12)
  let firstThunk ← f.get32 (d + 16)
  .ok ⟨originalFirstThunk, name, firstThunk⟩

/-- The thunks that name what is imported. -/
def Descriptor.thunkRva (d : Descriptor) : Nat :=
  if d.originalFirstThunk ≠ 0 then d.originalFirstThunk else d.firstThunk

/-- `pe_info_t`. -/
structure Info where
  valid : Bool := false
  isPe32plus : Bool := false
  isDll : Bool := false
  isDotnet : Bool := false
  hasRelocs : Bool := false
  relocsStripped : Bool := false
  machine : Nat := 0
  subsystem : Nat := 0
  characteristics : Nat := 0
  imageBase : Nat := 0
  sizeOfImage : Nat := 0
  entryRva : Nat := 0
  numSections : Nat := 0
  stackReserve : Nat := 0
  importDllCount : Nat := 0
  importFuncCount : Nat := 0

/-- The inner loop of the import count. -/
def countThunks (f : File) (s : Sections) (thunkRva : Nat) :
    (fuel j count : Nat) → Except Stop Nat
  | 0, _, _ => .error .fuel
  | fuel + 1, j, count => do
    match ← rvaPtr f s (u32 (thunkRva + j * 4)) 4 with
    | none => .ok count
    | some t => do
      let thunk ← f.get32 t
      if thunk = 0 then .ok count else countThunks f s thunkRva fuel (j + 1) (u32 (count + 1))

/-- The outer loop: how many libraries and how many functions. -/
def countImports (f : File) (s : Sections) (dir : Nat) :
    (fuel i dlls funcs : Nat) → Except Stop (Nat × Nat)
  | 0, _, _, _ => .error .fuel
  | fuel + 1, i, dlls, funcs => do
    match ← rvaPtr f s (u32 (dir + i * IMPORT_DESCRIPTOR_BYTES)) IMPORT_DESCRIPTOR_BYTES with
    | none => .ok (dlls, funcs)
    | some p => do
      let d ← descriptorAt f p
      if d.name = 0 ∧ d.firstThunk = 0 then .ok (dlls, funcs)
      else do
        let funcs ← countThunks f s d.thunkRva fuel 0 funcs
        countImports f s dir fuel (i + 1) (u32 (dlls + 1)) funcs

/-- The part of `pe_inspect` that fills in `*out`. -/
def fillInfo (f : File) (fuel coff opt : Nat) (s : Sections) : Except Stop Info := do
  let machine ← f.get16 coff
  let characteristics ← f.get16 (coff + 18)
  let relocs ← peDir f opt IMAGE_DIRECTORY_ENTRY_BASERELOC
  let com ← peDir f opt IMAGE_DIRECTORY_ENTRY_COM_DESCRIPTOR
  let subsystem ← f.get16 (opt + 68)
  let imageBase ← f.get32 (opt + 28)
  let sizeOfImage ← f.get32 (opt + 56)
  let entryRva ← f.get32 (opt + 16)
  let stackReserve ← f.get32 (opt + 72)
  let imp ← peDir f opt IMAGE_DIRECTORY_ENTRY_IMPORT
  let (dlls, funcs) ←
    match imp with
    | none => .ok (0, 0)
    | some (dir, _) => countImports f s dir fuel 0 0 0
  let relocsStripped : Bool := characteristics &&& IMAGE_FILE_RELOCS_STRIPPED ≠ 0
  .ok { valid := true, machine, characteristics, subsystem, imageBase, sizeOfImage, entryRva
        stackReserve, relocsStripped
        isDll := characteristics &&& IMAGE_FILE_DLL ≠ 0
        hasRelocs := relocs.isSome && !relocsStripped
        isDotnet := com.isSome
        numSections := s.ns
        importDllCount := dlls, importFuncCount := funcs }

/-- The check of the sections from `i` on, with `n` to go. -/
def sectionsFit (f : File) (sh sizeOfImage : Nat) : (n i : Nat) → Except Stop Bool
  | 0, _ => .ok true
  | n + 1, i => do
    let s ← sectionAt f sh i
    if s.sizeOfRawData > 0 ∧ s.pointerToRawData + s.sizeOfRawData > f.size then .ok false
    else if s.virtualAddress + s.vsize > sizeOfImage then .ok false
    else sectionsFit f sh sizeOfImage n (i + 1)

/-- The checks of `pe_inspect` after `*out` is filled in. -/
def loadable (f : File) (coff opt : Nat) (s : Sections) : Except Stop LoadResult := do
  let machine ← f.get16 coff
  if machine ≠ IMAGE_FILE_MACHINE_I386 then .ok .badMachine
  else do
    let characteristics ← f.get16 (coff + 18)
    if characteristics &&& IMAGE_FILE_DLL ≠ 0 then .ok .isDll
    else do
      let com ← peDir f opt IMAGE_DIRECTORY_ENTRY_COM_DESCRIPTOR
      if com.isSome then .ok .dotnet
      else do
        let sizeOfImage ← f.get32 (opt + 56)
        if sizeOfImage = 0 then .ok .badHeader
        else if u32 (sizeOfImage + PAGE_SIZE - 1) / PAGE_SIZE > PE_MAX_IMAGE_PAGES then .ok .tooLarge
        else do
          let entry ← f.get32 (opt + 16)
          if entry ≥ sizeOfImage then .ok .badHeader
          else do
            let fit ← sectionsFit f s.sh sizeOfImage s.ns 0
            .ok (if fit then .ok else .badSection)

/-- `pe_inspect`. Without `out` only the checks are made. -/
def peInspect (f : File) (fuel : Nat) (out : Bool) : Except Stop (LoadResult × Info) := do
  match ← peHeaders f with
  | ⟨some opt, _, some coff⟩ => do
    match ← peSections f coff with
    | none => .ok (.badSection, {})
    | some sh => do
      let ns ← f.get16 (coff + 2)
      let info ← if out then fillInfo f fuel coff opt ⟨sh, ns⟩ else .ok {}
      let r ← loadable f coff opt ⟨sh, ns⟩
      .ok (r, info)
  | ⟨_, err, some coff⟩ =>
    if out ∧ err ≠ .notPe then do
      let machine ← f.get16 coff
      let characteristics ← f.get16 (coff + 18)
      .ok (err, { valid := true, machine, characteristics
                  isPe32plus := err = .pe32plus
                  isDll := characteristics &&& IMAGE_FILE_DLL ≠ 0 })
    else .ok (err, {})
  | ⟨_, err, none⟩ => .ok (err, {})

/-! ## Visiting the imports -/

/-- A call of `visit`: where the names are in the file, and the ordinal. -/
structure Visit where
  dll : Nat
  name : Option Nat
  ordinal : Nat

/-- The inner loop of `pe_visit_imports`. -/
def visitThunks (f : File) (s : Sections) (dll thunkRva : Nat) :
    (fuel j : Nat) → (seen : List Visit) → Except Stop (LoadResult × List Visit)
  | 0, _, _ => .error .fuel
  | fuel + 1, j, seen => do
    match ← rvaPtr f s (u32 (thunkRva + j * 4)) 4 with
    | none => .ok (.badImports, seen)
    | some t => do
      let thunk ← f.get32 t
      if thunk = 0 then .ok (.ok, seen)
      else if thunk &&& IMAGE_ORDINAL_FLAG32 ≠ 0 then
        visitThunks f s dll thunkRva fuel (j + 1) (seen ++ [⟨dll, none, thunk % 0x10000⟩])
      else do
        match ← rvaStr f s (u32 (thunk + 2)) with
        | none => .ok (.badImports, seen)
        | some name => visitThunks f s dll thunkRva fuel (j + 1) (seen ++ [⟨dll, some name, 0⟩])

/-- The outer loop. -/
def visitDescriptors (f : File) (s : Sections) (dir : Nat) :
    (fuel i : Nat) → (seen : List Visit) → Except Stop (LoadResult × List Visit)
  | 0, _, _ => .error .fuel
  | fuel + 1, i, seen => do
    match ← rvaPtr f s (u32 (dir + i * IMPORT_DESCRIPTOR_BYTES)) IMPORT_DESCRIPTOR_BYTES with
    | none => .ok (.badImports, seen)
    | some p => do
      let d ← descriptorAt f p
      if d.name = 0 ∧ d.firstThunk = 0 then .ok (.ok, seen)
      else do
        match ← rvaStr f s d.name with
        | none => .ok (.badImports, seen)
        | some dll => do
          let (r, seen) ← visitThunks f s dll d.thunkRva fuel 0 seen
          if r ≠ .ok then .ok (r, seen) else visitDescriptors f s dir fuel (i + 1) seen

def peVisitImports (f : File) (fuel : Nat) : Except Stop (LoadResult × List Visit) := do
  match ← peHeaders f with
  | ⟨some opt, _, some coff⟩ => do
    match ← peSections f coff with
    | none => .ok (.badSection, [])
    | some sh => do
      let ns ← f.get16 (coff + 2)
      match ← peDir f opt IMAGE_DIRECTORY_ENTRY_IMPORT with
      | none => .ok (.ok, [])
      | some (dir, _) => visitDescriptors f ⟨sh, ns⟩ dir fuel 0 []
  | ⟨_, err, _⟩ => .ok (err, [])

end NovarisOS.Pe
