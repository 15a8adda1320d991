/-
NovarisOS.Pe.InspectTheorems — what `pe_inspect` and `pe_visit_imports` read,
and what they accept.

Every read is inside the file, for every file. The offset of the section
table and the offset an RVA is mapped to may wrap; both are compared with the
size before they are used, so this does no harm.

`Loadable` is what a file is like that `pe_inspect` accepts, said of its
fields.
-/
import NovarisOS.Pe.Inspect

namespace NovarisOS.Pe

open Checked

/-- A file whose size is a `uint32_t`. -/
structure PeFile extends File where
  size_lt : size < 0x100000000

/-! ## Fields -/

section Fields

variable (f : File)

def lfanew : Nat := f.image.rd32 60

def coffOf : Nat := lfanew f + 4

def optOf : Nat := lfanew f + 24

def imageBase : Nat := f.image.rd32 (optOf f + 28)

def sizeOfImage : Nat := f.image.rd32 (optOf f + 56)

def entryRva : Nat := f.image.rd32 (optOf f + 16)

def numSections : Nat := f.image.rd16 (coffOf f + 2)

/-- The section table. -/
def tableOf : Nat := u32 (lfanew f + 24 + f.image.rd16 (coffOf f + 16))

/-- The entry of a data directory, if it is used. -/
def dirOf (opt index : Nat) : Option (Nat × Nat) :=
  if f.image.rd32 (opt + 92) ≤ index then none
  else if f.image.rd32 (opt + 96 + 8 * index) = 0 ∨ f.image.rd32 (opt + 96 + 8 * index + 4) = 0 then none
  else some (f.image.rd32 (opt + 96 + 8 * index), f.image.rd32 (opt + 96 + 8 * index + 4))

def sectionOf (sh i : Nat) : Section :=
  ⟨f.image.rd32 (sh + SECTION_HEADER_BYTES * i + 8), f.image.rd32 (sh + SECTION_HEADER_BYTES * i + 12),
    f.image.rd32 (sh + SECTION_HEADER_BYTES * i + 16), f.image.rd32 (sh + SECTION_HEADER_BYTES * i + 20)⟩

/-- The headers are those of a 32-bit image, and they are in the file. -/
structure HasHeaders : Prop where
  dos : DOS_HEADER_BYTES ≤ f.size
  mz : f.image.rd16 0 = IMAGE_DOS_SIGNATURE
  sig : f.image.rd32 (lfanew f) = IMAGE_NT_SIGNATURE
  magic : f.image.rd16 (optOf f) = IMAGE_NT_OPTIONAL_HDR32_MAGIC
  large : OPTIONAL_HEADER_BYTES ≤ f.image.rd16 (coffOf f + 16)
  fits : optOf f + OPTIONAL_HEADER_BYTES ≤ f.size

/-- The section table is in the file. -/
def HasTable : Prop := tableOf f + numSections f * SECTION_HEADER_BYTES ≤ f.size

instance : Decidable (HasTable f) := inferInstanceAs (Decidable (_ ≤ _))

/-- The section is in the file, and in the image. -/
def Section.Fits (s : Section) : Prop :=
  (s.sizeOfRawData = 0 ∨ s.pointerToRawData + s.sizeOfRawData ≤ f.size) ∧
    s.virtualAddress + s.vsize ≤ sizeOfImage f

/-- A program that can be loaded. -/
structure Loadable : Prop where
  headers : HasHeaders f
  table : HasTable f
  machine : f.image.rd16 (coffOf f) = IMAGE_FILE_MACHINE_I386
  notDll : f.image.rd16 (coffOf f + 18) &&& IMAGE_FILE_DLL = 0
  native : dirOf f (optOf f) IMAGE_DIRECTORY_ENTRY_COM_DESCRIPTOR = none
  image : sizeOfImage f ≠ 0
  pages : u32 (sizeOfImage f + PAGE_SIZE - 1) / PAGE_SIZE ≤ PE_MAX_IMAGE_PAGES
  entry : entryRva f < sizeOfImage f
  sections : ∀ i < numSections f, (sectionOf f (tableOf f) i).Fits f

end Fields

/-! ## Headers -/

theorem u32_of_lt {n : Nat} (h : n < 0x100000000) : u32 n = n := Nat.mod_eq_of_lt h

section Headers

variable {f : File}

/-- What `pe_headers` leaves: the headers where they are, or a reason. -/
structure HeadersSpec (f : File) (h : Headers) : Prop where
  found : ∀ o, h.opt = some o → HasHeaders f ∧ h = ⟨some (optOf f), .ok, some (coffOf f)⟩
  refused : h.opt = none → h.err ≠ .ok
  coff : ∀ c, h.coff = some c → c + COFF_HEADER_BYTES ≤ f.size

theorem HeadersSpec.not_found {err : LoadResult} (h : err ≠ .ok) : HeadersSpec f ⟨none, err, none⟩ where
  found := by simp
  refused := fun _ => h
  coff := by simp

theorem HeadersSpec.coff_found {err : LoadResult} {c : Nat} (h : err ≠ .ok)
    (hc : c + COFF_HEADER_BYTES ≤ f.size) : HeadersSpec f ⟨none, err, some c⟩ where
  found := by simp
  refused := fun _ => h
  coff := by
    intro c' h'
    obtain rfl : c = c' := by simpa using h'
    exact hc

theorem peHeaders_spec (hs : f.size < 0x100000000) : ∃ h, peHeaders f = .ok h ∧ HeadersSpec f h := by
  unfold peHeaders
  simp only [DOS_HEADER_BYTES, COFF_HEADER_BYTES, OPTIONAL_HEADER_BYTES]
  split
  case isTrue => exact ⟨_, rfl, .not_found (by decide)⟩
  case isFalse hdos =>
  simp only [File.get16_eq (f := f) 0 (by omega), File.get32_eq (f := f) 60 (by omega),
    bind, Except.bind]
  split
  case isTrue => exact ⟨_, rfl, .not_found (by decide)⟩
  case isFalse hmz =>
  split
  case isTrue => exact ⟨_, rfl, .not_found (by decide)⟩
  case isFalse hfit =>
  have hopt : u32 (f.image.rd32 60 + 4 + 20) = f.image.rd32 60 + 24 := by
    rw [u32_of_lt (by omega)]
  simp only [File.get32_eq (f := f) (f.image.rd32 60) (by omega), hopt]
  split
  case isTrue => exact ⟨_, rfl, .not_found (by decide)⟩
  case isFalse hsig =>
  have hcoff : f.image.rd32 60 + 4 + COFF_HEADER_BYTES ≤ f.size := by
    simp only [COFF_HEADER_BYTES]
    omega
  split
  case isTrue => exact ⟨_, rfl, .coff_found (by decide) hcoff⟩
  case isFalse hmagic =>
  simp only [File.get16_eq (f := f) (f.image.rd32 60 + 24) (by omega),
    File.get16_eq (f := f) (f.image.rd32 60 + 4 + 16) (by omega)]
  split
  case isTrue => exact ⟨_, rfl, .coff_found (by decide) hcoff⟩
  case isFalse h64 =>
  split
  case isTrue => exact ⟨_, rfl, .coff_found (by decide) hcoff⟩
  case isFalse h32 =>
  split
  case isTrue => exact ⟨_, rfl, .coff_found (by decide) hcoff⟩
  case isFalse hlarge =>
  split
  case isTrue => exact ⟨_, rfl, .coff_found (by decide) hcoff⟩
  case isFalse hend =>
  refine ⟨_, rfl, fun o ho => ⟨⟨?_, ?_, ?_, ?_, ?_, ?_⟩, rfl⟩, by simp, ?_⟩
  · simp only [DOS_HEADER_BYTES]
    omega
  · simpa using hmz
  · simpa [lfanew] using hsig
  · simpa [optOf, lfanew] using h32
  · simpa [coffOf, lfanew] using hlarge
  · simpa [optOf, lfanew] using hend
  · intro c hc
    obtain rfl : f.image.rd32 60 + 4 = c := by simpa using hc
    exact hcoff

theorem peHeaders_eq (hs : f.size < 0x100000000) (h : HasHeaders f) :
    peHeaders f = .ok ⟨some (optOf f), .ok, some (coffOf f)⟩ := by
  obtain ⟨hdos, hmz, hsig, hmagic, hlarge, hfits⟩ := h
  simp only [DOS_HEADER_BYTES, OPTIONAL_HEADER_BYTES, optOf, coffOf, lfanew] at *
  have hopt : u32 (f.image.rd32 60 + 4 + 20) = f.image.rd32 60 + 24 := by
    rw [u32_of_lt (by omega)]
  unfold peHeaders
  simp only [DOS_HEADER_BYTES, COFF_HEADER_BYTES, OPTIONAL_HEADER_BYTES]
  rw [if_neg (by omega)]
  simp only [File.get16_eq (f := f) 0 (by omega), File.get32_eq (f := f) 60 (by omega), bind, Except.bind]
  rw [if_neg (by simpa using hmz), if_neg (by omega)]
  simp only [File.get32_eq (f := f) (f.image.rd32 60) (by omega), hopt]
  rw [if_neg (by simpa using hsig), if_neg (by omega)]
  simp only [File.get16_eq (f := f) (f.image.rd32 60 + 24) (by omega),
    File.get16_eq (f := f) (f.image.rd32 60 + 4 + 16) (by omega)]
  rw [if_neg (by rw [hmagic]; decide), if_neg (by simpa using hmagic), if_neg (by omega), if_neg (by omega)]

theorem peHeaders_cases (hs : f.size < 0x100000000) :
    (HasHeaders f ∧ peHeaders f = .ok ⟨some (optOf f), .ok, some (coffOf f)⟩) ∨
      ∃ err coff, err ≠ .ok ∧ peHeaders f = .ok ⟨none, err, coff⟩ ∧
        ∀ c, coff = some c → c + COFF_HEADER_BYTES ≤ f.size := by
  obtain ⟨⟨opt, err, coff⟩, heq, hspec⟩ := peHeaders_spec hs
  cases opt with
  | none => exact .inr ⟨err, coff, hspec.refused rfl, heq, hspec.coff⟩
  | some o =>
    have h := hspec.found o rfl
    exact .inl ⟨h.1, by rw [heq, h.2]⟩

theorem peSections_eq (h : HasHeaders f) :
    peSections f (coffOf f) = .ok (if HasTable f then some (tableOf f) else none) := by
  obtain ⟨hdos, -, -, -, -, hfits⟩ := h
  simp only [DOS_HEADER_BYTES, OPTIONAL_HEADER_BYTES, optOf, lfanew] at hdos hfits
  unfold peSections
  simp only [File.get16_eq (f := f) (coffOf f + 16) (by simp only [coffOf, lfanew]; omega),
    File.get16_eq (f := f) (coffOf f + 2) (by simp only [coffOf, lfanew]; omega),
    File.get32_eq (f := f) 60 (by omega), bind, Except.bind]
  by_cases ht : HasTable f
  · rw [if_pos ht]
    exact if_neg (Nat.not_lt.2 ht)
  · rw [if_neg ht]
    exact if_pos (Nat.not_le.1 ht)

theorem numSections_eq (h : HasHeaders f) : f.get16 (coffOf f + 2) = .ok (numSections f) := by
  obtain ⟨hdos, -, -, -, -, hfits⟩ := h
  simp only [OPTIONAL_HEADER_BYTES, optOf] at hfits
  exact File.get16_eq _ (by simp only [coffOf]; omega)

theorem peDir_eq {opt index : Nat} (h : opt + OPTIONAL_HEADER_BYTES ≤ f.size) (hi : index < 16) :
    peDir f opt index = .ok (dirOf f opt index) := by
  simp only [OPTIONAL_HEADER_BYTES] at h
  unfold peDir dirOf
  simp only [File.get32_eq (f := f) (opt + 92) (by omega), bind, Except.bind]
  split
  · rfl
  · simp only [File.get32_eq (f := f) (opt + 96 + 8 * index) (by omega),
      File.get32_eq (f := f) (opt + 96 + 8 * index + 4) (by omega)]
    split <;> rfl

end Headers

/-! ## Sections -/

section Sections

variable {f : File} {sh n i : Nat}

theorem sectionAt_eq (h : sh + SECTION_HEADER_BYTES * (i + 1) ≤ f.size) :
    sectionAt f sh i = .ok (sectionOf f sh i) := by
  simp only [SECTION_HEADER_BYTES] at h
  unfold sectionAt sectionOf
  simp only [SECTION_HEADER_BYTES, File.get32_eq (f := f) (sh + 40 * i + 8) (by omega),
    File.get32_eq (f := f) (sh + 40 * i + 12) (by omega), File.get32_eq (f := f) (sh + 40 * i + 16) (by omega),
    File.get32_eq (f := f) (sh + 40 * i + 20) (by omega), bind, Except.bind]

/-- The table of `n` sections from `i` on is in the file. -/
def TableFits (f : File) (sh n i : Nat) : Prop := sh + SECTION_HEADER_BYTES * (i + n) ≤ f.size

theorem TableFits.head (h : TableFits f sh (n + 1) i) : sh + SECTION_HEADER_BYTES * (i + 1) ≤ f.size := by
  simp only [TableFits, SECTION_HEADER_BYTES] at *
  omega

theorem TableFits.tail (h : TableFits f sh (n + 1) i) : TableFits f sh n (i + 1) := by
  simp only [TableFits, SECTION_HEADER_BYTES] at *
  omega

theorem rvaToOffset_ok (rva : Nat) (h : TableFits f sh n i) : ∃ off, rvaToOffset f sh rva n i = .ok off := by
  induction n generalizing i with
  | zero => exact ⟨0, rfl⟩
  | succ n ih =>
    rw [rvaToOffset, sectionAt_eq h.head]
    simp only [bind, Except.bind]
    split
    · split <;> exact ⟨_, rfl⟩
    · exact ih h.tail

theorem rvaToOffset_zero {limit rva : Nat} (h : TableFits f sh n i) (hr : limit ≤ rva)
    (hs : ∀ j, i ≤ j → j < i + n → (sectionOf f sh j).virtualAddress + (sectionOf f sh j).vsize ≤ limit) :
    rvaToOffset f sh rva n i = .ok 0 := by
  induction n generalizing i with
  | zero => rfl
  | succ n ih =>
    rw [rvaToOffset, sectionAt_eq h.head]
    have hi := hs i (by omega) (by omega)
    simp only [bind, Except.bind]
    rw [if_neg (by omega)]
    exact ih h.tail fun j h₁ h₂ => hs j (by omega) (by omega)

theorem filePtr_bound {off need p : Nat} (h : filePtr f off need = some p) : p + need ≤ f.size := by
  unfold filePtr at h
  split at h
  · cases h
  · split at h
    · cases h
    · obtain rfl : off = p := by simpa using h
      omega

/-- The sections that are found can be read. -/
def Sections.Fit (f : File) (s : Sections) : Prop := TableFits f s.sh s.ns 0

theorem HasTable.fits (h : HasTable f) : Sections.Fit f ⟨tableOf f, numSections f⟩ := by
  simp only [HasTable, Sections.Fit, TableFits, SECTION_HEADER_BYTES] at *
  omega

variable {s : Sections}

theorem rvaPtr_ok (h : s.Fit f) (rva need : Nat) :
    ∃ p, rvaPtr f s rva need = .ok p ∧ ∀ q, p = some q → q + need ≤ f.size := by
  obtain ⟨off, hoff⟩ := rvaToOffset_ok rva h
  refine ⟨filePtr f off need, ?_, fun q hq => filePtr_bound hq⟩
  rw [rvaPtr, hoff]
  rfl

theorem terminated_ok (h : i + n ≤ f.size) : ∃ b, terminated f n i = .ok b := by
  induction n generalizing i with
  | zero => exact ⟨false, rfl⟩
  | succ n ih =>
    rw [terminated, File.get8_eq _ (by omega)]
    simp only [bind, Except.bind]
    split
    · exact ⟨true, rfl⟩
    · exact ih (by omega)

theorem rvaStr_ok (h : s.Fit f) (rva : Nat) : ∃ p, rvaStr f s rva = .ok p := by
  obtain ⟨off, hoff⟩ := rvaToOffset_ok rva h
  rw [rvaStr, hoff]
  simp only [bind, Except.bind]
  split
  · exact ⟨none, rfl⟩
  · obtain ⟨b, hb⟩ := terminated_ok (f := f) (n := f.size - off) (i := off) (by omega)
    rw [hb]
    exact ⟨_, rfl⟩

theorem descriptorAt_ok {d : Nat} (h : d + IMPORT_DESCRIPTOR_BYTES ≤ f.size) :
    ∃ x, descriptorAt f d = .ok x := by
  simp only [IMPORT_DESCRIPTOR_BYTES] at h
  unfold descriptorAt
  simp only [File.get32_eq (f := f) d (by omega), File.get32_eq (f := f) (d + 12) (by omega),
    File.get32_eq (f := f) (d + 16) (by omega), bind, Except.bind]
  exact ⟨_, rfl⟩

end Sections

/-! ## The walks -/

section Walks

variable {f : File} {s : Sections}

theorem countThunks_ensures (h : s.Fit f) (thunkRva fuel j count : Nat) :
    Ensures (countThunks f s thunkRva fuel j count) (fun _ => True) := by
  induction fuel generalizing j count with
  | zero => exact .out_of_fuel
  | succ fuel ih =>
    rw [countThunks]
    obtain ⟨p, hp, hbound⟩ := rvaPtr_ok h (u32 (thunkRva + j * 4)) 4
    rw [hp]
    cases p with
    | none => exact .ok trivial
    | some t =>
      simp only [File.get32_eq t (hbound t rfl), bind, Except.bind]
      exact .ite (fun _ => .ok trivial) fun _ => ih _ _

theorem countImports_ensures (h : s.Fit f) (dir fuel i dlls funcs : Nat) :
    Ensures (countImports f s dir fuel i dlls funcs) (fun _ => True) := by
  induction fuel generalizing i dlls funcs with
  | zero => exact .out_of_fuel
  | succ fuel ih =>
    rw [countImports]
    obtain ⟨p, hp, hbound⟩ :=
      rvaPtr_ok h (u32 (dir + i * IMPORT_DESCRIPTOR_BYTES)) IMPORT_DESCRIPTOR_BYTES
    rw [hp]
    cases p with
    | none => exact .ok trivial
    | some t =>
      obtain ⟨d, hd⟩ := descriptorAt_ok (hbound t rfl)
      simp only [hd, bind, Except.bind]
      refine .ite (fun _ => .ok trivial) fun _ => ?_
      exact (countThunks_ensures h d.thunkRva fuel 0 funcs).bind fun _ _ => ih _ _ _

theorem visitThunks_ensures (h : s.Fit f) (dll thunkRva fuel j : Nat) (seen : List Visit) :
    Ensures (visitThunks f s dll thunkRva fuel j seen) (fun _ => True) := by
  induction fuel generalizing j seen with
  | zero => exact .out_of_fuel
  | succ fuel ih =>
    rw [visitThunks]
    obtain ⟨p, hp, hbound⟩ := rvaPtr_ok h (u32 (thunkRva + j * 4)) 4
    rw [hp]
    cases p with
    | none => exact .ok trivial
    | some t =>
      simp only [File.get32_eq t (hbound t rfl), bind, Except.bind]
      refine .ite (fun _ => .ok trivial) fun _ => .ite (fun _ => ih _ _) fun _ => ?_
      obtain ⟨name, hname⟩ := rvaStr_ok h (u32 (f.image.rd32 t + 2))
      rw [hname]
      cases name with
      | none => exact .ok trivial
      | some name => exact ih _ _

theorem visitDescriptors_ensures (h : s.Fit f) (dir fuel i : Nat) (seen : List Visit) :
    Ensures (visitDescriptors f s dir fuel i seen) (fun _ => True) := by
  induction fuel generalizing i seen with
  | zero => exact .out_of_fuel
  | succ fuel ih =>
    rw [visitDescriptors]
    obtain ⟨p, hp, hbound⟩ :=
      rvaPtr_ok h (u32 (dir + i * IMPORT_DESCRIPTOR_BYTES)) IMPORT_DESCRIPTOR_BYTES
    rw [hp]
    cases p with
    | none => exact .ok trivial
    | some t =>
      obtain ⟨d, hd⟩ := descriptorAt_ok (hbound t rfl)
      simp only [hd, bind, Except.bind]
      refine .ite (fun _ => .ok trivial) fun _ => ?_
      obtain ⟨name, hname⟩ := rvaStr_ok h d.name
      rw [hname]
      cases name with
      | none => exact .ok trivial
      | some dll =>
        refine (visitThunks_ensures h dll d.thunkRva fuel 0 seen).bind fun r _ => ?_
        exact .ite (fun _ => .ok trivial) fun _ => ih _ _

theorem peVisitImports_faultless (hs : f.size < 0x100000000) (fuel : Nat) :
    Faultless (peVisitImports f fuel) := by
  suffices Ensures (peVisitImports f fuel) (fun _ => True) from this.faultless
  unfold peVisitImports
  rcases peHeaders_cases hs with ⟨hh, heq⟩ | ⟨err, coff, -, heq, -⟩
  · simp only [heq, peSections_eq hh, numSections_eq hh, bind, Except.bind]
    by_cases ht : HasTable f
    · simp only [if_pos ht, peDir_eq hh.fits (by decide : IMAGE_DIRECTORY_ENTRY_IMPORT < 16)]
      cases dirOf f (optOf f) IMAGE_DIRECTORY_ENTRY_IMPORT with
      | none => exact .ok trivial
      | some d => exact visitDescriptors_ensures ht.fits d.1 fuel 0 []
    · simp only [if_neg ht]
      exact .ok trivial
  · simp only [heq, bind, Except.bind]
    exact .ok trivial

/-! ### They come to an end -/

/-- An RVA from `limit` on is in no section. -/
def Bounded (f : File) (s : Sections) (limit : Nat) : Prop :=
  ∀ rva need, limit ≤ rva → rvaPtr f s rva need = .ok none

variable {limit : Nat}

theorem u32_step {a d : Nat} (hl : limit ≤ 0x1000000) (ha : u32 a < limit) (hd : d ≤ 20) :
    u32 (a + d) = u32 a + d := by
  simp only [u32] at *
  omega

-- Each entry that is read is below `limit`, and the next one is further up.
theorem countThunks_ends (h : s.Fit f) (hb : Bounded f s limit) (hl : limit ≤ 0x1000000) (thunkRva : Nat)
    {fuel : Nat} (j count : Nat) (hpos : 0 < fuel) (hf : limit + 4 ≤ u32 (thunkRva + j * 4) + 4 * fuel) :
    ∃ c, countThunks f s thunkRva fuel j count = .ok c := by
  induction fuel generalizing j count with
  | zero => cases hpos
  | succ fuel ih =>
    rw [countThunks]
    by_cases hj : limit ≤ u32 (thunkRva + j * 4)
    · rw [hb _ _ hj]
      exact ⟨_, rfl⟩
    · obtain ⟨p, hp, hbound⟩ := rvaPtr_ok h (u32 (thunkRva + j * 4)) 4
      rw [hp]
      cases p with
      | none => exact ⟨_, rfl⟩
      | some t =>
        simp only [File.get32_eq t (hbound t rfl), bind, Except.bind]
        have hstep : u32 (thunkRva + (j + 1) * 4) = u32 (thunkRva + j * 4) + 4 := by
          rw [show thunkRva + (j + 1) * 4 = thunkRva + j * 4 + 4 by omega]
          exact u32_step hl (by omega) (by omega)
        split
        · exact ⟨_, rfl⟩
        · exact ih _ _ (by omega) (by omega)

theorem countImports_ends (h : s.Fit f) (hb : Bounded f s limit) (hl : limit ≤ 0x1000000) (dir : Nat)
    {fuel : Nat} (i dlls funcs : Nat) (hpos : 0 < fuel)
    (hf : 6 * limit + 40 ≤ u32 (dir + i * IMPORT_DESCRIPTOR_BYTES) + 20 * fuel) :
    ∃ c, countImports f s dir fuel i dlls funcs = .ok c := by
  simp only [IMPORT_DESCRIPTOR_BYTES] at hf
  induction fuel generalizing i dlls funcs with
  | zero => cases hpos
  | succ fuel ih =>
    rw [countImports]
    by_cases hi : limit ≤ u32 (dir + i * 20)
    · rw [hb _ _ hi]
      exact ⟨_, rfl⟩
    · obtain ⟨p, hp, hbound⟩ := rvaPtr_ok h (u32 (dir + i * 20)) IMPORT_DESCRIPTOR_BYTES
      rw [hp]
      cases p with
      | none => exact ⟨_, rfl⟩
      | some t =>
        obtain ⟨d, hd⟩ := descriptorAt_ok (hbound t rfl)
        have hstep : u32 (dir + (i + 1) * 20) = u32 (dir + i * 20) + 20 := by
          rw [show dir + (i + 1) * 20 = dir + i * 20 + 20 by omega]
          exact u32_step hl (by omega) (by omega)
        obtain ⟨c, hc⟩ := countThunks_ends h hb hl d.thunkRva 0 funcs (show 0 < fuel by omega) (by omega)
        simp only [hd, hc, bind, Except.bind]
        split
        · exact ⟨_, rfl⟩
        · exact ih _ _ _ (by omega) (by omega)

end Walks

/-! ## Inspection -/

section Inspect

variable {f : File}

theorem sectionsFit_eq {sh n i : Nat} (h : TableFits f sh n i) :
    ∃ b, sectionsFit f sh (sizeOfImage f) n i = .ok b ∧
      (b = true ↔ ∀ j, i ≤ j → j < i + n → (sectionOf f sh j).Fits f) := by
  induction n generalizing i with
  | zero => exact ⟨true, rfl, by simp; omega⟩
  | succ n ih =>
    rw [sectionsFit, sectionAt_eq h.head]
    simp only [bind, Except.bind]
    have hhead : ∀ {P : Nat → Prop}, (∀ j, i ≤ j → j < i + (n + 1) → P j) → P i :=
      fun hall => hall i (by omega) (by omega)
    split
    case isTrue hraw =>
      refine ⟨false, rfl, ?_⟩
      simp only [Bool.false_eq_true, false_iff]
      intro hall
      have := (hhead hall).1
      omega
    case isFalse hraw =>
    split
    case isTrue hvirt =>
      refine ⟨false, rfl, ?_⟩
      simp only [Bool.false_eq_true, false_iff]
      intro hall
      have := (hhead hall).2
      omega
    case isFalse hvirt =>
    obtain ⟨b, hb, hiff⟩ := ih h.tail
    refine ⟨b, hb, hiff.trans ⟨fun hall j h₁ h₂ => ?_, fun hall j h₁ h₂ => hall j (by omega) (by omega)⟩⟩
    by_cases hj : j = i
    · subst hj
      exact ⟨by omega, by omega⟩
    · exact hall j (by omega) (by omega)

theorem loadable_eq (hh : HasHeaders f) (ht : HasTable f) :
    ∃ r, loadable f (coffOf f) (optOf f) ⟨tableOf f, numSections f⟩ = .ok r ∧ (r = .ok ↔ Loadable f) := by
  have hfits := hh.fits
  have hcoff : coffOf f + 20 ≤ f.size := by
    simp only [OPTIONAL_HEADER_BYTES, optOf, coffOf] at *
    omega
  have hrows : TableFits f (tableOf f) (numSections f) 0 := ht.fits
  obtain ⟨b, hb, hiff⟩ := sectionsFit_eq hrows
  unfold loadable
  simp only [File.get16_eq (f := f) (coffOf f) (by omega), File.get16_eq (f := f) (coffOf f + 18) (by omega),
    peDir_eq hfits (by decide : IMAGE_DIRECTORY_ENTRY_COM_DESCRIPTOR < 16),
    File.get32_eq (f := f) (optOf f + 56) (by simp only [OPTIONAL_HEADER_BYTES] at hfits; omega),
    File.get32_eq (f := f) (optOf f + 16) (by simp only [OPTIONAL_HEADER_BYTES] at hfits; omega),
    bind, Except.bind]
  split
  case isTrue hmach => exact ⟨_, rfl, by simp, fun h => absurd h.machine hmach⟩
  case isFalse hmach =>
  split
  case isTrue hdll => exact ⟨_, rfl, by simp, fun h => absurd h.notDll hdll⟩
  case isFalse hdll =>
  split
  case isTrue hcom => exact ⟨_, rfl, by simp, fun h => by simp [h.native] at hcom⟩
  case isFalse hcom =>
  split
  case isTrue hzero => exact ⟨_, rfl, by simp, fun h => absurd hzero h.image⟩
  case isFalse hzero =>
  split
  case isTrue hbig => exact ⟨_, rfl, by simp, fun h => absurd h.pages (Nat.not_le.2 hbig)⟩
  case isFalse hbig =>
  split
  case isTrue hentry => exact ⟨_, rfl, by simp, fun h => absurd h.entry (Nat.not_lt.2 hentry)⟩
  case isFalse hentry =>
  have hb' : sectionsFit f (tableOf f) (f.image.rd32 (optOf f + 56)) (numSections f) 0 = .ok b := hb
  simp only [hb']
  refine ⟨_, rfl, fun hr => ?_, fun h => ?_⟩
  · have hbt : b = true := by
      cases b
      · cases hr
      · rfl
    refine ⟨hh, ht, by simpa using hmach, by simpa using hdll, by simpa using hcom, hzero, Nat.not_lt.1 hbig,
      Nat.not_le.1 hentry, fun i hi => hiff.1 hbt i (by omega) (by omega)⟩
  · have hbt : b = true := hiff.2 fun j _ hj => h.sections j (by omega)
    rw [hbt]
    rfl

/-- The counts of the imports. -/
def importCounts (f : File) (fuel : Nat) : Except Stop (Nat × Nat) :=
  match dirOf f (optOf f) IMAGE_DIRECTORY_ENTRY_IMPORT with
  | none => .ok (0, 0)
  | some (dir, _) => countImports f ⟨tableOf f, numSections f⟩ dir fuel 0 0 0

theorem importCounts_ensures (ht : HasTable f) (fuel : Nat) : Ensures (importCounts f fuel) (fun _ => True) := by
  unfold importCounts
  split
  · exact .ok trivial
  · exact countImports_ensures ht.fits _ _ _ _ _

theorem fillInfo_eq (hh : HasHeaders f) (fuel : Nat) :
    ∃ g : Nat × Nat → Info, (∀ c, (g c).imageBase = imageBase f) ∧
      fillInfo f fuel (coffOf f) (optOf f) ⟨tableOf f, numSections f⟩ = (importCounts f fuel).map g := by
  have hfits := hh.fits
  have hopt : optOf f + 224 ≤ f.size := hfits
  have hcoff : coffOf f + 20 ≤ f.size := by
    simp only [optOf, coffOf] at *
    omega
  unfold fillInfo importCounts
  simp only [File.get16_eq (f := f) (coffOf f) (by omega), File.get16_eq (f := f) (coffOf f + 18) (by omega),
    File.get16_eq (f := f) (optOf f + 68) (by omega), File.get32_eq (f := f) (optOf f + 28) (by omega),
    File.get32_eq (f := f) (optOf f + 56) (by omega), File.get32_eq (f := f) (optOf f + 16) (by omega),
    File.get32_eq (f := f) (optOf f + 72) (by omega),
    peDir_eq hfits (by decide : IMAGE_DIRECTORY_ENTRY_BASERELOC < 16),
    peDir_eq hfits (by decide : IMAGE_DIRECTORY_ENTRY_COM_DESCRIPTOR < 16),
    peDir_eq hfits (by decide : IMAGE_DIRECTORY_ENTRY_IMPORT < 16), bind, Except.bind]
  refine ⟨fun c =>
    { valid := true
      machine := f.image.rd16 (coffOf f), characteristics := f.image.rd16 (coffOf f + 18)
      subsystem := f.image.rd16 (optOf f + 68), imageBase := f.image.rd32 (optOf f + 28)
      sizeOfImage := f.image.rd32 (optOf f + 56), entryRva := f.image.rd32 (optOf f + 16)
      stackReserve := f.image.rd32 (optOf f + 72)
      relocsStripped := f.image.rd16 (coffOf f + 18) &&& IMAGE_FILE_RELOCS_STRIPPED ≠ 0
      isDll := f.image.rd16 (coffOf f + 18) &&& IMAGE_FILE_DLL ≠ 0
      hasRelocs := (dirOf f (optOf f) IMAGE_DIRECTORY_ENTRY_BASERELOC).isSome &&
        !(decide (f.image.rd16 (coffOf f + 18) &&& IMAGE_FILE_RELOCS_STRIPPED ≠ 0))
      isDotnet := (dirOf f (optOf f) IMAGE_DIRECTORY_ENTRY_COM_DESCRIPTOR).isSome
      numSections := numSections f
      importDllCount := c.1, importFuncCount := c.2 }, fun _ => rfl, ?_⟩
  cases dirOf f (optOf f) IMAGE_DIRECTORY_ENTRY_IMPORT with
  | none => rfl
  | some d =>
    cases countImports f ⟨tableOf f, numSections f⟩ d.1 fuel 0 0 0 with
    | ok c => rfl
    | error e => rfl

/-- For every file, `pe_inspect` reads inside of it, and what it accepts can
be loaded. -/
theorem peInspect_ensures (hs : f.size < 0x100000000) (fuel : Nat) (out : Bool) :
    Ensures (peInspect f fuel out)
      (fun r => r.1 = .ok → Loadable f ∧ (out = true → r.2.imageBase = imageBase f)) := by
  unfold peInspect
  rcases peHeaders_cases hs with ⟨hh, heq⟩ | ⟨err, coff, herr, heq, hcoff⟩
  · simp only [heq, peSections_eq hh, numSections_eq hh, bind, Except.bind]
    by_cases ht : HasTable f
    · simp only [if_pos ht]
      obtain ⟨r, hr, hiff⟩ := loadable_eq hh ht
      obtain ⟨g, hg, hfill⟩ := fillInfo_eq hh fuel
      cases out with
      | false =>
        simp only [Bool.false_eq_true, if_false, hr]
        exact .ok fun h => ⟨hiff.1 h, by simp⟩
      | true =>
        simp only [if_true, hfill, hr]
        have hcounts := importCounts_ensures ht fuel
        cases hc : importCounts f fuel with
        | ok c => exact .ok fun h => ⟨hiff.1 h, fun _ => hg c⟩
        | error e =>
          rw [hc] at hcounts
          exact hcounts
    · simp only [if_neg ht]
      exact .ok (by simp)
  · simp only [heq, bind, Except.bind]
    cases coff with
    | none => exact .ok fun h => absurd h herr
    | some c =>
      have hc := hcoff c rfl
      simp only [COFF_HEADER_BYTES] at hc
      refine .ite (fun _ => ?_) fun _ => .ok fun h => absurd h herr
      simp only [File.get16_eq (f := f) c (by omega), File.get16_eq (f := f) (c + 18) (by omega)]
      exact .ok fun h => absurd h herr

theorem peInspect_accepts (hs : f.size < 0x100000000) (h : Loadable f) (hl : sizeOfImage f ≤ 0x1000000)
    {fuel : Nat} (hf : 0x8000000 ≤ fuel) :
    ∃ info : Info, info.imageBase = imageBase f ∧ peInspect f fuel true = .ok (.ok, info) := by
  obtain ⟨r, hr, hiff⟩ := loadable_eq h.headers h.table
  obtain ⟨g, hg, hfill⟩ := fillInfo_eq h.headers fuel
  obtain rfl : r = .ok := hiff.2 h
  have hb : Bounded f ⟨tableOf f, numSections f⟩ (sizeOfImage f) := by
    intro rva need hrva
    have hrows : TableFits f (tableOf f) (numSections f) 0 := h.table.fits
    rw [rvaPtr, rvaToOffset_zero hrows hrva fun j _ hj => (h.sections j (by omega)).2]
    rfl
  have hends : ∃ c, importCounts f fuel = .ok c := by
    unfold importCounts
    split
    · exact ⟨_, rfl⟩
    · exact countImports_ends h.table.fits hb hl _ 0 0 0 (by omega) (by omega)
  obtain ⟨c, hc⟩ := hends
  refine ⟨g c, hg c, ?_⟩
  unfold peInspect
  simp only [peHeaders_eq hs h.headers, peSections_eq h.headers, numSections_eq h.headers, if_pos h.table, bind,
    Except.bind, if_true, hfill, hc, Except.map, hr]

end Inspect

end NovarisOS.Pe
