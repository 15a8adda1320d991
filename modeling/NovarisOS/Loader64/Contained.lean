/-
NovarisOS.Loader64.Contained — the two loaders stay in the file and in the
user half, and when.

For an ELF image the condition is one on the file alone (`Elf.ElfFits`), and
it is exact. Of a Windows image the loader checks next to nothing:
`HeaderFits` and `PlaceFits` say what the headers must be like, and `StepFits`
what must hold of the state before each step, where a section, a relocation or
an address table is come to.
-/
import NovarisOS.Loader64.ElfTheorems
import NovarisOS.Loader64.Pe

namespace NovarisOS.Loader64

open Checked

namespace Pe

/-! ## What a file must be like -/

section Conditions

variable (f : File)

def peOff : Nat := f.image.rd32 0x3C

/-- The signature is there, for the right machine. -/
def Signed : Prop :=
  f.image (peOff f) = 0x50 ∧ f.image (u32 (peOff f + 1)) = 0x45 ∧ f.image (u32 (peOff f + 2)) = 0 ∧
    f.image (u32 (peOff f + 3)) = 0 ∧ f.image.rd16 (peOff f + 4) = IMAGE_FILE_MACHINE_AMD64

def optOff : Nat := u32 (peOff f + 24)

def sizeOpt : Nat := f.image.rd16 (peOff f + 20)

def nSections : Nat := f.image.rd16 (peOff f + 6)

/-- As far as the file is looked at, the header that `e_lfanew` names, the
optional header and the section table are in it. -/
def HeaderFits : Prop :=
  0x40 ≤ f.size → f.image.rd16 0 = 0x5A4D → optOff f ≤ f.size →
    peOff f + 24 ≤ f.size ∧
      (Signed f → optOff f + 2 ≤ f.size ∧
        (f.image.rd16 (optOff f) = PE32PLUS_MAGIC → optOff f + 112 ≤ f.size ∧
          (u32 (optOff f + sizeOpt f) + nSections f * SECTION_HDR_BYTES ≤ f.size →
            optOff f + sizeOpt f + nSections f * SECTION_HDR_BYTES ≤ f.size)))

/-- The image begins at a page, and ends with its thunk page in the user
half. -/
def PlaceFits (img : Image) : Prop :=
  img.base % PAGE64_SIZE = 0 ∧ img.base + img.sizeImage + PAGE64_SIZE ≤ USPACE64_LIMIT

/-- What the beginning needs. -/
def Starts (bias : Nat) : Prop := HeaderFits f ∧ ∀ img, parse f bias = .ok (.ok img) → PlaceFits img

/-- What the step that comes next needs. -/
def StepFits (y : System) (name : Option (List UInt8)) (s : State) : Prop :=
  match s.phase with
  | .headers => s.img.sizeHeaders ≤ f.size → s.img.base + s.img.sizeHeaders ≤ s.img.stop
  | .sections i =>
    i < s.img.nSections →
      f.image.rd32 (s.img.sections + SECTION_HDR_BYTES * i + 20) +
          f.image.rd32 (s.img.sections + SECTION_HDR_BYTES * i + 16) ≤ f.size →
        f.image.rd32 (s.img.sections + SECTION_HDR_BYTES * i + 16) = 0 ∨
          s.img.base + f.image.rd32 (s.img.sections + SECTION_HDR_BYTES * i + 12) +
            f.image.rd32 (s.img.sections + SECTION_HDR_BYTES * i + 16) ≤ s.img.stop
  | .relocations => s.img.bias ≠ 0 → s.img.nDirs > DIR_BASERELOC → s.img.dirs + 48 ≤ f.size
  | .entry p _ n k =>
    k < n → relocWord s p k / 0x1000 = REL_BASED_DIR64 → s.img.base + relocRva s p k + 8 ≤ s.img.stop
  | .register => name ≠ none → s.modules.length < MAX_MODULES → s.img.nDirs > DIR_EXPORT → s.img.dirs + 8 ≤ f.size
  | .imports => s.img.nDirs > DIR_IMPORT → s.img.dirs + 16 ≤ f.size
  | .thunk _ dll lookup iat =>
    s.space.mem.rd64 lookup ≠ 0 →
      exported y s dll lookup ≠ 0 ∨
        (∃ a, fname s lookup = some a ∧ 0 ≤ y.win32Resolve s.calls s.space.mem dll a ∧
          u64 (s.thunkNext + THUNK_SIZE) ≤ u64 s.img.stop) →
        s.img.base ≤ iat ∧ iat + 8 ≤ s.img.stop
  | _ => True

end Conditions

/-! ## Headers -/

section Headers

variable {f : File}

theorem u32_le (n : Nat) : u32 n ≤ n := Nat.mod_le _ _

theorem signature_eq (h : peOff f + 24 ≤ f.size) :
    ∃ b, signature f (peOff f) = .ok b ∧
      (b = true → f.image (peOff f) = 0x50 ∧ f.image (u32 (peOff f + 1)) = 0x45 ∧
        f.image (u32 (peOff f + 2)) = 0 ∧ f.image (u32 (peOff f + 3)) = 0) := by
  have h₁ := u32_le (peOff f + 1)
  have h₂ := u32_le (peOff f + 2)
  have h₃ := u32_le (peOff f + 3)
  unfold signature
  simp only [File.get8_eq (f := f) (peOff f) (by omega), File.get8_eq (f := f) (u32 (peOff f + 1)) (by omega),
    File.get8_eq (f := f) (u32 (peOff f + 2)) (by omega), File.get8_eq (f := f) (u32 (peOff f + 3)) (by omega),
    Bind.bind, Except.bind]
  split
  case isTrue => exact ⟨false, rfl, by simp⟩
  case isFalse c₀ =>
  split
  case isTrue => exact ⟨false, rfl, by simp⟩
  case isFalse c₁ =>
  split
  case isTrue => exact ⟨false, rfl, by simp⟩
  case isFalse c₂ =>
  refine ⟨_, rfl, fun hb => ⟨?_, ?_, ?_, ?_⟩⟩
  · exact UInt8.toNat_inj.1 (by simpa using c₀)
  · exact UInt8.toNat_inj.1 (by simpa using c₁)
  · exact UInt8.toNat_inj.1 (by simpa using c₂)
  · exact UInt8.toNat_inj.1 (by simpa using hb)

theorem parse_ensures (h : HeaderFits f) (bias : Nat) :
    Ensures (parse f bias) (fun r => ∀ img, r = .ok img →
      img.sections + img.nSections * SECTION_HDR_BYTES ≤ f.size) := by
  refine .ite (fun _ => .ok (by simp)) fun hsize => ?_
  simp only [File.get16_eq (f := f) 0 (by omega), File.get32_eq (f := f) 0x3C (by omega), Bind.bind, Except.bind]
  refine .ite (fun _ => .ok (by simp)) fun hmz => .ite (fun _ => .ok (by simp)) fun hoff => ?_
  obtain ⟨hpe, hsigned⟩ := h (by omega) (by simpa using hmz) (Nat.not_lt.1 hoff)
  obtain ⟨b, hb, hsig⟩ := signature_eq hpe
  have hb' : signature f (f.image.rd32 0x3C) = .ok b := hb
  have hpe' : f.image.rd32 0x3C + 24 ≤ f.size := hpe
  simp only [hb']
  refine .ite (fun _ => .ok (by simp)) fun hfound => ?_
  simp only [File.get16_eq (f := f) (f.image.rd32 0x3C + 4) (by omega),
    File.get16_eq (f := f) (f.image.rd32 0x3C + 6) (by omega),
    File.get16_eq (f := f) (f.image.rd32 0x3C + 20) (by omega)]
  refine .ite (fun _ => .ok (by simp)) fun hmach => ?_
  obtain ⟨c₀, c₁, c₂, c₃⟩ := hsig (by simpa using hfound)
  obtain ⟨hopt, hmagic⟩ := hsigned ⟨c₀, c₁, c₂, c₃, by simpa [peOff] using hmach⟩
  simp only [File.get16_eq (f := f) (u32 (f.image.rd32 0x3C + 24)) hopt]
  refine .ite (fun _ => .ok (by simp)) fun hmag => ?_
  obtain ⟨hfields, htable⟩ := hmagic (by simpa [optOff, peOff] using hmag)
  have hfields' : u32 (f.image.rd32 0x3C + 24) + 112 ≤ f.size := hfields
  unfold optionalHeader
  simp only [File.get32_eq (f := f) (u32 (f.image.rd32 0x3C + 24) + 16) (by omega),
    File.get64_eq (f := f) (u32 (f.image.rd32 0x3C + 24) + 24) (by omega),
    File.get32_eq (f := f) (u32 (f.image.rd32 0x3C + 24) + 56) (by omega),
    File.get32_eq (f := f) (u32 (f.image.rd32 0x3C + 24) + 60) (by omega),
    File.get32_eq (f := f) (u32 (f.image.rd32 0x3C + 24) + 108) (by omega), Bind.bind, Except.bind]
  refine .ite (fun _ => .ok (by simp)) fun hfit => .ok fun img himg => ?_
  obtain rfl := Except.ok.inj himg
  exact htable (Nat.not_lt.1 hfit)

end Headers

/-! ## Steps -/

section Steps

variable {y : System} {f : File} {name : Option (List UInt8)} {bias : Nat} {s : State}

/-- What is known of the places the loader has come to. -/
def PhaseInv (s : State) : Prop :=
  match s.phase with
  | .parse => False
  | .mapPages va => s.img.base ≤ va ∧ va % PAGE64_SIZE = 0
  | .descriptor _ => s.img.thunkVa ≤ s.thunkNext ∧ s.thunkNext ≤ s.img.stop
  | .thunk .. => s.img.thunkVa ≤ s.thunkNext ∧ s.thunkNext ≤ s.img.stop
  | _ => True

structure Inv (f : File) (s : State) : Prop where
  place : PlaceFits s.img
  table : s.img.sections + s.img.nSections * SECTION_HDR_BYTES ≤ f.size
  phase : PhaseInv s

variable {img : Image} {fits : Prop}

theorem PlaceFits.stop (h : PlaceFits img) :
    img.base ≤ img.thunkVa ∧ img.stop ≤ USPACE64_LIMIT ∧ img.thunkVa % PAGE64_SIZE = 0 := by
  obtain ⟨halign, hend⟩ := h
  simp only [PAGE64_SIZE, USPACE64_LIMIT] at halign hend
  have hu : u64 (img.base + img.sizeImage + PAGE64_SIZE - 1) = img.base + img.sizeImage + 4095 := by
    exact u64_of_lt (by simp only [PAGE64_SIZE]; omega)
  simp only [Image.stop, Image.thunkVa, hu, pageOf, PAGE64_SIZE, USPACE64_LIMIT]
  omega

theorem PlaceFits.owns_iff (h : PlaceFits img) {va n : Nat} :
    img.Owns va n ↔ img.base ≤ va ∧ va + n ≤ img.stop := by
  have := h.stop.2.1
  unfold Image.Owns
  omega

theorem PlaceFits.base_lt (h : PlaceFits img) : img.base < USPACE64_LIMIT := by
  obtain ⟨-, hend⟩ := h
  simp only [PAGE64_SIZE, USPACE64_LIMIT] at *
  omega

theorem PlaceFits.addr (h : PlaceFits img) {rva : Nat} (hr : rva < 0x200000000) :
    u64 (img.base + rva) = img.base + rva := by
  have := h.base_lt
  simp only [USPACE64_LIMIT] at this
  exact u64_of_lt (by omega)

theorem Inv.next (h : Inv f s) {s' : State} (himg : s'.img = s.img) (hp : PhaseInv s') : Inv f s' where
  place := by
    rw [himg]
    exact h.place
  table := by
    rw [himg]
    exact h.table
  phase := hp

/-- The step makes no fault exactly when it fits, and goes on to a state like
the one before. -/
structure Sound (f : File) (x : Except Stop State) (fits : Prop) : Prop where
  faultless : Faultless x ↔ fits
  next : ∀ s', x = .ok s' → Inv f s'

theorem Sound.ok (hf : fits) {s' : State} (hs : Inv f s') : Sound f (.ok s') fits where
  faultless := ⟨fun _ => hf, fun _ h => by cases h⟩
  next := by
    intro s'' h
    cases h
    exact hs

theorem Sound.fault (hf : ¬ fits) : Sound f (.error .fault) fits where
  faultless := ⟨fun h => absurd rfl h, fun h => absurd h hf⟩
  next := fun _ h => by cases h

theorem stepMap_sound {va : Nat} (h : Inv f s) (hp : s.phase = .mapPages va) :
    Sound f (stepMap y s va) True := by
  have hphase := h.phase
  rw [PhaseInv, hp] at hphase
  obtain ⟨hbase, halign⟩ := hphase
  obtain ⟨-, hlimit, hthunk⟩ := h.place.stop
  have hstop : u64 s.img.stop = s.img.stop := by
    simp only [USPACE64_LIMIT] at hlimit
    exact u64_of_lt (by omega)
  have hnext : s.img.base ≤ va + PAGE64_SIZE ∧ (va + PAGE64_SIZE) % PAGE64_SIZE = 0 := by
    rw [Nat.add_mod_right]
    exact ⟨by omega, halign⟩
  unfold stepMap
  rw [hstop]
  split
  case isFalse => exact .ok trivial (h.next rfl trivial)
  case isTrue hlt =>
  split
  case isTrue => exact .ok trivial (h.next rfl hnext)
  case isFalse =>
  simp only
  split
  case isTrue => exact .ok trivial (h.next rfl trivial)
  case isFalse =>
  have hpage : pageOf va = va := Nat.div_mul_cancel (Nat.dvd_of_mod_eq_zero halign)
  have howns : s.img.Owns (pageOf va) PAGE64_SIZE := by
    rw [h.place.owns_iff, hpage]
    refine ⟨hbase, ?_⟩
    simp only [Image.stop, PAGE64_SIZE] at *
    omega
  rw [mapPage, if_pos howns]
  exact .ok trivial (h.next rfl hnext)

theorem stepHeaders_sound (h : Inv f s) (hp : s.phase = .headers) :
    Sound f (stepHeaders f s) (StepFits f y name s) := by
  simp only [StepFits, hp]
  unfold stepHeaders
  split
  case isTrue hbig => exact .ok (fun hle => absurd hle (Nat.not_le.2 hbig)) (h.next rfl trivial)
  case isFalse hle =>
  have hbase := h.place.stop.1
  unfold copyIn
  by_cases hfit : s.img.base + s.img.sizeHeaders ≤ s.img.stop
  · rw [if_pos ⟨by omega, .inr (h.place.owns_iff.2 ⟨Nat.le_refl _, hfit⟩)⟩]
    exact .ok (fun _ => hfit) (h.next rfl trivial)
  · rw [if_neg]
    · exact .fault fun hall => hfit (hall (by omega))
    · rintro ⟨-, hzero | howns⟩
      · simp only [Image.stop] at hfit
        omega
      · exact hfit (h.place.owns_iff.1 howns).2

theorem stepSection_sound {i : Nat} (h : Inv f s) (hp : s.phase = .sections i) :
    Sound f (stepSection f s i) (StepFits f y name s) := by
  simp only [StepFits, hp]
  unfold stepSection
  by_cases hi : i < s.img.nSections
  · have htable := h.table
    have hrow : s.img.sections + SECTION_HDR_BYTES * i + SECTION_HDR_BYTES ≤ f.size := by
      simp only [SECTION_HDR_BYTES] at *
      omega
    simp only [SECTION_HDR_BYTES] at hrow
    rw [if_pos hi]
    simp only [SECTION_HDR_BYTES, File.get32_eq (f := f) (s.img.sections + 40 * i + 12) (by omega),
      File.get32_eq (f := f) (s.img.sections + 40 * i + 16) (by omega),
      File.get32_eq (f := f) (s.img.sections + 40 * i + 20) (by omega), Bind.bind, Except.bind]
    split
    case isTrue hzero => exact .ok (fun _ _ => .inl hzero) (h.next rfl trivial)
    case isFalse hzero =>
    split
    case isTrue hbig => exact .ok (fun _ hle => absurd hle (Nat.not_le.2 hbig)) (h.next rfl trivial)
    case isFalse hle =>
    have hva := Mem.rd32_lt f.image (s.img.sections + 40 * i + 12)
    rw [h.place.addr (by omega)]
    unfold copyIn
    by_cases hfit : s.img.base + f.image.rd32 (s.img.sections + 40 * i + 12) +
        f.image.rd32 (s.img.sections + 40 * i + 16) ≤ s.img.stop
    · rw [if_pos ⟨by omega, .inr (h.place.owns_iff.2 ⟨by omega, hfit⟩)⟩]
      exact .ok (fun _ _ => .inr hfit) (h.next rfl trivial)
    · rw [if_neg]
      · refine .fault fun hall => ?_
        rcases hall hi (by omega) with hz | hin
        · exact hzero hz
        · exact hfit hin
      · rintro ⟨-, hz | howns⟩
        · exact hzero hz
        · exact hfit (h.place.owns_iff.1 howns).2
  · rw [if_neg hi]
    exact .ok (fun hlt => absurd hlt hi) (h.next rfl trivial)

theorem stepRelocations_sound (h : Inv f s) (hp : s.phase = .relocations) :
    Sound f (stepRelocations f s) (StepFits f y name s) := by
  simp only [StepFits, hp]
  unfold stepRelocations dirSize dirVa
  by_cases hdir : s.img.bias ≠ 0 ∧ s.img.nDirs > DIR_BASERELOC
  · rw [if_pos hdir]
    by_cases hfit : s.img.dirs + 48 ≤ f.size
    · simp only [File.get32_eq (f := f) (s.img.dirs + 8 * DIR_BASERELOC + 4) (by simp only [DIR_BASERELOC]; omega),
        File.get32_eq (f := f) (s.img.dirs + 8 * DIR_BASERELOC) (by simp only [DIR_BASERELOC]; omega), Bind.bind,
        Except.bind]
      split
      · exact .ok (fun _ _ => hfit) (h.next rfl trivial)
      · exact .ok (fun _ _ => hfit) (h.next rfl trivial)
    · rw [File.get32, if_neg (by simp only [DIR_BASERELOC]; omega)]
      exact .fault fun hall => hfit (hall hdir.1 hdir.2)
  · rw [if_neg hdir]
    exact .ok (fun h₁ h₂ => absurd ⟨h₁, h₂⟩ hdir) (h.next rfl trivial)

theorem stepBlock_sound {p stop : Nat} (h : Inv f s) : Sound f (.ok (stepBlock s p stop)) True := by
  unfold stepBlock
  split
  · simp only
    split
    · exact .ok trivial (h.next rfl trivial)
    · exact .ok trivial (h.next rfl trivial)
  · exact .ok trivial (h.next rfl trivial)

theorem stepEntry_sound {p stop n k : Nat} (h : Inv f s) (hp : s.phase = .entry p stop n k) :
    Sound f (stepEntry s p stop n k) (StepFits f y name s) := by
  simp only [StepFits, hp]
  unfold stepEntry
  by_cases hk : k < n
  · rw [if_pos hk]
    by_cases hdir : relocWord s p k / 0x1000 = REL_BASED_DIR64
    · rw [if_pos hdir]
      have hrva : relocRva s p k < 0x200000000 := by
        have := Mem.rd32_lt s.space.mem p
        unfold relocRva
        omega
      simp only [h.place.addr hrva]
      unfold set64
      by_cases hfit : s.img.base + relocRva s p k + 8 ≤ s.img.stop
      · rw [if_pos (h.place.owns_iff.2 ⟨by omega, hfit⟩)]
        exact .ok (fun _ _ => hfit) (h.next rfl trivial)
      · rw [if_neg fun howns => hfit (h.place.owns_iff.1 howns).2]
        exact .fault fun hall => hfit (hall hk hdir)
    · rw [if_neg hdir]
      split
      · exact .ok (fun _ hd => absurd hd hdir) (h.next rfl trivial)
      · exact .ok (fun _ hd => absurd hd hdir) (h.next rfl trivial)
  · rw [if_neg hk]
    exact .ok (fun hlt => absurd hlt hk) (h.next rfl trivial)

theorem stepRegister_sound (h : Inv f s) (hp : s.phase = .register) :
    Sound f (stepRegister f name s) (StepFits f y name s) := by
  simp only [StepFits, hp]
  unfold stepRegister dirSize dirVa
  cases name with
  | none => exact .ok (fun hne => absurd rfl hne) (h.next rfl trivial)
  | some name =>
    simp only
    split
    case isTrue hfull => exact .ok (fun _ hlt => absurd hlt (Nat.not_lt.2 hfull)) (h.next rfl trivial)
    case isFalse hroom =>
    split
    case isFalse hnone => exact .ok (fun _ _ hlt => absurd hlt hnone) (h.next rfl trivial)
    case isTrue hdir =>
    by_cases hfit : s.img.dirs + 8 ≤ f.size
    · simp only [File.get32_eq (f := f) (s.img.dirs + 8 * DIR_EXPORT) (by simp only [DIR_EXPORT]; omega),
        File.get32_eq (f := f) (s.img.dirs + 8 * DIR_EXPORT + 4) (by simp only [DIR_EXPORT]; omega), Bind.bind,
        Except.bind]
      exact .ok (fun _ _ _ => hfit) (h.next rfl trivial)
    · have hnot : ¬ (some name ≠ none → s.modules.length < MAX_MODULES → s.img.nDirs > DIR_EXPORT →
          s.img.dirs + 8 ≤ f.size) := fun hall => hfit (hall (by simp) (Nat.not_le.1 hroom) hdir)
      have hsize : f.get32 (s.img.dirs + 8 * DIR_EXPORT + 4) = .error .fault :=
        if_neg (by simp only [DIR_EXPORT]; omega)
      rw [hsize, File.get32]
      split
      · exact .fault hnot
      · exact .fault hnot

theorem stepImports_sound (h : Inv f s) (hp : s.phase = .imports) :
    Sound f (stepImports f s) (StepFits f y name s) := by
  simp only [StepFits, hp]
  unfold stepImports dirSize dirVa
  by_cases hdir : s.img.nDirs > DIR_IMPORT
  · rw [if_pos hdir]
    by_cases hfit : s.img.dirs + 16 ≤ f.size
    · simp only [File.get32_eq (f := f) (s.img.dirs + 8 * DIR_IMPORT + 4) (by simp only [DIR_IMPORT]; omega),
        File.get32_eq (f := f) (s.img.dirs + 8 * DIR_IMPORT) (by simp only [DIR_IMPORT]; omega), Bind.bind,
        Except.bind]
      split
      · exact .ok (fun _ => hfit) (h.next rfl trivial)
      · exact .ok (fun _ => hfit) (h.next rfl ⟨Nat.le_refl _, Nat.le_add_right _ _⟩)
    · rw [File.get32, if_neg (by simp only [DIR_IMPORT]; omega)]
      exact .fault fun hall => hfit (hall hdir)
  · rw [if_neg hdir]
    exact .ok (fun hlt => absurd hlt hdir) (h.next rfl trivial)

theorem stepDescriptor_sound {d : Nat} (h : Inv f s) (hp : s.phase = .descriptor d) :
    Sound f (.ok (stepDescriptor s d)) True := by
  have hphase : s.img.thunkVa ≤ s.thunkNext ∧ s.thunkNext ≤ s.img.stop := by
    have := h.phase
    rwa [PhaseInv, hp] at this
  unfold stepDescriptor
  simp only
  split
  · exact .ok trivial (h.next rfl trivial)
  · exact .ok trivial (h.next rfl hphase)

theorem bind_sound {d dll lookup iat addr : Nat} (h : Inv f s)
    (hnext : s.img.thunkVa ≤ s.thunkNext ∧ s.thunkNext ≤ s.img.stop)
    (hfits : fits ↔ s.img.base ≤ iat ∧ iat + 8 ≤ s.img.stop) :
    Sound f (bind s d dll lookup iat addr) fits := by
  unfold bind set64
  by_cases hin : s.img.base ≤ iat ∧ iat + 8 ≤ s.img.stop
  · rw [if_pos (h.place.owns_iff.2 hin)]
    exact .ok (hfits.2 hin) (h.next rfl hnext)
  · rw [if_neg fun howns => hin (h.place.owns_iff.1 howns)]
    exact .fault fun hf => hin (hfits.1 hf)

theorem stepThunk_sound {d dll lookup iat : Nat} (h : Inv f s) (hp : s.phase = .thunk d dll lookup iat) :
    Sound f (stepThunk y s d dll lookup iat) (StepFits f y name s) := by
  have hphase : s.img.thunkVa ≤ s.thunkNext ∧ s.thunkNext ≤ s.img.stop := by
    have := h.phase
    rwa [PhaseInv, hp] at this
  simp only [StepFits, hp]
  unfold stepThunk
  split
  case isTrue hzero => exact .ok (fun hne => absurd hzero hne) (h.next rfl hphase)
  case isFalse hword =>
  split
  case isTrue hexp =>
    refine bind_sound h hphase ⟨fun hall => hall hword (.inl hexp), fun hin _ _ => hin⟩
  case isFalse hexp =>
  split
  case h_1 hname =>
    refine .ok (fun _ hor => ?_) (h.next rfl trivial)
    rcases hor with hne | ⟨a, ha, -⟩
    · exact absurd hne hexp
    · rw [hname] at ha
      cases ha
  case h_2 a hname =>
  -- The import goes on to a thunk exactly when it is resolved and there is room.
  have hor : (exported y s dll lookup ≠ 0 ∨ ∃ a', fname s lookup = some a' ∧
      0 ≤ y.win32Resolve s.calls s.space.mem dll a' ∧ u64 (s.thunkNext + THUNK_SIZE) ≤ u64 s.img.stop) ↔
      0 ≤ y.win32Resolve s.calls s.space.mem dll a ∧ u64 (s.thunkNext + THUNK_SIZE) ≤ u64 s.img.stop := by
    constructor
    · rintro (hne | ⟨a', ha', hres⟩)
      · exact absurd hne hexp
      · rw [hname] at ha'
        cases ha'
        exact hres
    · exact fun hres => .inr ⟨a, hname, hres⟩
  rw [hor]
  simp only
  split
  case isTrue hneg => exact .ok (fun _ hres => by omega) (h.next rfl trivial)
  case isFalse hnum =>
  split
  case isTrue hfull => exact .ok (fun _ hres => by omega) (h.next rfl trivial)
  case isFalse hroom =>
  obtain ⟨hbase, hlimit, -⟩ := h.place.stop
  have hstop : u64 s.img.stop = s.img.stop := by
    simp only [USPACE64_LIMIT] at hlimit
    exact u64_of_lt (by omega)
  have hnext : u64 (s.thunkNext + THUNK_SIZE) = s.thunkNext + THUNK_SIZE := by
    simp only [USPACE64_LIMIT] at hlimit
    exact u64_of_lt (by simp only [THUNK_SIZE]; omega)
  rw [hstop, hnext] at hroom ⊢
  rw [writeThunk, if_pos (h.place.owns_iff.2 ⟨by omega, by omega⟩)]
  refine bind_sound (h.next rfl (by simp only [PhaseInv, hp]; exact ⟨by omega, by omega⟩)) ⟨?_, ?_⟩
      ⟨fun hall => ?_, ?_⟩
  · show s.img.thunkVa ≤ s.thunkNext + THUNK_SIZE
    omega
  · show s.thunkNext + THUNK_SIZE ≤ s.img.stop
    omega
  · exact hall hword ⟨by omega, by omega⟩
  · exact fun hin _ _ => hin

theorem step_sound (h : Inv f s) : Sound f (step y f name bias s) (StepFits f y name s) := by
  unfold step
  cases hph : s.phase with
  | parse =>
    have := h.phase
    rw [PhaseInv, hph] at this
    exact this.elim
  | mapPages va =>
    simp only [StepFits, hph]
    exact stepMap_sound h hph
  | headers => exact stepHeaders_sound h hph
  | sections i => exact stepSection_sound h hph
  | relocations => exact stepRelocations_sound h hph
  | block p stop =>
    simp only [StepFits, hph]
    exact stepBlock_sound h
  | entry p stop n k => exact stepEntry_sound h hph
  | register => exact stepRegister_sound h hph
  | imports => exact stepImports_sound h hph
  | descriptor d =>
    simp only [StepFits, hph]
    exact stepDescriptor_sound h hph
  | thunk d dll lookup iat => exact stepThunk_sound h hph
  | done r =>
    simp only [StepFits, hph]
    exact .ok trivial h

end Steps

/-! ## Runs -/

section Runs

variable {y : System} {f : File} {name : Option (List UInt8)} {bias : Nat}

theorem steps_inv {n : Nat} {s t : State} (h : Inv f s) (ht : steps y f name bias n s = .ok t) : Inv f t := by
  induction n generalizing s with
  | zero =>
    cases ht
    exact h
  | succ n ih =>
    rw [steps] at ht
    cases hstep : step y f name bias s with
    | error e =>
      rw [hstep] at ht
      cases ht
    | ok s' =>
      rw [hstep] at ht
      exact ih ((step_sound h).next s' hstep) ht

theorem steps_succ (n : Nat) (s : State) :
    steps y f name bias (n + 1) s = steps y f name bias n s >>= step y f name bias := by
  induction n generalizing s with
  | zero =>
    simp only [steps, Bind.bind, Except.bind]
    cases step y f name bias s <;> rfl
  | succ n ih =>
    rw [steps, steps]
    cases step y f name bias s with
    | error e => rfl
    | ok s' => exact ih s'

theorem steps_faultless_iff {s : State} (h : Inv f s) :
    (∀ n, Faultless (steps y f name bias n s)) ↔
      ∀ n t, steps y f name bias n s = .ok t → StepFits f y name t := by
  constructor
  · intro hf n t ht
    have hnext := hf (n + 1)
    rw [steps_succ, ht] at hnext
    exact (step_sound (steps_inv h ht)).faultless.1 hnext
  · intro hfit n
    induction n generalizing s with
    | zero => exact fun hc => by cases hc
    | succ n ih =>
      have hstep : Faultless (step y f name bias s) := (step_sound h).faultless.2 (hfit 0 s rfl)
      cases hs : step y f name bias s with
      | error e =>
        rw [steps, hs]
        rw [hs] at hstep
        exact hstep
      | ok s' =>
        have hok : ∀ n, steps y f name bias (n + 1) s = steps y f name bias n s' := fun n => by
          rw [steps, hs]
          rfl
        rw [hok]
        exact ih ((step_sound h).next s' hs) fun n t ht => hfit (n + 1) t (by rw [hok, ht])

/-- With headers that fit, no fault in a whole load exactly as long as every
step fits. -/
theorem load_faultless_iff (hstart : Starts f bias) (space : Space) (modules : List Module) :
    (∀ n, Faultless (steps y f name bias n (start space modules))) ↔
      ∀ n t, steps y f name bias n (start space modules) = .ok t → StepFits f y name t := by
  obtain ⟨hheader, hplace⟩ := hstart
  have hparse := parse_ensures hheader bias
  have hzero : StepFits f y name (start space modules) := trivial
  cases hp : parse f bias with
  | error e =>
    rw [hp] at hparse
    obtain rfl : e = .fuel := hparse
    have hstop : ∀ n, steps y f name bias (n + 1) (start space modules) = .error .fuel := fun n => by
      simp only [steps, step, start, hp, Bind.bind, Except.bind]
    refine ⟨fun _ n t ht => ?_, fun _ n => ?_⟩
    · cases n with
      | zero =>
        cases ht
        exact hzero
      | succ n =>
        rw [hstop] at ht
        cases ht
    · cases n with
      | zero => exact fun hc => by cases hc
      | succ n =>
        rw [hstop]
        exact fun hc => by cases hc
  | ok r =>
    -- The first step is made; all others are from where it leads.
    obtain ⟨s', hstep, hinv⟩ : ∃ s', step y f name bias (start space modules) = .ok s' ∧ Inv f s' := by
      simp only [step, start, hp, Bind.bind, Except.bind]
      cases r with
      | error r => exact ⟨_, rfl, ⟨⟨rfl, show 0 + 0 + PAGE64_SIZE ≤ USPACE64_LIMIT by decide⟩, by simp [State.goTo], trivial⟩⟩
      | ok img =>
        have hfit := hplace img hp
        exact ⟨_, rfl, ⟨hfit, hparse.value hp img rfl, Nat.le_refl _, hfit.1⟩⟩
    have hok : ∀ n, steps y f name bias (n + 1) (start space modules) = steps y f name bias n s' := fun n => by
      rw [steps, hstep]
      rfl
    constructor
    · intro hf n t ht
      cases n with
      | zero =>
        cases ht
        exact hzero
      | succ n => exact (steps_faultless_iff hinv).1 (fun n => by rw [← hok]; exact hf (n + 1)) n t (by rw [← hok, ht])
    · intro hfit n
      cases n with
      | zero => exact fun hc => by cases hc
      | succ n =>
        rw [hok]
        exact (steps_faultless_iff hinv).2 (fun n t ht => hfit (n + 1) t (by rw [hok, ht])) n

end Runs

end Pe

/-- When the loaders keep to the file and to the user half, and the second to
its image and thunk page. For an ELF image: exactly when it fits, whatever the
kernel answers. For a Windows image with headers that fit: exactly when every
step of the load fits. -/
theorem loaders_contained (f : File64) :
    (∀ bias out, (∀ k s, Faultless (Elf.elf64LoadAt k f.toFile bias out s)) ↔ Elf.ElfFits f.toFile bias out) ∧
      ∀ y name bias space modules, Pe.Starts f.toFile bias →
        ((∀ n, Faultless (Pe.steps y f.toFile name bias n (Pe.start space modules))) ↔
          ∀ n t, Pe.steps y f.toFile name bias n (Pe.start space modules) = .ok t →
            Pe.StepFits f.toFile y name t) :=
  ⟨Elf.elf64LoadAt_faultless_iff f.toFile f.size_lt, fun _ _ _ space modules hstart =>
    Pe.load_faultless_iff hstart space modules⟩

/-! ### Two images for the kernel half -/

def zeros : Mem := fun _ => 0

/-- One segment of a byte at 0xFFFF800000000000, of which the file has
nothing. -/
def elfHigh : File64 where
  image := zeros.wr32 0 0x464C457F |>.wr16 4 0x0102 |>.wr16 16 Elf.ET_EXEC |>.wr16 18 Elf.EM_X86_64 |>.wr64 32 64
    |>.wr16 54 56 |>.wr16 56 1 |>.wr32 64 Elf.PT_LOAD |>.wr64 80 0xFFFF800000000000 |>.wr64 104 1
  size := 120
  size_lt := by decide

/-- An image of a byte for the same address, without sections. -/
def peHigh : File64 where
  image := zeros.wr16 0 0x5A4D |>.wr32 60 64 |>.wr32 64 0x4550 |>.wr16 68 Pe.IMAGE_FILE_MACHINE_AMD64 |>.wr16 84 112
    |>.wr16 88 Pe.PE32PLUS_MAGIC |>.wr64 112 0xFFFF800000000000 |>.wr32 144 1
  size := 200
  size_lt := by decide

def emptySpace : Space := ⟨zeros, fun _ => false, fun _ => false, 0⟩

def roomySystem : Pe.System := { Elf.roomy with moduleExport := fun _ _ _ _ _ => 0, win32Resolve := fun _ _ _ _ => -1 }

def isFault {α : Type} : Except Stop α → Bool
  | .error .fault => true
  | _ => false

theorem isFault_iff {α : Type} (x : Except Stop α) : isFault x = true ↔ ¬ Faultless x := by
  cases x with
  | ok a => simp [isFault, Faultless]
  | error e => cases e <;> simp [isFault, Faultless]

set_option maxRecDepth 20000

/-- Both are mapped where they ask to be. -/
theorem loaders_not_contained :
    ¬ Faultless (Elf.elf64LoadAt Elf.roomy elfHigh.toFile 0 false emptySpace) ∧
      ¬ Faultless (Pe.steps roomySystem peHigh.toFile none 0 2 (Pe.start emptySpace [])) :=
  ⟨(isFault_iff _).1 (by with_unfolding_all decide), (isFault_iff _).1 (by with_unfolding_all decide)⟩

end NovarisOS.Loader64
