/-
NovarisOS.Loader64.ElfTheorems — for which ELF images the loader stays in the
file and in the user half, whatever the kernel answers.

The checks of the source are on sums that wrap, and none of them is on the
address a segment is loaded at.
-/
import NovarisOS.Loader64.Elf

namespace NovarisOS.Loader64

open Checked

theorem u64_of_lt {n : Nat} (h : n < 0x10000000000000000) : u64 n = n := by
  rw [u64]
  exact Nat.mod_eq_of_lt h

theorem u64_lt (n : Nat) : u64 n < 0x10000000000000000 := by
  rw [u64]
  exact Nat.mod_lt _ (by decide)

namespace Elf

/-! ## What a file must be like -/

section Conditions

variable (f : File) (h : Header) (bias : Nat)

/-- If there is a page to be loaded: the segment ends in the user half, and
the part of it that is copied ends in the file. -/
def Segment.Fits (g : Segment) : Prop :=
  g.start < g.stop → g.stop ≤ USPACE64_LIMIT ∧
    (g.vaddr < g.fileEnd → g.offset + (min g.fileEnd g.stop - g.vaddr) ≤ f.size)

/-- The loader refuses the segment. -/
def Segment.Refused (g : Segment) : Prop := u64 (g.offset + g.filesz) > f.size ∨ g.filesz > g.memsz

def segmentOf (off : Nat) : Segment :=
  ⟨f.image.rd32 (off + 4) &&& PF_W ≠ 0, f.image.rd64 (off + 8), u64 (f.image.rd64 (off + 16) + bias),
    f.image.rd64 (off + 32), f.image.rd64 (off + 40)⟩

/-- The program headers from `i` on, up to one that is refused: each lies in
the file, and each segment fits. If none is refused, `last` holds. -/
def HeadersFit (last : Prop) : (n i : Nat) → Prop
  | 0, _ => last
  | n + 1, i =>
    h.phdr i + 4 ≤ f.size ∧
      if f.image.rd32 (h.phdr i) ≠ PT_LOAD then HeadersFit last n (i + 1)
      else
        h.phdr i + 48 ≤ f.size ∧
          if f.image.rd64 (h.phdr i + 40) = 0 then HeadersFit last n (i + 1)
          else
            (segmentOf f bias (h.phdr i)).Refused f ∨
              (segmentOf f bias (h.phdr i)).Fits f ∧ HeadersFit last n (i + 1)

/-- The program headers up to the one that names the interpreter lie in the
file, and so does the name. -/
def InterpFits (room : Nat) : (n i : Nat) → Prop
  | 0, _ => True
  | n + 1, i =>
    h.phdr i + 4 ≤ f.size ∧
      if f.image.rd32 (h.phdr i) ≠ PT_INTERP then InterpFits room n (i + 1)
      else
        h.phdr i + 40 ≤ f.size ∧
          (u64 (f.image.rd64 (h.phdr i + 8) + f.image.rd64 (h.phdr i + 32)) ≤ f.size →
            f.image.rd64 (h.phdr i + 32) ≠ 0 → f.image.rd64 (h.phdr i + 32) ≤ room →
              f.image.rd64 (h.phdr i + 8) + f.image.rd64 (h.phdr i + 32) ≤ f.size)

/-- The image can be loaded with the bias. -/
def ElfFits (out : Bool) : Prop :=
  ∀ h, checkHeader f = .ok (.ok, some h) →
    HeadersFit f h bias (out = true → InterpFits f h 128 h.phnum 0) h.phnum 0

end Conditions

/-! ## Pages -/

section Pages

variable {f : File} {g : Segment} {va n : Nat} {s : Space}

theorem start_le (g : Segment) : g.start ≤ g.vaddr := Nat.div_mul_le_self _ _

theorem stop_lt (g : Segment) : g.stop < 0x10000000000000000 :=
  Nat.lt_of_le_of_lt (Nat.div_mul_le_self _ _) (u64_lt _)

theorem start_add_pages (hlt : g.start < g.stop) : g.start + g.pages * PAGE64_SIZE = g.stop := by
  simp only [Segment.pages, Segment.start, Segment.stop, pageOf, PAGE64_SIZE] at *
  omega

theorem pages_eq_zero (h : ¬ g.start < g.stop) : g.pages = 0 := by
  have hz : g.stop - g.start = 0 := by omega
  rw [Segment.pages, hz]
  rfl

theorem copyPage_ensures (g : Segment) (va : Nat) (s : Space) (hs : f.size < 0x10000000000000000)
    (hva : va + PAGE64_SIZE ≤ g.stop)
    (hlimit : g.stop ≤ USPACE64_LIMIT)
    (hfile : g.vaddr < g.fileEnd → g.offset + (min g.fileEnd g.stop - g.vaddr) ≤ f.size) :
    Ensures (copyPage f g va s) (fun _ => True) := by
  have hpage : u64 (va + PAGE64_SIZE) = va + PAGE64_SIZE := by
    have hstop := stop_lt g
    exact u64_of_lt (by omega)
  refine .ite (fun hcopy => ?_) fun _ => .ok trivial
  have hoff : u64 (g.offset + (max va g.vaddr - g.vaddr)) = g.offset + (max va g.vaddr - g.vaddr) := by
    exact u64_of_lt (by omega)
  rw [hoff, Space.copyIn, if_pos ⟨by omega, by omega⟩]
  exact .ok trivial

theorem loadPage_ensures (k : Kernel) (g : Segment) (va : Nat) (s : Space)
    (hs : f.size < 0x10000000000000000) (hva : va + PAGE64_SIZE ≤ g.stop)
    (hlimit : g.stop ≤ USPACE64_LIMIT)
    (hfile : g.vaddr < g.fileEnd → g.offset + (min g.fileEnd g.stop - g.vaddr) ≤ f.size) :
    Ensures (loadPage k f g va s) (fun _ => True) := by
  have hin : va < USPACE64_LIMIT := by
    simp only [PAGE64_SIZE] at hva
    omega
  have hcopy : ∀ s : Space, Ensures (copyPage f g va s) (fun _ => True) :=
    fun s => copyPage_ensures g va s hs hva hlimit hfile
  refine .ite (fun _ => ?_) fun _ => .ite (fun _ => .ok trivial) fun _ => .ite (fun _ => .ok trivial) fun _ => ?_
  · have hshare : Ensures (sharePage g va s) (fun _ => True) := by
      refine .ite (fun _ => ?_) fun _ => .ok trivial
      rw [Space.map, if_pos hin]
      exact .ok trivial
    refine hshare.bind fun s _ => ?_
    exact (hcopy _).bind fun _ _ => .ok trivial
  · rw [Space.map, if_pos hin]
    simp only [bind, Except.bind]
    rw [Space.clear, if_pos (by omega)]
    exact (hcopy _).bind fun _ _ => .ok trivial

theorem loadPages_ensures (k : Kernel) (hs : f.size < 0x10000000000000000)
    (hva : va + n * PAGE64_SIZE ≤ g.stop) (hlimit : g.stop ≤ USPACE64_LIMIT)
    (hfile : g.vaddr < g.fileEnd → g.offset + (min g.fileEnd g.stop - g.vaddr) ≤ f.size) :
    Ensures (loadPages k f g n va s) (fun _ => True) := by
  induction n generalizing va s with
  | zero => exact .ok trivial
  | succ n ih =>
    rw [loadPages]
    have hpage : va + PAGE64_SIZE ≤ g.stop := by
      simp only [PAGE64_SIZE] at *
      omega
    refine (loadPage_ensures k g va s hs hpage hlimit hfile).bind fun r _ => .ite (fun _ => .ok trivial) fun _ => ih ?_
    simp only [PAGE64_SIZE] at *
    omega

theorem Segment.Fits.ensures (k : Kernel) (hs : f.size < 0x10000000000000000) (h : g.Fits f) :
    Ensures (loadPages k f g g.pages g.start s) (fun _ => True) := by
  by_cases hlt : g.start < g.stop
  · exact loadPages_ensures k hs (Nat.le_of_eq (start_add_pages hlt)) (h hlt).1 (h hlt).2
  · rw [pages_eq_zero hlt]
    exact .ok trivial

end Pages

/-! ## Headers -/

section Headers

variable {f : File} {h : Header} {bias : Nat}

theorem segmentAt_eq {off : Nat} (hoff : off + 48 ≤ f.size) :
    segmentAt f off bias (f.image.rd64 (off + 40)) = .ok (segmentOf f bias off) := by
  unfold segmentAt
  simp only [File.get32_eq (f := f) (off + 4) (by omega), File.get64_eq (f := f) (off + 8) (by omega),
    File.get64_eq (f := f) (off + 16) (by omega), File.get64_eq (f := f) (off + 32) (by omega), bind, Except.bind]
  rfl

theorem loadHeaders_ensures (k : Kernel) (hs : f.size < 0x10000000000000000) {last : Prop} {n i : Nat}
    (x : Found) (s : Space) (hfit : HeadersFit f h bias last n i) :
    Ensures (loadHeaders k f h bias n i x s) (fun r => r.1 = .ok → last) := by
  induction n generalizing i x s with
  | zero => exact .ok fun _ => hfit
  | succ n ih =>
    obtain ⟨htype, hrest⟩ := hfit
    rw [loadHeaders]
    simp only [File.get32_eq _ htype, bind, Except.bind]
    by_cases hload : f.image.rd32 (h.phdr i) ≠ PT_LOAD
    · rw [if_pos hload] at hrest ⊢
      exact ih x s hrest
    rw [if_neg hload] at hrest ⊢
    obtain ⟨hphdr, hrest⟩ := hrest
    simp only [File.get64_eq (f := f) (h.phdr i + 40) (by omega)]
    by_cases hmem : f.image.rd64 (h.phdr i + 40) = 0
    · rw [if_pos hmem] at hrest ⊢
      exact ih x s hrest
    rw [if_neg hmem] at hrest ⊢
    simp only [segmentAt_eq hphdr]
    refine .ite (fun _ => .ok fun hok => by cases hok) fun hnot => ?_
    rcases hrest with hrefused | ⟨hfits, hrest⟩
    · exact absurd hrefused hnot
    · refine (hfits.ensures k hs).bind fun r _ => .ite (fun hne => .ok fun hok => absurd hok hne) fun _ => ?_
      exact ih _ _ hrest

theorem interpFrom_ensures {room n i : Nat} (hfit : InterpFits f h room n i) :
    Ensures (interpFrom f h room n i) (fun _ => True) := by
  induction n generalizing i with
  | zero => exact .ok trivial
  | succ n ih =>
    obtain ⟨htype, hrest⟩ := hfit
    rw [interpFrom]
    simp only [File.get32_eq _ htype, bind, Except.bind]
    by_cases hint : f.image.rd32 (h.phdr i) ≠ PT_INTERP
    · rw [if_pos hint] at hrest ⊢
      exact ih hrest
    rw [if_neg hint] at hrest ⊢
    obtain ⟨hphdr, hname⟩ := hrest
    simp only [File.get64_eq (f := f) (h.phdr i + 8) (by omega), File.get64_eq (f := f) (h.phdr i + 32) (by omega)]
    refine .ite (fun _ => .ok trivial) fun hle => .ite (fun _ => .ok trivial) fun hroom => ?_
    rw [if_pos (hname (by omega) (by omega) (by omega))]
    exact .ok trivial

theorem interpFits_of_faultless {room n i : Nat} (hf : Faultless (interpFrom f h room n i)) :
    InterpFits f h room n i := by
  induction n generalizing i with
  | zero => trivial
  | succ n ih =>
    rw [interpFrom] at hf
    have htype := File.faultless_get32 hf
    refine ⟨htype, ?_⟩
    simp only [File.get32_eq _ htype, bind, Except.bind] at hf
    by_cases hint : f.image.rd32 (h.phdr i) ≠ PT_INTERP
    · rw [if_pos hint] at hf ⊢
      exact ih hf
    rw [if_neg hint] at hf ⊢
    have hoffset := File.faultless_get64 hf
    simp only [File.get64_eq _ hoffset] at hf
    have hsize := File.faultless_get64 hf
    simp only [File.get64_eq _ hsize] at hf
    refine ⟨by omega, fun hle hne hroom => ?_⟩
    rw [if_neg (by omega), if_neg (by omega)] at hf
    by_contra hout
    rw [if_neg hout] at hf
    exact hf rfl

theorem interpFrom_congr {h' : Header} (h₁ : h'.phoff = h.phoff) (h₂ : h'.phentsize = h.phentsize) (room n i : Nat) :
    interpFrom f h' room n i = interpFrom f h room n i := by
  have hphdr : ∀ i, h'.phdr i = h.phdr i := fun i => by rw [Header.phdr, Header.phdr, h₁, h₂]
  induction n generalizing i with
  | zero => rfl
  | succ n ih => simp only [interpFrom, hphdr, ih]

/-- What is known of a file that passes the first checks. -/
structure Accepted (f : File) (h : Header) : Prop where
  size : EHDR_BYTES ≤ f.size
  ident : f.image.rd16 0 = 0x457F
  phoff : f.image.rd64 32 = h.phoff
  phentsize : f.image.rd16 54 = h.phentsize
  phnum : f.image.rd16 56 = h.phnum

theorem rd16_of_rd32 {m : Mem} {off : Nat} : m.rd32 off % 0x10000 = m.rd16 off := by
  have h₀ := (m off).toNat_lt
  have h₁ := (m (off + 1)).toNat_lt
  rw [Mem.rd32, Mem.rd16]
  omega

theorem checkHeader_cases (f : File) :
    (∃ r, checkHeader f = .ok (r, none)) ∨ ∃ h, checkHeader f = .ok (.ok, some h) ∧ Accepted f h := by
  unfold checkHeader
  simp only [EHDR_BYTES]
  split
  case isTrue => exact .inl ⟨_, rfl⟩
  case isFalse hsize =>
  simp only [File.get32_eq (f := f) 0 (by omega), File.get8_eq (f := f) 4 (by omega),
    File.get8_eq (f := f) 5 (by omega), File.get16_eq (f := f) 18 (by omega), File.get16_eq (f := f) 16 (by omega),
    File.get64_eq (f := f) 24 (by omega), File.get64_eq (f := f) 32 (by omega),
    File.get16_eq (f := f) 54 (by omega), File.get16_eq (f := f) 56 (by omega), bind, Except.bind]
  split
  case isTrue => exact .inl ⟨_, rfl⟩
  case isFalse hident =>
  have hmagic : f.image.rd16 0 = 0x457F := by
    rw [← rd16_of_rd32, show f.image.rd32 0 = 0x464C457F by simpa using hident]
  split
  case isTrue => exact .inl ⟨_, rfl⟩
  case isFalse =>
  split
  case isTrue => exact .inl ⟨_, rfl⟩
  case isFalse =>
  split
  case isTrue => exact .inl ⟨_, rfl⟩
  case isFalse =>
  split
  case isTrue => exact .inl ⟨_, rfl⟩
  case isFalse => exact .inr ⟨_, rfl, by simp only [EHDR_BYTES]; omega, hmagic, rfl, rfl, rfl⟩

theorem Accepted.interp (ha : Accepted f h) (room : Nat) :
    elf64Interp f room = interpFrom f h room h.phnum 0 := by
  have hsize := ha.size
  simp only [EHDR_BYTES] at hsize
  unfold elf64Interp
  simp only [EHDR_BYTES]
  rw [if_neg (by omega)]
  simp only [File.get16_eq (f := f) 0 (by omega), File.get64_eq (f := f) 32 (by omega),
    File.get16_eq (f := f) 54 (by omega), File.get16_eq (f := f) 56 (by omega), bind, Except.bind]
  rw [if_neg (by simpa using ha.ident), ha.phnum]
  exact interpFrom_congr ha.phoff ha.phentsize room h.phnum 0

end Headers

/-! ## A space with room -/

section Room

/-- There is a frame for every page, and every page can be mapped. -/
def roomy : Kernel where
  frame := fun _ => PAGE64_SIZE
  mapOk := fun _ => true

/-- Only pages of the user half are there. -/
def Low (s : Space) : Prop := ∀ p, s.present p = true → p * PAGE64_SIZE < USPACE64_LIMIT

/-- What a page takes from the file is in it. -/
def CopyFits (f : File) (g : Segment) (va : Nat) : Prop :=
  max va g.vaddr < min (u64 (va + PAGE64_SIZE)) g.fileEnd →
    u64 (g.offset + (max va g.vaddr - g.vaddr)) +
      (min (u64 (va + PAGE64_SIZE)) g.fileEnd - max va g.vaddr) ≤ f.size

variable {f : File} {g : Segment} {va : Nat} {s : Space}

theorem copyPage_of_faultless (hf : Faultless (copyPage f g va s)) :
    CopyFits f g va ∧ ∃ m, copyPage f g va s = .ok { s with mem := m } := by
  unfold copyPage at *
  by_cases hcopy : min (u64 (va + PAGE64_SIZE)) g.fileEnd > max va g.vaddr
  · rw [if_pos hcopy] at hf ⊢
    unfold Space.copyIn at *
    split at hf
    · rename_i hin
      rw [if_pos hin]
      exact ⟨fun _ => hin.1, _, rfl⟩
    · exact absurd rfl hf
  · rw [if_neg hcopy]
    exact ⟨fun h => absurd h hcopy, s.mem, rfl⟩

theorem loadPage_of_faultless (hlow : Low s) (hva : va % PAGE64_SIZE = 0)
    (hf : Faultless (loadPage roomy f g va s)) :
    va < USPACE64_LIMIT ∧ CopyFits f g va ∧ ∃ s', loadPage roomy f g va s = .ok (.ok, s') ∧ Low s' := by
  have hpage : va / PAGE64_SIZE * PAGE64_SIZE = va := Nat.div_mul_cancel (Nat.dvd_of_mod_eq_zero hva)
  have hmapped : va < USPACE64_LIMIT → ∀ (t : Space) (w : Nat → Bool), Low t →
      Low { t with present := Function.update t.present (va / PAGE64_SIZE) true, writable := w } := by
    intro hin t w ht p hp
    by_cases hpva : p = va / PAGE64_SIZE
    · rw [hpva, hpage]
      exact hin
    · have hold : Function.update t.present (va / PAGE64_SIZE) true p = true := hp
      rw [Function.update_of_ne hpva] at hold
      exact ht p hold
  unfold loadPage at *
  by_cases hpres : s.present (va / PAGE64_SIZE) = true
  · rw [if_pos hpres] at hf ⊢
    have hin : va < USPACE64_LIMIT := by
      rw [← hpage]
      exact hlow _ hpres
    have hshare : ∃ t, sharePage g va s = .ok t ∧ Low t := by
      unfold sharePage
      split
      · exact ⟨_, if_pos hin, hmapped hin s _ hlow⟩
      · exact ⟨s, rfl, hlow⟩
    obtain ⟨t, hst, hlow'⟩ := hshare
    simp only [hst, bind, Except.bind] at hf ⊢
    obtain ⟨hfit, m, hcopy⟩ := copyPage_of_faultless (Faultless.left hf)
    simp only [hcopy]
    exact ⟨hin, hfit, _, rfl, hlow'⟩
  · rw [if_neg hpres] at hf ⊢
    by_cases hin : va < USPACE64_LIMIT
    · have hroom : va + 4096 ≤ USPACE64_LIMIT := by
        simp only [PAGE64_SIZE, USPACE64_LIMIT] at *
        omega
      simp only [Space.map, if_pos hin, Space.clear, if_pos hroom, bind, Except.bind] at hf ⊢
      obtain ⟨hfit, m, hcopy⟩ := copyPage_of_faultless (Faultless.left hf)
      simp only [hcopy]
      exact ⟨hin, hfit, _, rfl, hmapped hin s (Function.update s.writable (va / PAGE64_SIZE) g.writable) hlow⟩
    · simp only [Space.map, if_neg hin, bind, Except.bind] at hf
      exact absurd rfl hf

theorem loadPages_of_faultless {n : Nat} (hlow : Low s) (hva : va % PAGE64_SIZE = 0)
    (hf : Faultless (loadPages roomy f g n va s)) :
    (∀ j < n, va + j * PAGE64_SIZE < USPACE64_LIMIT ∧ CopyFits f g (va + j * PAGE64_SIZE)) ∧
      ∃ s', loadPages roomy f g n va s = .ok (.ok, s') ∧ Low s' := by
  induction n generalizing va s with
  | zero => exact ⟨fun j hj => by omega, s, rfl, hlow⟩
  | succ n ih =>
    rw [loadPages] at hf ⊢
    obtain ⟨hin, hfit, s₁, hpage, hlow₁⟩ := loadPage_of_faultless hlow hva (Faultless.left hf)
    simp only [hpage, bind, Except.bind, ne_eq, not_true_eq_false, if_false] at hf ⊢
    have hva' : (va + PAGE64_SIZE) % PAGE64_SIZE = 0 := by
      rw [Nat.add_mod_right]
      exact hva
    obtain ⟨hrest, hend⟩ := ih hlow₁ hva' hf
    refine ⟨fun j hj => ?_, hend⟩
    cases j with
    | zero =>
      rw [Nat.zero_mul, Nat.add_zero]
      exact ⟨hin, hfit⟩
    | succ j =>
      have := hrest j (by omega)
      rwa [show va + PAGE64_SIZE + j * PAGE64_SIZE = va + (j + 1) * PAGE64_SIZE by
        rw [Nat.succ_mul]
        omega] at this

theorem copied_fits (hs : f.size < 0x10000000000000000) (hoff : g.offset < 0x10000000000000000) {n : Nat}
    (hend : g.start + n * PAGE64_SIZE < 0x10000000000000000)
    (hfit : ∀ j < n, CopyFits f g (g.start + j * PAGE64_SIZE))
    (hlt : g.vaddr < min g.fileEnd (g.start + n * PAGE64_SIZE)) :
    g.offset + (min g.fileEnd (g.start + n * PAGE64_SIZE) - g.vaddr) ≤ f.size := by
  induction n with
  | zero =>
    have := start_le g
    omega
  | succ n ih =>
    have hstep : g.start + (n + 1) * PAGE64_SIZE = g.start + n * PAGE64_SIZE + PAGE64_SIZE := by
      rw [Nat.succ_mul]
      omega
    rw [hstep] at hend hlt ⊢
    have hpage := hfit n (by omega)
    have hu : u64 (g.start + n * PAGE64_SIZE + PAGE64_SIZE) = g.start + n * PAGE64_SIZE + PAGE64_SIZE :=
      u64_of_lt hend
    rw [CopyFits, hu] at hpage
    obtain ⟨va, hva⟩ : ∃ va, va = g.start + n * PAGE64_SIZE := ⟨_, rfl⟩
    rw [← hva] at hpage hend hlt ih ⊢
    by_cases hbefore : g.vaddr < min g.fileEnd va
    · -- The pages before this one have been copied up to it, or up to the end.
      have hcopied := ih (by omega) (fun j hj => hfit j (by omega)) hbefore
      by_cases hmore : va < g.fileEnd
      · rw [u64_of_lt (show g.offset + (max va g.vaddr - g.vaddr) < _ by omega)] at hpage
        omega
      · omega
    · rw [show max va g.vaddr = g.vaddr by omega, Nat.sub_self, u64_of_lt (show g.offset + 0 < _ by omega)] at hpage
      omega

theorem Segment.fits_of_faultless (hs : f.size < 0x10000000000000000) (hoff : g.offset < 0x10000000000000000)
    (hlow : Low s) (hf : Faultless (loadPages roomy f g g.pages g.start s)) :
    g.Fits f ∧ ∃ s', loadPages roomy f g g.pages g.start s = .ok (.ok, s') ∧ Low s' := by
  have halign : g.start % PAGE64_SIZE = 0 := Nat.mul_mod_left _ _
  obtain ⟨hpages, hend⟩ := loadPages_of_faultless hlow halign hf
  refine ⟨fun hlt => ?_, hend⟩
  have hstop := start_add_pages hlt
  constructor
  · have hpos : 0 < g.pages := by
      by_contra hzero
      rw [show g.pages = 0 by omega] at hstop
      omega
    have hlast := (hpages (g.pages - 1) (by omega)).1
    have hstep : g.start + g.pages * PAGE64_SIZE = g.start + (g.pages - 1) * PAGE64_SIZE + PAGE64_SIZE := by
      simp only [PAGE64_SIZE]
      omega
    rw [← hstop, hstep]
    simp only [PAGE64_SIZE, USPACE64_LIMIT] at *
    omega
  · intro hfile
    have hlt' : g.vaddr < g.stop := by
      simp only [Segment.start, Segment.stop, pageOf, PAGE64_SIZE] at hlt ⊢
      omega
    rw [← hstop] at hlt' ⊢
    exact copied_fits hs hoff (by rw [hstop]; exact stop_lt g) (fun j hj => (hpages j hj).2) (by omega)

theorem headersFit_of_faultless {h : Header} {bias n i : Nat} {last : Prop} (hs : f.size < 0x10000000000000000)
    (x : Found) (hlow : Low s) (hf : Faultless (loadHeaders roomy f h bias n i x s))
    (hlast : ∀ x' s', loadHeaders roomy f h bias n i x s = .ok (.ok, x', s') → last) :
    HeadersFit f h bias last n i := by
  induction n generalizing i x s with
  | zero => exact hlast x s rfl
  | succ n ih =>
    rw [loadHeaders] at hf hlast
    have htype := File.faultless_get32 hf
    refine ⟨htype, ?_⟩
    simp only [File.get32_eq _ htype, bind, Except.bind] at hf hlast
    by_cases hload : f.image.rd32 (h.phdr i) ≠ PT_LOAD
    · rw [if_pos hload] at hf hlast ⊢
      exact ih x hlow hf hlast
    rw [if_neg hload] at hf hlast ⊢
    have hphdr := File.faultless_get64 hf
    refine ⟨by omega, ?_⟩
    simp only [File.get64_eq _ hphdr] at hf hlast
    by_cases hmem : f.image.rd64 (h.phdr i + 40) = 0
    · rw [if_pos hmem] at hf hlast ⊢
      exact ih x hlow hf hlast
    rw [if_neg hmem] at hf hlast ⊢
    simp only [segmentAt_eq (show h.phdr i + 48 ≤ f.size by omega)] at hf hlast
    by_cases hrefused : (segmentOf f bias (h.phdr i)).Refused f
    · exact .inl hrefused
    have hrefused' := hrefused
    unfold Segment.Refused at hrefused'
    rw [if_neg hrefused'] at hf hlast
    have hoff : (segmentOf f bias (h.phdr i)).offset < 0x10000000000000000 := Mem.rd64_lt _ _
    obtain ⟨hfits, s', hpages, hlow'⟩ := Segment.fits_of_faultless hs hoff hlow (Faultless.left hf)
    simp only [hpages, ne_eq, not_true_eq_false, if_false] at hf hlast
    exact .inr ⟨hfits, ih _ hlow' hf hlast⟩

end Room

theorem elf64LoadAt_faultless_iff (f : File) (hs : f.size < 0x10000000000000000) (bias : Nat) (out : Bool) :
    (∀ k s, Faultless (elf64LoadAt k f bias out s)) ↔ ElfFits f bias out := by
  rcases checkHeader_cases f with ⟨r, hcheck⟩ | ⟨h, hcheck, haccept⟩
  · constructor
    · intro _ h hh
      rw [hcheck] at hh
      cases hh
    · intro _ k s
      unfold elf64LoadAt
      simp only [hcheck, bind, Except.bind]
      exact fun hc => by cases hc
  · constructor
    · intro hall h' hh
      obtain rfl : h = h' := by
        rw [hcheck] at hh
        simpa using hh
      have hf := hall roomy ⟨fun _ => 0, fun _ => false, fun _ => false, 0⟩
      unfold elf64LoadAt at hf
      simp only [hcheck, bind, Except.bind] at hf
      refine headersFit_of_faultless hs ⟨0, 0⟩ (fun p hp => by cases hp) (Faultless.left hf) fun x s' heq hout => ?_
      simp only [heq, hout, and_self, if_true, haccept.interp] at hf
      exact interpFits_of_faultless (Faultless.left hf)
    · intro hfit k s
      suffices Ensures (elf64LoadAt k f bias out s) (fun _ => True) from this.faultless
      unfold elf64LoadAt
      simp only [hcheck, bind, Except.bind]
      refine (loadHeaders_ensures k hs ⟨0, 0⟩ s (hfit h hcheck)).bind fun r hr => ?_
      refine .ite (fun hok => ?_) fun _ => .ok trivial
      rw [haccept.interp]
      exact (interpFrom_ensures (hr hok.1 hok.2)).bind fun _ _ => .ok trivial

end Elf

end NovarisOS.Loader64
