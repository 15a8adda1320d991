/-
NovarisOS.Pe.Relocations — an image that is not where it was linked for.

`layout` is the image by its sections: the headers, over them the raw data of
each section in turn, and zero where there is neither. Before its imports are
bound, an image at another address is to be this layout with every word that
the relocation table names moved, and nothing else changed (`Relocated`).
-/
import NovarisOS.Pe.RelocTable

namespace NovarisOS.Pe

open Checked

/-! ## The layout -/

section Layout

variable (f : File)

def sectionAlignment : Nat := f.image.rd32 (optOf f + 32)

def sizeOfHeaders : Nat := f.image.rd32 (optOf f + 60)

def imageBytes : Nat := imagePages f * PAGE_SIZE

/-- The section has raw data for the byte at `x`. -/
def Section.Covers (s : Section) (x : Nat) : Prop :=
  s.virtualAddress ≤ x ∧ x < s.virtualAddress + min s.sizeOfRawData s.vsize

instance (s : Section) (x : Nat) : Decidable (s.Covers x) := inferInstanceAs (Decidable (_ ∧ _))

/-- The byte at `x` when the first `n` sections lie over the headers. -/
def laidByte : (n x : Nat) → UInt8
  | 0, x => if x < min (sizeOfHeaders f) f.size then f.image x else 0
  | n + 1, x =>
    let s := sectionOf f (tableOf f) n
    if s.Covers x then f.image (s.pointerToRawData + (x - s.virtualAddress)) else laidByte n x

/-- The image by its RVAs. One whose sections are aligned to less than a page is
as the file is. -/
def layout : Mem := fun x =>
  if sectionAlignment f < PAGE_SIZE then if x < f.size then f.image x else 0
  else laidByte f (numSections f) x

/-- The blocks of the relocation table. -/
def relocTable : List Block :=
  match dirOf f (optOf f) IMAGE_DIRECTORY_ENTRY_BASERELOC with
  | none => []
  | some (pos, size) =>
    let stop := min (pos + size) (imageBytes f)
    tableBlocks (layout f) (imageBytes f) stop (stop + 1) pos

/-- The fixups of some blocks whose words are in the image. -/
def fixupsOf (bs : List Block) : List Fixup :=
  (bs.flatMap (blockFixups (layout f))).filter (·.Inside (imageBytes f))

/-- The byte is one of the relocation directory or of a block. -/
def RelocByte (i : Nat) : Prop :=
  ∃ d ∈ dirOf f (optOf f) IMAGE_DIRECTORY_ENTRY_BASERELOC,
    OnTable d.1 (min (d.1 + d.2) (imageBytes f)) (relocTable f) i

/-- No two words that are moved overlap, and none is on the table. -/
structure Separate : Prop where
  apart : (fixupsOf f (relocTable f)).Pairwise fun x y => x.place.Apart y.place
  off : ∀ x ∈ fixupsOf f (relocTable f), ∀ i, RelocByte f i → ¬ x.place.Has i

/-- The image `v` is the layout with each word that the table names moved. -/
structure Relocated (delta : Nat) (v : Mem) : Prop where
  words : ∀ x ∈ fixupsOf f (relocTable f), x.word v = x.fix.right delta (x.word (layout f))
  rest : ∀ i < imageBytes f, (∀ x ∈ fixupsOf f (relocTable f), ¬ x.place.Has i) → v i = layout f i

/-- The blocks behind the first one without entries, and that block. -/
def unreached (bs : List Block) : List Block := bs.dropWhile (BASE_RELOC_BLOCK_BYTES < ·.size)

/-- The two ways to miss it: a low half below zero, and a word that would be
changed behind a block without entries. -/
def Movable (delta : Nat) : Prop :=
  (∀ x ∈ fixupsOf f (reached (relocTable f)), ¬ x.fix.Negative) ∧
    ∀ x ∈ fixupsOf f (unreached (relocTable f)), x.fix.right delta (x.word (layout f)) = x.word (layout f)

end Layout

/-! ## Copying -/

section Copying

variable {f : File} {img : Image} {m : Machine}

/-- The image has the first `n` sections, over its headers. -/
def Laid (f : File) (img : Image) (n : Nat) (m : Machine) : Prop := ∀ x < img.size, img.view m x = laidByte f n x

theorem Section.Fits.raw {s : Section} (h : s.Fits f) :
    s.pointerToRawData + min s.sizeOfRawData s.vsize ≤ f.size ∨ min s.sizeOfRawData s.vsize = 0 := by
  have := h.1
  omega

theorem copySections_laid (h : Placed img m) (hsize : sizeOfImage f ≤ img.size) {n i : Nat}
    (ht : TableFits f (tableOf f) n i) (hfit : ∀ j < i + n, (sectionOf f (tableOf f) j).Fits f)
    (hm : Laid f img i m) :
    ∃ m', copySections f (tableOf f) img.base img.size n i m = .ok m' ∧ Laid f img (i + n) m' ∧ Kept img img m m' := by
  induction n generalizing i m with
  | zero => exact ⟨m, rfl, hm, .refl img m⟩
  | succ n ih =>
    rw [copySections, sectionAt_eq ht.head]
    simp only [bind, Except.bind]
    have hs := hfit i (by omega)
    set s := sectionOf f (tableOf f) i
    have hin : s.virtualAddress + s.vsize ≤ img.size := Nat.le_trans hs.2 hsize
    have hlaid : ∀ x, laidByte f (i + 1) x =
        if s.Covers x then f.image (s.pointerToRawData + (x - s.virtualAddress)) else laidByte f i x := fun _ => rfl
    have hnext : ∀ {m' : Machine}, Placed img m' → Laid f img (i + 1) m' → ∃ m'',
        copySections f (tableOf f) img.base img.size n (i + 1) m' = .ok m'' ∧ Laid f img (i + (n + 1)) m'' ∧
          Kept img img m' m'' := by
      intro m' h' hm'
      obtain ⟨m'', heq, hlaid'', hkept⟩ := ih h' ht.tail (fun j hj => hfit j (by omega)) hm'
      rw [show i + 1 + n = i + (n + 1) by omega] at hlaid''
      exact ⟨m'', heq, hlaid'', hkept⟩
    by_cases hskip : s.vsize = 0 ∨ s.sizeOfRawData = 0 ∨
        s.virtualAddress + min s.sizeOfRawData s.vsize > img.size ∨
        s.pointerToRawData + min s.sizeOfRawData s.vsize > f.size
    · -- A section of the file that is skipped has no raw data.
      rw [if_pos hskip]
      refine hnext h fun x hx => ?_
      have hraw := hs.raw
      rw [hlaid, if_neg fun hc => by have := hc.1; have := hc.2; omega]
      exact hm x hx
    · rw [if_neg hskip, h.addr (by omega), Machine.copyIn, if_pos ⟨by omega, h.within (by omega) (by omega)⟩]
      have hkept : Kept img img m { m with
          mem := m.mem.copyAt (img.base + s.virtualAddress) (f.image.shift s.pointerToRawData)
            (min s.sizeOfRawData s.vsize) } := ⟨rfl, rfl, rfl⟩
      obtain ⟨m'', heq, hlaid'', hkept''⟩ := hnext (h.kept hkept) (by
        intro x hx
        rw [hlaid]
        simp only [Image.view, Mem.shift_apply, Mem.copyAt_apply]
        by_cases hx' : s.Covers x
        · obtain ⟨hlow, hhigh⟩ := id hx'
          rw [if_pos hx', if_pos (by omega), show img.base + x - (img.base + s.virtualAddress) = x - s.virtualAddress by
            omega]
        · rw [if_neg hx', if_neg fun hc => hx' ⟨by omega, by omega⟩]
          exact hm x hx)
      exact ⟨m'', heq, hlaid'', hkept.trans hkept''⟩

theorem copyIn_view (h : Placed img m) {n : Nat} (hn : n ≤ f.size) (hn' : n ≤ img.size)
    (hzero : ∀ x < img.size, img.view m x = 0) :
    ∃ m', m.copyIn img.base f 0 n = .ok m' ∧ Kept img img m m' ∧
      ∀ x < img.size, img.view m' x = if x < n then f.image x else 0 := by
  refine ⟨{ m with mem := m.mem.copyAt img.base (f.image.shift 0) n }, ?_, ⟨rfl, rfl, rfl⟩, ?_⟩
  · rw [Machine.copyIn, if_pos ⟨by omega, h.within (by omega) (by omega)⟩]
  · intro x hx
    simp only [Image.view, Mem.shift_apply, Mem.copyAt_apply]
    split
    · rw [if_pos (by omega)]
      congr 1
      omega
    · rw [if_neg (by omega)]
      exact hzero x hx

theorem laid_out (h : Loadable f) (hp : Placed img m) (hstart : Start f img) :
    ∃ m', (do
      let m ← m.fill img.base 0 img.size
      copyImage f (optOf f) ⟨tableOf f, numSections f⟩ img.base img.size m) = .ok m' ∧ Kept img img m m' ∧
      ∀ x < img.size, img.view m' x = layout f x := by
  have hsize : sizeOfImage f ≤ img.size := by
    rw [hstart.1]
    exact sizeOfImage_le hstart.2.2
  have hopt : optOf f + 224 ≤ f.size := h.headers.fits
  rw [Machine.fill, if_pos hp.holds]
  have h₁ : Kept img img m { m with mem := m.mem.fillAt img.base 0 img.size } := ⟨rfl, rfl, rfl⟩
  have p₁ := hp.kept h₁
  have hzero : ∀ x < img.size, img.view { m with mem := m.mem.fillAt img.base 0 img.size } x = 0 := by
    intro x hx
    exact Mem.fillAt_inside (by omega) (by omega)
  generalize { m with mem := m.mem.fillAt img.base 0 img.size } = m₁ at h₁ p₁ hzero
  unfold copyImage
  simp only [File.get32_eq (f := f) (optOf f + 32) (by omega), File.get32_eq (f := f) (optOf f + 60) (by omega), bind,
    Except.bind]
  by_cases hflat : sectionAlignment f < PAGE_SIZE
  · obtain ⟨m', heq, hkept, hview⟩ := copyIn_view (f := f) p₁ (n := min f.size img.size) (by omega) (by omega) hzero
    refine ⟨m', (if_pos hflat).trans heq, h₁.trans hkept, fun x hx => ?_⟩
    rw [hview x hx, layout, if_pos hflat]
    congr 1
    simp only [eq_iff_iff]
    omega
  · obtain ⟨m₂, heq, hkept, hview⟩ :=
      copyIn_view (f := f) p₁ (n := min (min (sizeOfHeaders f) f.size) img.size) (by omega) (by omega) hzero
    have hlaid : Laid f img 0 m₂ := by
      intro x hx
      rw [hview x hx, laidByte]
      congr 1
      simp only [eq_iff_iff]
      omega
    have hrows : TableFits f (tableOf f) (numSections f) 0 := h.table.fits
    obtain ⟨m₃, heq₃, hlaid₃, hkept₃⟩ :=
      copySections_laid (p₁.kept hkept) hsize hrows (fun j hj => h.sections j (by omega)) hlaid
    refine ⟨m₃, (if_neg hflat).trans ?_, h₁.trans (hkept.trans hkept₃), fun x hx => ?_⟩
    · have heq' : m₁.copyIn img.base f 0 (min (min (f.image.rd32 (optOf f + 60)) f.size) img.size) = .ok m₂ := heq
      rw [heq']
      exact heq₃
    · rw [hlaid₃ x hx, layout, if_neg hflat, Nat.zero_add]

end Copying

/-! ## Moving -/

section Moving

variable {f : File} {img : Image} {m : Machine}

/-- An image whose pages have just been mapped. -/
structure Mapped (f : File) (img : Image) (m : Machine) : Prop where
  start : Start f img
  placed : Placed img m
  delta : img.relocDelta = u32 (img.base + 0x100000000 - imageBase f)

theorem tableBlocks_fit {v : Mem} {size stop n pos : Nat} :
    ∀ b ∈ tableBlocks v size stop n pos, b.pos + 8 + b.entries * 2 ≤ size := by
  induction n generalizing pos with
  | zero => simp [tableBlocks]
  | succ n ih =>
    intro b hb
    rw [tableBlocks] at hb
    split at hb
    · cases hb
    · rename_i hin
      rcases List.mem_cons.1 hb with rfl | hb
      · simp only [BASE_RELOC_BLOCK_BYTES] at hin
        show pos + 8 + _ ≤ size
        omega
      · exact ih b hb

theorem fixAll_filter (img : Image) (l : List Fixup) (v : Mem) :
    img.fixAll (l.filter (·.Inside img.size)) v = img.fixAll l v := by
  induction l generalizing v with
  | nil => rfl
  | cons x l ih =>
    by_cases hx : x.Inside img.size
    · rw [List.filter_cons_of_pos (by simpa using hx)]
      exact ih _
    · rw [List.filter_cons_of_neg (by simpa using hx)]
      refine (ih v).trans ?_
      show img.fixAll l v = img.fixAll l (x.apply img.size img.relocDelta v)
      rw [Fixup.apply, if_neg hx]

theorem fixAll_word {l : List Fixup} (hl : l.Pairwise fun x y => x.place.Apart y.place) {x : Fixup} (hx : x ∈ l)
    (hin : x.Inside img.size) (v : Mem) :
    x.word (img.fixAll l v) = x.fix.moved img.relocDelta (x.word v) := by
  have hbyte : ∀ i, x.place.Has i → img.fixAll l v i = x.setWord v (x.fix.moved img.relocDelta (x.word v)) i := by
    intro i hi
    refine (Patches.apply_inside (Fixup.local_apply _ _) hl hx hi v).trans ?_
    rw [Fixup.apply, if_pos hin]
  rw [Fixup.word_congr hbyte, Fixup.word_setWord, Nat.mod_eq_of_lt (Fixup.moved_lt _ _ _)]

theorem mem_fixupsOf {bs : List Block} {x : Fixup} :
    x ∈ fixupsOf f bs ↔ (∃ b ∈ bs, x ∈ blockFixups (layout f) b) ∧ x.Inside (imageBytes f) := by
  simp [fixupsOf]

theorem fixupsOf_split (bs : List Block) : fixupsOf f bs = fixupsOf f (reached bs) ++ fixupsOf f (unreached bs) := by
  rw [fixupsOf, fixupsOf, fixupsOf, ← List.filter_append, ← List.flatMap_append, reached, unreached,
    List.takeWhile_append_dropWhile]

theorem fixupsOf_valid {bs : List Block} : ∀ x ∈ fixupsOf f bs, x.fix.Valid := by
  intro x hx
  obtain ⟨⟨b, -, hb⟩, -⟩ := mem_fixupsOf.1 hx
  exact fixupsFrom_valid _ _ _ _ x hb

theorem applyRelocations_view (h : Loadable f) (hm : Placed img m) (hsize : img.size = imageBytes f)
    (hdir : (dirOf f (optOf f) IMAGE_DIRECTORY_ENTRY_BASERELOC).isSome) (hsep : Separate f)
    (hview : ∀ x < img.size, img.view m x = layout f x) (hdelta : img.relocDelta ≠ 0) :
    ∃ m', (∀ fuel ≥ img.size + 2, applyRelocations f fuel (optOf f) img m = .ok (.ok, m')) ∧
      img.view m' = img.fixAll (fixupsOf f (reached (relocTable f))) (img.view m) := by
  obtain ⟨⟨pos, size⟩, hd⟩ := Option.isSome_iff_exists.1 hdir
  set stop := min (pos + size) img.size with hstop
  have hle : stop ≤ img.size := Nat.min_le_right _ _
  -- The table in memory is the table of the layout.
  have htable : tableBlocks (img.view m) img.size stop (stop + 1) pos = relocTable f := by
    have hsame : tableBlocks (img.view m) img.size stop (stop + 1) pos =
        tableBlocks (layout f) img.size stop (stop + 1) pos :=
      tableBlocks_congr _ fun i _ hi => hview i (by omega)
    rw [hsame, relocTable, hd, hstop, hsize]
  have hfixups : ∀ b ∈ relocTable f, blockFixups (img.view m) b = blockFixups (layout f) b := by
    intro b hb
    have hfit := tableBlocks_fit b (htable ▸ hb)
    refine fixupsFrom_congr (fun i hi => hview i ?_) _ _
    have := hi.2
    simp only [Block.place, BASE_RELOC_BLOCK_BYTES] at this
    omega
  have hflat : (reached (relocTable f)).flatMap (blockFixups (img.view m)) =
      (reached (relocTable f)).flatMap (blockFixups (layout f)) :=
    List.flatMap_congr fun b hb => hfixups b ((List.takeWhile_sublist _).subset hb)
  have hoff : ∀ x ∈ (reached (relocTable f)).flatMap (blockFixups (layout f)), x.Inside img.size →
      ∀ i, OnTable pos stop (relocTable f) i → ¬ x.place.Has i := by
    intro x hx hin i hi
    obtain ⟨b, hb, hxb⟩ := List.mem_flatMap.1 hx
    refine hsep.off x (mem_fixupsOf.2 ⟨⟨b, (List.takeWhile_sublist _).subset hb, hxb⟩, hsize ▸ hin⟩) i
      ⟨(pos, size), hd, ?_⟩
    rw [← hsize]
    exact hi
  obtain ⟨m', heq, hview', -⟩ := relocBlocks_eq hm hle (show stop < pos + (stop + 1) by omega)
    (by
      rw [htable, hflat]
      exact hoff)
  rw [htable, hflat] at hview'
  refine ⟨m', fun fuel hf => ?_, ?_⟩
  · unfold applyRelocations
    rw [if_neg hdelta]
    simp only [peDir_eq h.headers.fits (by decide : IMAGE_DIRECTORY_ENTRY_BASERELOC < 16), hd, bind, Except.bind]
    rw [← hstop, heq fuel (by omega)]
  · rw [hview', fixupsOf, ← hsize, fixAll_filter]

/-- What is there before the imports are bound, if the image has to be moved. -/
structure Moved (f : File) (delta : Nat) (v : Mem) : Prop where
  made : ∀ x ∈ fixupsOf f (reached (relocTable f)), x.word v = x.fix.moved delta (x.word (layout f))
  missed : ∀ x ∈ fixupsOf f (unreached (relocTable f)), x.word v = x.word (layout f)
  rest : ∀ i < imageBytes f, (∀ x ∈ fixupsOf f (reached (relocTable f)), ¬ x.place.Has i) → v i = layout f i

theorem word_layout {v : Mem} (hview : ∀ x < imageBytes f, v x = layout f x) {bs : List Block} :
    ∀ x ∈ fixupsOf f bs, x.word v = x.word (layout f) := by
  intro x hx
  refine Fixup.word_congr fun i hi => hview i ?_
  have hin : x.rva + x.fix.width ≤ imageBytes f := (mem_fixupsOf.1 hx).2
  have := hi.2
  simp only [Fixup.place] at this
  omega

theorem beforeImports_eq (h : Loadable f) (hm : Mapped f img m)
    (hdir : (dirOf f (optOf f) IMAGE_DIRECTORY_ENTRY_BASERELOC).isSome) (hsep : Separate f) :
    ∃ m', (∃ n, ∀ fuel ≥ n, beforeImports f fuel (optOf f) ⟨tableOf f, numSections f⟩ img m = .ok (.ok, m')) ∧
      (img.relocDelta = 0 → ∀ i < imageBytes f, img.view m' i = layout f i) ∧
      (img.relocDelta ≠ 0 → Moved f img.relocDelta (img.view m')) := by
  obtain ⟨m₁, heq, hkept, hview⟩ := laid_out h hm.placed hm.start
  have hsize : img.size = imageBytes f := hm.start.1
  have hbefore : ∀ fuel, beforeImports f fuel (optOf f) ⟨tableOf f, numSections f⟩ img m =
      applyRelocations f fuel (optOf f) img m₁ := by
    intro fuel
    refine (bind_assoc _ _ _).symm.trans ?_
    rw [heq]
    rfl
  by_cases hdelta : img.relocDelta = 0
  · refine ⟨m₁, ⟨0, fun fuel _ => (hbefore fuel).trans (if_pos hdelta)⟩, fun _ => ?_, fun hne => absurd hdelta hne⟩
    exact fun i hi => hview i (hsize ▸ hi)
  obtain ⟨m₂, heq₂, hview₂⟩ := applyRelocations_view h (hm.placed.kept hkept) hsize hdir hsep hview hdelta
  refine ⟨m₂, ⟨img.size + 2, fun fuel hf => (hbefore fuel).trans (heq₂ fuel hf)⟩, fun hzero => absurd hzero hdelta,
    fun _ => ?_⟩
  have hapart := hsep.apart
  rw [fixupsOf_split] at hapart
  obtain ⟨hfirst, -, hcross⟩ := List.pairwise_append.1 hapart
  have hword : ∀ {bs : List Block}, ∀ x ∈ fixupsOf f bs, x.word (img.view m₁) = x.word (layout f) :=
    word_layout (hsize ▸ hview)
  refine ⟨fun x hx => ?_, fun x hx => ?_, fun i hi hno => ?_⟩
  · rw [hview₂, fixAll_word hfirst hx (hsize ▸ (mem_fixupsOf.1 hx).2), hword x hx]
  · rw [← hword x hx, hview₂]
    exact Fixup.word_congr fun i hi => fixAll_keeps (fun y hy _ => (hcross y hy x hx).not_has hi) _
  · rw [hview₂, fixAll_keeps fun x hx _ => hno x hx]
    exact hview i (hsize ▸ hi)

end Moving

/-- An image is moved as its table says, exactly when no fixup that the loader
comes to is for a low half below zero, and none that it does not come to would
change its word; or it is where it was linked for. -/
theorem relocated_iff {f : PeFile} {img : Image} {m : Machine} (h : Loadable f.toFile) (hm : Mapped f.toFile img m)
    (hdir : (dirOf f.toFile (optOf f.toFile) IMAGE_DIRECTORY_ENTRY_BASERELOC).isSome) (hsep : Separate f.toFile) :
    ∃ m', (∃ n, ∀ fuel ≥ n,
      beforeImports f.toFile fuel (optOf f.toFile) ⟨tableOf f.toFile, numSections f.toFile⟩ img m =
        .ok (.ok, m')) ∧
      (Relocated f.toFile img.relocDelta (img.view m') ↔ img.relocDelta = 0 ∨ Movable f.toFile img.relocDelta) := by
  obtain ⟨m', heq, hkeep, hmove⟩ := beforeImports_eq h hm hdir hsep
  refine ⟨m', heq, ?_⟩
  by_cases hdelta : img.relocDelta = 0
  · refine ⟨fun _ => .inl hdelta, fun _ => ⟨fun x hx => ?_, fun i hi _ => hkeep hdelta i hi⟩⟩
    rw [word_layout (hkeep hdelta) x hx, hdelta, Fix.right_zero (fixupsOf_valid x hx) (Fixup.word_lt _ _)]
  have hmoved := hmove hdelta
  have hsplit := fixupsOf_split (f := f.toFile) (relocTable f.toFile)
  constructor
  · intro hrel
    have hwords := hrel.words
    rw [hsplit] at hwords
    refine .inr ⟨fun x hx => ?_, fun x hx => ?_⟩
    · rw [← Fix.moved_eq_right_iff (fixupsOf_valid x hx), ← hmoved.made x hx]
      exact hwords x (List.mem_append_left _ hx)
    · rw [← hwords x (List.mem_append_right _ hx)]
      exact hmoved.missed x hx
  · rintro (hzero | ⟨hneg, hnone⟩)
    · exact absurd hzero hdelta
    refine ⟨fun x hx => ?_, fun i hi hno => ?_⟩
    · rw [hsplit] at hx
      rcases List.mem_append.1 hx with hx | hx
      · rw [hmoved.made x hx]
        exact (Fix.moved_eq_right_iff (fixupsOf_valid x hx) _ _).2 (hneg x hx)
      · rw [hmoved.missed x hx, hnone x hx]
    · exact hmoved.rest i hi fun x hx => hno x (hsplit ▸ List.mem_append_left _ hx)

/-! ### A program with one fixup -/

/-- A program for 0x400000, laid out as the file is. Its table names the high
half at 384 of a word whose low half is `low`. -/
def oneFixup (low : Nat) : PeFile where
  image := zeros.wr16 0 IMAGE_DOS_SIGNATURE |>.wr32 60 64 |>.wr32 64 IMAGE_NT_SIGNATURE
    |>.wr16 68 IMAGE_FILE_MACHINE_I386 |>.wr16 84 OPTIONAL_HEADER_BYTES |>.wr16 88 IMAGE_NT_OPTIONAL_HDR32_MAGIC
    |>.wr32 116 0x400000 |>.wr32 144 PAGE_SIZE |>.wr32 180 16 |>.wr32 224 320 |>.wr32 228 12
    |>.wr32 324 12 |>.wr16 328 0x4180 |>.wr16 330 low
  size := 400
  size_lt := by decide

/-- The largest low half that is not below zero, and the least that is. -/
abbrev Low (low : Nat) : Prop := low = 0x7FFF ∨ low = 0x8000

section OneFixup

variable {low : Nat}

/-- Its image in the arena, and the page for it. -/
def oneImage : Image where
  base := 0x30000000
  size := PAGE_SIZE
  relocDelta := 0x2FC00000

def onePage : Machine := { blank with mapped := fun p => p = 0x30000 }

theorem oneFixup_loadable (hlow : Low low) : Loadable (oneFixup low).toFile := by
  have hsections : ∀ i < numSections (oneFixup low).toFile,
      (sectionOf (oneFixup low).toFile (tableOf (oneFixup low).toFile) i).Fits (oneFixup low).toFile := by
    intro i hi
    cases hi
  obtain rfl | rfl := hlow <;>
    exact ⟨⟨by decide, by decide, by decide, by decide, by decide, by decide⟩, by decide, by decide, by decide,
      by decide, by decide, by decide, by decide, hsections⟩

theorem onePage_mapped (hlow : Low low) : Mapped (oneFixup low).toFile oneImage onePage where
  start := by obtain rfl | rfl := hlow <;> exact ⟨by decide, by decide, by decide⟩
  placed :=
    { holds := by
        intro i hi
        show decide ((0x30000000 + i) / PAGE_SIZE = 0x30000) = true
        have hi' : i < PAGE_SIZE := hi
        simp only [PAGE_SIZE] at *
        simp
        omega
      below := by decide
      pages := by
        intro p hp
        obtain rfl : p = 0x30000 := by simpa [onePage] using hp
        decide }
  delta := by obtain rfl | rfl := hlow <;> decide

theorem oneFixup_dir (hlow : Low low) :
    dirOf (oneFixup low).toFile (optOf (oneFixup low).toFile) IMAGE_DIRECTORY_ENTRY_BASERELOC = some (320, 12) := by
  obtain rfl | rfl := hlow <;> decide

theorem oneFixup_table (hlow : Low low) : relocTable (oneFixup low).toFile = [⟨320, 12⟩] := by
  obtain rfl | rfl := hlow <;> decide

theorem oneFixup_fixups (hlow : Low low) :
    fixupsOf (oneFixup low).toFile (relocTable (oneFixup low).toFile) = [⟨.highadj low, 384⟩] := by
  obtain rfl | rfl := hlow <;> decide

theorem oneFixup_separate (hlow : Low low) : Separate (oneFixup low).toFile where
  apart := by
    rw [oneFixup_fixups hlow]
    exact List.pairwise_singleton _ _
  off := by
    intro x hx i hi
    rw [oneFixup_fixups hlow, List.mem_singleton] at hx
    obtain ⟨d, hd, hon⟩ := hi
    rw [oneFixup_table hlow, oneFixup_dir hlow] at *
    obtain rfl : (320, 12) = d := by simpa using hd
    have hfirst : i < 332 := by
      rcases hon with hdir | ⟨b, hb, hblock⟩
      · have := hdir.2
        omega
      · obtain rfl : b = ⟨320, 12⟩ := by simpa using hb
        exact hblock.2
    rw [hx]
    intro hc
    have := hc.1
    simp only [Fixup.place] at this
    omega

end OneFixup

/-- With the low half below zero the word comes out one too large. -/
theorem oneFixup_misses : ∃ m', (∃ n, ∀ fuel ≥ n, beforeImports (oneFixup 0x8000).toFile fuel
      (optOf (oneFixup 0x8000).toFile) ⟨tableOf (oneFixup 0x8000).toFile, numSections (oneFixup 0x8000).toFile⟩
      oneImage onePage = .ok (.ok, m')) ∧
    ¬ Relocated (oneFixup 0x8000).toFile oneImage.relocDelta (oneImage.view m') := by
  have hlow : Low 0x8000 := .inr rfl
  obtain ⟨m', heq, -, hmove⟩ :=
    beforeImports_eq (oneFixup_loadable hlow) (onePage_mapped hlow) (by decide) (oneFixup_separate hlow)
  refine ⟨m', heq, fun hrel => ?_⟩
  have hx : (⟨.highadj 0x8000, 384⟩ : Fixup) ∈
      fixupsOf (oneFixup 0x8000).toFile (relocTable (oneFixup 0x8000).toFile) := by
    rw [oneFixup_fixups hlow]
    exact List.mem_singleton_self _
  have hx' : (⟨.highadj 0x8000, 384⟩ : Fixup) ∈
      fixupsOf (oneFixup 0x8000).toFile (reached (relocTable (oneFixup 0x8000).toFile)) := by
    decide
  have hne := (hrel.words _ hx).symm.trans ((hmove (by decide)).made _ hx')
  revert hne
  decide

/-- With the largest low half that is not, it is moved as it is to be. -/
theorem relocated_iff_oneFixup : ∃ m', (∃ n, ∀ fuel ≥ n, beforeImports (oneFixup 0x7FFF).toFile fuel
      (optOf (oneFixup 0x7FFF).toFile) ⟨tableOf (oneFixup 0x7FFF).toFile, numSections (oneFixup 0x7FFF).toFile⟩
      oneImage onePage = .ok (.ok, m')) ∧
    Relocated (oneFixup 0x7FFF).toFile oneImage.relocDelta (oneImage.view m') := by
  have hlow : Low 0x7FFF := .inl rfl
  obtain ⟨m', heq, hiff⟩ :=
    relocated_iff (oneFixup_loadable hlow) (onePage_mapped hlow) (by decide) (oneFixup_separate hlow)
  refine ⟨m', heq, hiff.mpr (.inr ⟨fun x hx => ?_, fun x hx => ?_⟩)⟩
  · have hfix : x ∈ [(⟨.highadj 0x7FFF, 384⟩ : Fixup)] := by
      rw [← oneFixup_fixups hlow, fixupsOf_split]
      exact List.mem_append_left _ hx
    rw [List.mem_singleton.mp hfix]
    simp [Fix.Negative]
  · rw [oneFixup_table hlow] at hx
    cases hx

end NovarisOS.Pe
