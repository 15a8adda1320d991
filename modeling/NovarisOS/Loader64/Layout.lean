/-
NovarisOS.Loader64.Layout — an ELF image is laid out as its program headers
say.

What a space shows (`Space.view`) is the bytes of the pages that are there,
and zero elsewhere: a page that is mapped is cleared first, so that mapping it
changes nothing of the view.
-/
import Mathlib.Data.List.Pairwise
import NovarisOS.Loader64.ElfTheorems

namespace NovarisOS.Loader64

open Function (update update_of_ne update_self)
open Checked

/-- What is seen at an address; a page that is not there counts as zero. -/
def Space.view (s : Space) (a : Nat) : UInt8 := if s.present (a / PAGE64_SIZE) then s.mem a else 0

namespace Elf

/-- The file has a byte of the segment for the address. -/
def Segment.Filed (g : Segment) (a : Nat) : Prop := g.vaddr ≤ a ∧ a < g.vaddr + g.filesz

/-- The address is one of the segment. -/
def Segment.Covers (g : Segment) (a : Nat) : Prop := g.vaddr ≤ a ∧ a < g.vaddr + g.memsz

/-- The segments that the loop over the program headers loads, with `n` to go. -/
def segmentsFrom (f : File) (h : Header) (bias : Nat) : (n i : Nat) → List Segment
  | 0, _ => []
  | n + 1, i =>
    if f.image.rd32 (h.phdr i) ≠ PT_LOAD then segmentsFrom f h bias n (i + 1)
    else if f.image.rd64 (h.phdr i + 40) = 0 then segmentsFrom f h bias n (i + 1)
    else segmentOf f bias (h.phdr i) :: segmentsFrom f h bias n (i + 1)

/-- A segment whose bytes are in the file and whose addresses are in the user
half. -/
structure Segment.Proper (f : File) (g : Segment) : Prop where
  inFile : g.offset + g.filesz ≤ f.size
  filesz_le : g.filesz ≤ g.memsz
  inUser : g.vaddr + g.memsz ≤ USPACE64_LIMIT

/-- Two segments have no address in common. -/
def Segment.Apart (g g' : Segment) : Prop := g.vaddr + g.memsz ≤ g'.vaddr ∨ g'.vaddr + g'.memsz ≤ g.vaddr

/-- An x86-64 file whose segments are in the file, in the user half and apart. -/
structure WellFormed (f : File) (h : Header) (bias : Nat) : Prop where
  size : f.size < 0x10000000000000000
  header : checkHeader f = .ok (.ok, some h)
  proper : ∀ g ∈ segmentsFrom f h bias h.phnum 0, g.Proper f
  apart : (segmentsFrom f h bias h.phnum 0).Pairwise Segment.Apart

/-! ## A page -/

section Page

variable {k : Kernel} {f : File} {g : Segment} {va : Nat} {s s' : Space}

theorem copyPage_eq (hs : f.size < 0x10000000000000000) (hg : g.Proper f) (hva : va < USPACE64_LIMIT)
    (h : copyPage f g va s = .ok s') :
    s'.present = s.present ∧ s'.writable = s.writable ∧
      (∀ a, g.Filed a → va ≤ a → a < va + PAGE64_SIZE → s'.mem a = f.image (g.offset + (a - g.vaddr))) ∧
      ∀ a, ¬ (g.Filed a ∧ va ≤ a ∧ a < va + PAGE64_SIZE) → s'.mem a = s.mem a := by
  obtain ⟨hfile, hsz, huser⟩ := hg
  have hend : g.fileEnd = g.vaddr + g.filesz := by
    rw [Segment.fileEnd]
    exact u64_of_lt (by simp only [USPACE64_LIMIT] at huser; omega)
  have hpage : u64 (va + PAGE64_SIZE) = va + PAGE64_SIZE :=
    u64_of_lt (by simp only [USPACE64_LIMIT, PAGE64_SIZE] at *; omega)
  unfold copyPage at h
  simp only [hend, hpage, Segment.Filed] at h ⊢
  split at h
  case isTrue hcopy =>
    have hoff : u64 (g.offset + (max va g.vaddr - g.vaddr)) = g.offset + (max va g.vaddr - g.vaddr) :=
      u64_of_lt (by omega)
    rw [hoff, Space.copyIn] at h
    split at h
    · cases h
      refine ⟨rfl, rfl, fun a h₁ h₂ h₃ => ?_, fun a hout => ?_⟩
      · dsimp only
        rw [Mem.copyAt_inside (by omega) (by omega), Mem.shift_apply]
        congr 1
        omega
      · exact Mem.copyAt_outside (by omega)
    · cases h
  case isFalse hcopy =>
    cases h
    exact ⟨rfl, rfl, fun a h₁ h₂ h₃ => absurd hcopy (by omega), fun _ _ => rfl⟩

/-- What a page of a segment adds to a space. -/
structure PageLoaded (f : File) (g : Segment) (va : Nat) (s s' : Space) : Prop where
  present : ∀ p, s'.present p = (s.present p || p == va / PAGE64_SIZE)
  keeps : ∀ p, s.present p = true → s.writable p = true → s'.writable p = true
  writable : g.writable = true → s'.writable (va / PAGE64_SIZE) = true
  filed : ∀ a, g.Filed a → va ≤ a → a < va + PAGE64_SIZE → s'.view a = f.image (g.offset + (a - g.vaddr))
  same : ∀ a, ¬ (g.Filed a ∧ va ≤ a ∧ a < va + PAGE64_SIZE) → s'.view a = s.view a

theorem PageLoaded.of_copy {t : Space} (hs : f.size < 0x10000000000000000) (hg : g.Proper f)
    (hva : va < USPACE64_LIMIT)
    (haligned : va % PAGE64_SIZE = 0) (hpresent : ∀ p, t.present p = (s.present p || p == va / PAGE64_SIZE))
    (hkeeps : ∀ p, s.present p = true → s.writable p = true → t.writable p = true)
    (hwritable : g.writable = true → t.writable (va / PAGE64_SIZE) = true)
    (hview : ∀ a, t.present (a / PAGE64_SIZE) = true → t.mem a = s.view a) (hcopy : copyPage f g va t = .ok s') :
    PageLoaded f g va s s' := by
  obtain ⟨hp, hw, hfiled, hsame⟩ := copyPage_eq hs hg hva hcopy
  refine ⟨fun p => by rw [hp, hpresent], fun p h₁ h₂ => by rw [hw]; exact hkeeps p h₁ h₂,
    fun h => by rw [hw]; exact hwritable h, fun a ha h₁ h₂ => ?_, fun a hout => ?_⟩
  · have hpage : a / PAGE64_SIZE = va / PAGE64_SIZE := by
      simp only [PAGE64_SIZE] at *
      omega
    rw [Space.view, if_pos (by rw [hp, hpresent, hpage]; simp)]
    exact hfiled a ha h₁ h₂
  · rw [Space.view, hp, hsame a hout]
    split
    · rename_i hthere
      exact hview a hthere
    · rename_i hmissing
      have hbefore : s.present (a / PAGE64_SIZE) = false := by
        rw [hpresent] at hmissing
        simp only [Bool.or_eq_true, not_or, Bool.not_eq_true] at hmissing
        exact hmissing.1
      rw [Space.view, hbefore]
      rfl

theorem loadPage_loaded (hs : f.size < 0x10000000000000000) (hg : g.Proper f) (haligned : va % PAGE64_SIZE = 0)
    (hva : va < USPACE64_LIMIT) (h : loadPage k f g va s = .ok (.ok, s')) : PageLoaded f g va s s' := by
  unfold loadPage at h
  split at h
  case isTrue hthere =>
    have hshared : ∃ t, sharePage g va s = .ok t ∧ t.mem = s.mem ∧
        (∀ p, t.present p = (s.present p || p == va / PAGE64_SIZE)) ∧
        t.writable = if g.writable then update s.writable (va / PAGE64_SIZE) true else s.writable := by
      have hor : ∀ p, s.present p = (s.present p || p == va / PAGE64_SIZE) := by
        intro p
        by_cases hp : p = va / PAGE64_SIZE
        · simp [hp, hthere]
        · simp [hp]
      unfold sharePage
      split
      · refine ⟨_, if_pos hva, rfl, fun p => ?_, rfl⟩
        by_cases hp : p = va / PAGE64_SIZE
        · simp [hp]
        · simp [hp]
      · exact ⟨s, rfl, rfl, hor, rfl⟩
    obtain ⟨t, hshare, hmem, hpresent, hw⟩ := hshared
    simp only [hshare, bind, Except.bind] at h
    cases hcopy : copyPage f g va t with
    | error e => simp [hcopy] at h
    | ok u =>
      simp only [hcopy, Except.ok.injEq, Prod.mk.injEq, true_and] at h
      subst h
      refine .of_copy hs hg hva haligned hpresent (fun p _ h₂ => ?_) (fun h₁ => ?_) (fun a ha => ?_) hcopy
      · rw [hw]
        split
        · by_cases hp : p = va / PAGE64_SIZE
          · rw [hp, update_self]
          · rw [update_of_ne hp]
            exact h₂
        · exact h₂
      · rw [hw, if_pos h₁, update_self]
      · have hold : s.present (a / PAGE64_SIZE) = true := by
          rw [hpresent, Bool.or_eq_true, beq_iff_eq] at ha
          rcases ha with ha | ha
          · exact ha
          · rw [ha]
            exact hthere
        rw [hmem, Space.view, if_pos hold]
  case isFalse hmissing =>
    dsimp only at h
    split at h
    · cases h
    · split at h
      · cases h
      · simp only [Space.map, if_pos hva, bind, Except.bind] at h
        have hroom : va + PAGE64_SIZE ≤ USPACE64_LIMIT := by
          simp only [PAGE64_SIZE, USPACE64_LIMIT] at *
          omega
        simp only [Space.clear, if_pos hroom] at h
        split at h
        · cases h
        · rename_i u hcopy
          simp only [Except.ok.injEq, Prod.mk.injEq, true_and] at h
          subst h
          refine .of_copy hs hg hva haligned (fun p => ?_) (fun p h₁ h₂ => ?_) (fun h₁ => ?_) (fun a ha => ?_) hcopy
          · by_cases hp : p = va / PAGE64_SIZE
            · simp [hp]
            · simp [hp]
          · have hp : p ≠ va / PAGE64_SIZE := fun hp => hmissing (hp ▸ h₁)
            dsimp only
            rw [update_of_ne hp]
            exact h₂
          · dsimp only
            rw [update_self, h₁]
          · dsimp only at ha ⊢
            by_cases hp : a / PAGE64_SIZE = va / PAGE64_SIZE
            · rw [Space.view, if_neg (by rw [hp]; exact hmissing)]
              exact Mem.fillAt_inside (by simp only [PAGE64_SIZE] at *; omega) (by simp only [PAGE64_SIZE] at *; omega)
            · rw [update_of_ne hp] at ha
              rw [Space.view, if_pos ha]
              exact Mem.fillAt_outside (by simp only [PAGE64_SIZE] at *; omega)

end Page

/-! ## A segment -/

section Pages

variable {k : Kernel} {f : File} {g : Segment} {s s' : Space}

/-- What the pages of a segment from `lo` to `hi` add to a space. -/
structure PagesLoaded (f : File) (g : Segment) (lo hi : Nat) (s s' : Space) : Prop where
  stays : ∀ p, s.present p = true → s'.present p = true
  present : ∀ a, lo ≤ a → a < hi → s'.present (a / PAGE64_SIZE) = true
  keeps : ∀ p, s.present p = true → s.writable p = true → s'.writable p = true
  writable : g.writable = true → ∀ a, lo ≤ a → a < hi → s'.writable (a / PAGE64_SIZE) = true
  filed : ∀ a, g.Filed a → lo ≤ a → a < hi → s'.view a = f.image (g.offset + (a - g.vaddr))
  same : ∀ a, ¬ (g.Filed a ∧ lo ≤ a ∧ a < hi) → s'.view a = s.view a

theorem PagesLoaded.none {lo : Nat} : PagesLoaded f g lo lo s s :=
  ⟨fun _ h => h, fun a h₁ h₂ => absurd h₂ (by omega), fun _ _ h => h, fun _ a h₁ h₂ => absurd h₂ (by omega),
    fun a _ h₁ h₂ => absurd h₂ (by omega), fun _ _ => rfl⟩

theorem PageLoaded.pages {va : Nat} (haligned : va % PAGE64_SIZE = 0) (h : PageLoaded f g va s s') :
    PagesLoaded f g va (va + PAGE64_SIZE) s s' := by
  have hpage : ∀ a, va ≤ a → a < va + PAGE64_SIZE → a / PAGE64_SIZE = va / PAGE64_SIZE := by
    intro a h₁ h₂
    simp only [PAGE64_SIZE] at *
    omega
  exact ⟨fun p hp => by rw [h.present, hp]; rfl, fun a h₁ h₂ => by rw [hpage a h₁ h₂, h.present]; simp, h.keeps,
    fun hw a h₁ h₂ => by rw [hpage a h₁ h₂]; exact h.writable hw, h.filed, h.same⟩

theorem PagesLoaded.append {lo mid hi : Nat} {t : Space} (h₁ : PagesLoaded f g lo mid s t)
    (h₂ : PagesLoaded f g mid hi t s') (hlo : lo ≤ mid) (hhi : mid ≤ hi) : PagesLoaded f g lo hi s s' where
  stays p hp := h₂.stays p (h₁.stays p hp)
  present a ha hb := by
    rcases Nat.lt_or_ge a mid with hlt | hge
    · exact h₂.stays _ (h₁.present a ha hlt)
    · exact h₂.present a hge hb
  keeps p hp hw := h₂.keeps p (h₁.stays p hp) (h₁.keeps p hp hw)
  writable hw a ha hb := by
    rcases Nat.lt_or_ge a mid with hlt | hge
    · exact h₂.keeps _ (h₁.present a ha hlt) (h₁.writable hw a ha hlt)
    · exact h₂.writable hw a hge hb
  filed a hf ha hb := by
    rcases Nat.lt_or_ge a mid with hlt | hge
    · rw [h₂.same a (by omega)]
      exact h₁.filed a hf ha hlt
    · exact h₂.filed a hf hge hb
  same a hout := by
    rw [h₂.same a fun hin => hout ⟨hin.1, by omega, hin.2.2⟩]
    exact h₁.same a fun hin => hout ⟨hin.1, hin.2.1, by omega⟩

theorem loadPages_loaded {n va : Nat} (hs : f.size < 0x10000000000000000) (hg : g.Proper f)
    (haligned : va % PAGE64_SIZE = 0) (hroom : va + n * PAGE64_SIZE ≤ USPACE64_LIMIT)
    (h : loadPages k f g n va s = .ok (.ok, s')) : PagesLoaded f g va (va + n * PAGE64_SIZE) s s' := by
  induction n generalizing va s with
  | zero =>
    cases h
    rw [Nat.zero_mul]
    exact .none
  | succ n ih =>
    rw [loadPages] at h
    have hin : va < USPACE64_LIMIT := by
      simp only [PAGE64_SIZE] at hroom
      omega
    cases hpage : loadPage k f g va s with
    | error e => simp [hpage, bind, Except.bind] at h
    | ok r =>
      obtain ⟨r, t⟩ := r
      simp only [hpage, bind, Except.bind] at h
      split at h
      · rename_i hne
        simp only [Except.ok.injEq, Prod.mk.injEq] at h
        exact absurd h.1 hne
      · rename_i hok
        obtain rfl : r = .ok := by simpa using hok
        have hend : va + (n + 1) * PAGE64_SIZE = va + PAGE64_SIZE + n * PAGE64_SIZE := by
          rw [Nat.succ_mul]
          omega
        have hrest := ih (by simp only [PAGE64_SIZE] at *; omega) (hend ▸ hroom) h
        rw [hend]
        exact ((loadPage_loaded hs hg haligned hin hpage).pages haligned).append hrest (by omega) (by omega)

theorem Segment.Proper.pages (hg : g.Proper f) (hmem : g.memsz ≠ 0) :
    g.start % PAGE64_SIZE = 0 ∧ g.start + g.pages * PAGE64_SIZE ≤ USPACE64_LIMIT ∧ g.start ≤ g.vaddr ∧
      g.vaddr + g.memsz ≤ g.start + g.pages * PAGE64_SIZE := by
  have huser := hg.inUser
  have hstop : g.stop = pageOf (g.vaddr + g.memsz + PAGE64_SIZE - 1) := by
    rw [Segment.stop, u64_of_lt (by simp only [USPACE64_LIMIT, PAGE64_SIZE] at *; omega)]
  have hlt : g.start < g.stop := by
    rw [hstop]
    simp only [Segment.start, pageOf, PAGE64_SIZE]
    omega
  rw [start_add_pages hlt, hstop]
  simp only [Segment.start, pageOf, PAGE64_SIZE, USPACE64_LIMIT] at *
  omega

/-- What a segment adds to a space. -/
structure SegmentLoaded (f : File) (g : Segment) (s s' : Space) : Prop where
  stays : ∀ p, s.present p = true → s'.present p = true
  present : ∀ a, g.Covers a → s'.present (a / PAGE64_SIZE) = true
  keeps : ∀ p, s.present p = true → s.writable p = true → s'.writable p = true
  writable : g.writable = true → ∀ a, g.Covers a → s'.writable (a / PAGE64_SIZE) = true
  filed : ∀ a, g.Filed a → s'.view a = f.image (g.offset + (a - g.vaddr))
  same : ∀ a, ¬ g.Filed a → s'.view a = s.view a

theorem loadPages_segment (hs : f.size < 0x10000000000000000) (hg : g.Proper f) (hmem : g.memsz ≠ 0)
    (h : loadPages k f g g.pages g.start s = .ok (.ok, s')) : SegmentLoaded f g s s' := by
  obtain ⟨haligned, hroom, hstart, hcover⟩ := hg.pages hmem
  have hpages := loadPages_loaded hs hg haligned hroom h
  have hin : ∀ a, g.Covers a → g.start ≤ a ∧ a < g.start + g.pages * PAGE64_SIZE := by
    intro a ha
    exact ⟨Nat.le_trans hstart ha.1, Nat.lt_of_lt_of_le ha.2 hcover⟩
  have hfiled : ∀ a, g.Filed a → g.Covers a := fun a ha => ⟨ha.1, by have hsz := hg.filesz_le; have hlt := ha.2; omega⟩
  exact ⟨hpages.stays, fun a ha => hpages.present a (hin a ha).1 (hin a ha).2, hpages.keeps,
    fun hw a ha => hpages.writable hw a (hin a ha).1 (hin a ha).2,
    fun a ha => hpages.filed a ha (hin a (hfiled a ha)).1 (hin a (hfiled a ha)).2,
    fun a ha => hpages.same a fun hall => ha hall.1⟩

end Pages

/-! ## All segments -/

section Segments

variable {k : Kernel} {f : File} {h : Header} {bias : Nat} {s s' : Space}

/-- What segments add to a space. -/
structure Placed (f : File) (gs : List Segment) (s s' : Space) : Prop where
  stays : ∀ p, s.present p = true → s'.present p = true
  present : ∀ g ∈ gs, ∀ a, g.Covers a → s'.present (a / PAGE64_SIZE) = true
  keeps : ∀ p, s.present p = true → s.writable p = true → s'.writable p = true
  writable : ∀ g ∈ gs, g.writable = true → ∀ a, g.Covers a → s'.writable (a / PAGE64_SIZE) = true
  filed : ∀ g ∈ gs, ∀ a, g.Filed a → s'.view a = f.image (g.offset + (a - g.vaddr))
  same : ∀ a, (∀ g ∈ gs, ¬ g.Filed a) → s'.view a = s.view a

theorem Placed.nil : Placed f [] s s :=
  ⟨fun _ h => h, by simp, fun _ _ h => h, by simp, by simp, fun _ _ => rfl⟩

theorem Segment.Apart.not_filed {g g' : Segment} (ha : g.Apart g') (hg : g.Proper f) (hg' : g'.Proper f) {a : Nat}
    (hf : g.Filed a) : ¬ g'.Filed a := by
  have h₁ := hg.filesz_le
  have h₂ := hg'.filesz_le
  simp only [Segment.Apart, Segment.Filed] at *
  omega

theorem SegmentLoaded.cons {g : Segment} {gs : List Segment} {t : Space} (h₁ : SegmentLoaded f g s t)
    (h₂ : Placed f gs t s') (hapart : ∀ g' ∈ gs, g.Apart g') (hg : g.Proper f) (hgs : ∀ g' ∈ gs, g'.Proper f) :
    Placed f (g :: gs) s s' where
  stays p hp := h₂.stays p (h₁.stays p hp)
  present g' hg' a ha := by
    rcases List.mem_cons.1 hg' with rfl | hg'
    · exact h₂.stays _ (h₁.present a ha)
    · exact h₂.present g' hg' a ha
  keeps p hp hw := h₂.keeps p (h₁.stays p hp) (h₁.keeps p hp hw)
  writable g' hg' hw a ha := by
    rcases List.mem_cons.1 hg' with rfl | hg'
    · exact h₂.keeps _ (h₁.present a ha) (h₁.writable hw a ha)
    · exact h₂.writable g' hg' hw a ha
  filed g' hg' a ha := by
    rcases List.mem_cons.1 hg' with rfl | hg'
    · rw [h₂.same a fun g' hg'' => (hapart g' hg'').not_filed hg (hgs g' hg'') ha]
      exact h₁.filed a ha
    · exact h₂.filed g' hg' a ha
  same a hout := by
    rw [h₂.same a fun g' hg' => hout g' (List.mem_cons_of_mem _ hg')]
    exact h₁.same a (hout g (List.mem_cons_self ..))

theorem memsz_of_mem_segmentsFrom {n i : Nat} {g : Segment} (hg : g ∈ segmentsFrom f h bias n i) : g.memsz ≠ 0 := by
  induction n generalizing i with
  | zero => simp [segmentsFrom] at hg
  | succ n ih =>
    rw [segmentsFrom] at hg
    split at hg
    · exact ih hg
    · split at hg
      · exact ih hg
      · rename_i hmem
        rcases List.mem_cons.1 hg with rfl | hg
        · exact hmem
        · exact ih hg

theorem loadHeaders_step {n i : Nat} {x : Found} {r : Result × Found × Space}
    (hrun : loadHeaders k f h bias (n + 1) i x s = .ok r) (hok : r.1 = .ok) :
    (segmentsFrom f h bias (n + 1) i = segmentsFrom f h bias n (i + 1) ∧
        loadHeaders k f h bias n (i + 1) x s = .ok r) ∨
      ∃ g t, segmentsFrom f h bias (n + 1) i = g :: segmentsFrom f h bias n (i + 1) ∧
        loadPages k f g g.pages g.start s = .ok (.ok, t) ∧ loadHeaders k f h bias n (i + 1) (x.add h g) t = .ok r := by
  have hf : Faultless (loadHeaders k f h bias (n + 1) i x s) := by
    rw [hrun]
    exact fun hc => by cases hc
  rw [loadHeaders] at hf hrun
  have htype := File.faultless_get32 hf
  simp only [File.get32_eq _ htype, bind, Except.bind] at hf hrun
  by_cases hload : f.image.rd32 (h.phdr i) ≠ PT_LOAD
  · rw [if_pos hload] at hrun
    exact .inl ⟨if_pos hload, hrun⟩
  rw [if_neg hload] at hf hrun
  have hsize := File.faultless_get64 hf
  simp only [File.get64_eq _ hsize] at hrun
  by_cases hmem : f.image.rd64 (h.phdr i + 40) = 0
  · rw [if_pos hmem] at hrun
    exact .inl ⟨by rw [segmentsFrom, if_neg hload, if_pos hmem], hrun⟩
  rw [if_neg hmem] at hrun
  rw [segmentAt_eq (by omega)] at hrun
  dsimp only at hrun
  split at hrun
  · cases hrun
    cases hok
  · cases hpages : loadPages k f (segmentOf f bias (h.phdr i)) (segmentOf f bias (h.phdr i)).pages
        (segmentOf f bias (h.phdr i)).start s with
    | error e => simp [hpages] at hrun
    | ok rt =>
      obtain ⟨r', t⟩ := rt
      simp only [hpages] at hrun
      split at hrun
      · rename_i hne
        cases hrun
        exact absurd hok hne
      · rename_i hnot
        obtain rfl : r' = .ok := by simpa using hnot
        exact .inr ⟨_, t, by rw [segmentsFrom, if_neg hload, if_neg hmem], hpages, hrun⟩

theorem loadHeaders_placed {n i : Nat} {x x' : Found} (hs : f.size < 0x10000000000000000)
    (hproper : ∀ g ∈ segmentsFrom f h bias n i, g.Proper f)
    (hapart : (segmentsFrom f h bias n i).Pairwise Segment.Apart)
    (hrun : loadHeaders k f h bias n i x s = .ok (.ok, x', s')) :
    Placed f (segmentsFrom f h bias n i) s s' ∧
      x' = (segmentsFrom f h bias n i).foldl (fun x g => x.add h g) x := by
  induction n generalizing i x s with
  | zero =>
    obtain ⟨rfl, rfl⟩ := hrun
    exact ⟨.nil, rfl⟩
  | succ n ih =>
    rcases loadHeaders_step hrun rfl with ⟨hsegs, hrest⟩ | ⟨g, t, hsegs, hpages, hrest⟩
    · rw [hsegs] at hproper hapart ⊢
      exact ih hproper hapart hrest
    · have hmem := memsz_of_mem_segmentsFrom (hsegs ▸ List.mem_cons_self ..)
      rw [hsegs] at hproper hapart ⊢
      obtain ⟨hg, hgs⟩ := List.forall_mem_cons.1 hproper
      obtain ⟨hag, hags⟩ := List.pairwise_cons.1 hapart
      obtain ⟨hplaced, rfl⟩ := ih hgs hags hrest
      exact ⟨(loadPages_segment hs hg hmem hpages).cons hplaced hag hg hgs, rfl⟩

end Segments

/-! ## What is found on the way -/

section FoundOnTheWay

variable {f : File} {h : Header} {gs : List Segment}

/-- The file has the byte at `off` in the segment. -/
def Segment.HasOffset (g : Segment) (off : Nat) : Prop := g.offset ≤ off ∧ off < g.offset + g.filesz

/-- The address of the file's byte at `off`. -/
def Segment.addressOf (g : Segment) (off : Nat) : Nat := g.vaddr + (off - g.offset)

theorem Found.add_brkStart (x : Found) {g : Segment} (hg : g.Proper f) :
    (x.add h g).brkStart = max x.brkStart (g.vaddr + g.memsz) := by
  have huser := hg.inUser
  rw [Found.add, @u64_of_lt (g.vaddr + g.memsz) (by simp only [USPACE64_LIMIT] at huser; omega)]

theorem Found.add_phdrVa (x : Found) {g : Segment} (hs : f.size < 0x10000000000000000) (hg : g.Proper f) :
    (x.add h g).phdrVa = if x.phdrVa = 0 ∧ g.offset ≤ h.phoff ∧ h.phoff < g.offset + g.filesz
      then g.addressOf h.phoff else x.phdrVa := by
  obtain ⟨hfile, hsz, huser⟩ := hg
  rw [Found.add]
  rw [@u64_of_lt (g.offset + g.filesz) (by omega)]
  split
  · rw [u64_of_lt (by simp only [USPACE64_LIMIT] at huser; omega)]
    rfl
  · rfl

theorem brkStart_foldl {x : Found} (hgs : ∀ g ∈ gs, g.Proper f) (hx : x.brkStart ≤ USPACE64_LIMIT) :
    (∀ g ∈ gs, g.vaddr + g.memsz ≤ (gs.foldl (fun x g => x.add h g) x).brkStart) ∧
      x.brkStart ≤ (gs.foldl (fun x g => x.add h g) x).brkStart ∧
        (gs.foldl (fun x g => x.add h g) x).brkStart ≤ USPACE64_LIMIT := by
  induction gs generalizing x with
  | nil => exact ⟨by simp, Nat.le_refl _, hx⟩
  | cons g gs ih =>
    obtain ⟨hg, hrest⟩ := List.forall_mem_cons.1 hgs
    have hadd := @Found.add_brkStart f h x g hg
    have huser := hg.inUser
    obtain ⟨h₁, h₂, h₃⟩ := @ih (x.add h g) hrest (by rw [hadd]; omega)
    rw [List.foldl_cons]
    refine ⟨fun g' hg' => ?_, by omega, h₃⟩
    rcases List.mem_cons.1 hg' with rfl | hg'
    · omega
    · exact h₁ g' hg'

theorem phdrVa_foldl_same {x : Found} (hs : f.size < 0x10000000000000000) (hgs : ∀ g ∈ gs, g.Proper f)
    (hx : x.phdrVa ≠ 0 ∨ ∀ g ∈ gs, ¬ g.HasOffset h.phoff) :
    (gs.foldl (fun x g => x.add h g) x).phdrVa = x.phdrVa := by
  induction gs generalizing x with
  | nil => rfl
  | cons g gs ih =>
    obtain ⟨hg, hrest⟩ := List.forall_mem_cons.1 hgs
    have hadd : (x.add h g).phdrVa = x.phdrVa := by
      rw [Found.add_phdrVa x hs hg, if_neg]
      rintro ⟨h₁, h₂⟩
      rcases hx with hx | hx
      · exact hx h₁
      · exact hx g (List.mem_cons_self ..) h₂
    rw [List.foldl_cons, ih hrest, hadd]
    rcases hx with hx | hx
    · exact .inl (hadd ▸ hx)
    · exact .inr fun g' hg' => hx g' (List.mem_cons_of_mem _ hg')

theorem phdrVa_foldl {x : Found} (hs : f.size < 0x10000000000000000) (hgs : ∀ g ∈ gs, g.Proper f) (hx : x.phdrVa = 0)
    (hhas : ∃ g ∈ gs, g.HasOffset h.phoff) :
    ∃ g ∈ gs, g.HasOffset h.phoff ∧ (gs.foldl (fun x g => x.add h g) x).phdrVa = g.addressOf h.phoff := by
  induction gs generalizing x with
  | nil => simp at hhas
  | cons g gs ih =>
    obtain ⟨hg, hrest⟩ := List.forall_mem_cons.1 hgs
    rw [List.foldl_cons]
    have hadd := @Found.add_phdrVa f h x g hs hg
    by_cases hlater : (x.add h g).phdrVa = 0 ∧ ∃ g' ∈ gs, g'.HasOffset h.phoff
    · obtain ⟨g', hg', hfound⟩ := ih hrest hlater.1 hlater.2
      exact ⟨g', List.mem_cons_of_mem _ hg', hfound⟩
    · -- the address is that of this segment, which has to have the headers
      have hkeep := @phdrVa_foldl_same f h gs (x.add h g) hs hrest (by
        by_cases hz : (x.add h g).phdrVa = 0
        · exact .inr fun g' hg' hc => hlater ⟨hz, g', hg', hc⟩
        · exact .inl hz)
      have hthis : g.HasOffset h.phoff := by
        by_contra hnot
        have hzero : (x.add h g).phdrVa = 0 := by
          rw [hadd, if_neg fun hc => hnot hc.2, hx]
        obtain ⟨g', hg', hc⟩ := hhas
        rcases List.mem_cons.1 hg' with rfl | hg'
        · exact hnot hc
        · exact hlater ⟨hzero, g', hg', hc⟩
      exact ⟨g, List.mem_cons_self .., hthis, by rw [hkeep, hadd, if_pos ⟨hx, hthis⟩]⟩

end FoundOnTheWay

/-! ## The image -/

/-- The image is in the space as its program headers say. -/
structure LaidOut (f : File) (h : Header) (gs : List Segment) (info : Info) (s : Space) : Prop where
  mapped : ∀ g ∈ gs, ∀ a, g.Covers a → s.present (a / PAGE64_SIZE) = true
  bytes : ∀ g ∈ gs, ∀ j < g.filesz, s.mem (g.vaddr + j) = f.image (g.offset + j)
  zero : ∀ g ∈ gs, ∀ j, g.filesz ≤ j → j < g.memsz → s.mem (g.vaddr + j) = 0
  writable : ∀ g ∈ gs, g.writable = true → ∀ a, g.Covers a → s.writable (a / PAGE64_SIZE) = true
  phdr : (∃ g ∈ gs, g.HasOffset h.phoff) → ∃ g ∈ gs, g.HasOffset h.phoff ∧ info.phdrVa = g.addressOf h.phoff
  phdr_none : (∀ g ∈ gs, ¬ g.HasOffset h.phoff) → info.phdrVa = 0
  brk_aligned : info.brkStart % PAGE64_SIZE = 0
  brk_above : ∀ g ∈ gs, g.vaddr + g.memsz ≤ info.brkStart

instance : Std.Symm Segment.Apart := ⟨fun _ _ => Or.symm⟩

section Image

variable {k : Kernel} {f : File} {h : Header} {bias : Nat} {s s' : Space} {info : Info}

theorem Placed.view_zero {gs : List Segment} (hplaced : Placed f gs s s') (hempty : ∀ p, s.present p = false)
    (hproper : ∀ g ∈ gs, g.Proper f) (hapart : gs.Pairwise Segment.Apart) {g : Segment} (hg : g ∈ gs) {a : Nat}
    (hcovers : g.Covers a) (hnot : ¬ g.Filed a) : s'.view a = 0 := by
  rw [hplaced.same a fun g' hg' hf => ?_, Space.view, hempty]
  · rfl
  · have hsame : g = g' := by
      by_contra hne
      have hap := hapart.forall hg hg' hne
      have hsz := (hproper g' hg').filesz_le
      simp only [Segment.Apart, Segment.Covers, Segment.Filed] at *
      omega
    exact hnot (hsame ▸ hf)

/-- An ELF image is laid out as its program headers say. -/
theorem elf_laid_out (hwf : WellFormed f h bias) (hempty : ∀ p, s.present p = false)
    (hrun : elf64LoadAt k f bias true s = .ok (.ok, some info, s')) :
    LaidOut f h (segmentsFrom f h bias h.phnum 0) info s' := by
  obtain ⟨hs, hheader, hproper, hapart⟩ := hwf
  unfold elf64LoadAt at hrun
  simp only [hheader, bind, Except.bind] at hrun
  cases hload : loadHeaders k f h bias h.phnum 0 ⟨0, 0⟩ s with
  | error e => simp [hload] at hrun
  | ok r =>
    obtain ⟨r, x, t⟩ := r
    simp only [hload, and_true] at hrun
    split at hrun
    case isFalse => cases hrun
    case isTrue hok =>
    subst hok
    cases hinterp : elf64Interp f 128 with
    | error e => simp [hinterp] at hrun
    | ok interp =>
      simp only [hinterp, Except.ok.injEq, Prod.mk.injEq, Option.some.injEq, true_and] at hrun
      obtain ⟨rfl, rfl⟩ := hrun
      obtain ⟨hplaced, rfl⟩ := loadHeaders_placed hs hproper hapart hload
      generalize segmentsFrom f h bias h.phnum 0 = gs at *
      obtain ⟨habove, -, hlimit⟩ := @brkStart_foldl f h gs ⟨0, 0⟩ hproper (Nat.zero_le _)
      have hview : ∀ g ∈ gs, ∀ a, g.Covers a → t.view a = t.mem a :=
          fun g hg a ha => if_pos (hplaced.present g hg a ha)
      have hcovers : ∀ (g : Segment) j, j < g.memsz → g.Covers (g.vaddr + j) := by
        intro g j hj
        exact ⟨Nat.le_add_right _ _, by omega⟩
      refine ⟨hplaced.present, fun g hg j hj => ?_, fun g hg j h₁ h₂ => ?_, hplaced.writable,
        phdrVa_foldl hs hproper rfl, fun hnone => phdrVa_foldl_same hs hproper (.inr hnone), Nat.mul_mod_left _ _,
        fun g hg => Nat.le_trans (habove g hg) ?_⟩
      · have hsz := (hproper g hg).filesz_le
        have hbyte := hplaced.filed g hg (g.vaddr + j) ⟨Nat.le_add_right _ _, by omega⟩
        rw [← hview g hg _ (hcovers g j (by omega)), hbyte, Nat.add_sub_cancel_left]
      · rw [← hview g hg _ (hcovers g j h₂)]
        exact hplaced.view_zero hempty hproper hapart hg (hcovers g j h₂) fun hf => by
          have hlt := hf.2
          omega
      · dsimp only
        rw [u64_of_lt (by simp only [USPACE64_LIMIT, PAGE64_SIZE] at *; omega)]
        simp only [pageOf, PAGE64_SIZE]
        omega

end Image

/-! ## Two segments on one page -/

def noBytes : Mem := fun _ => 0

/-- A segment to be read at 0x400000, and one to be written that begins on the
same page. -/
def twoSegments : File where
  image := noBytes.wr32 0 0x464C457F |>.wr16 4 0x0102 |>.wr16 16 ET_EXEC |>.wr16 18 EM_X86_64 |>.wr64 32 64
    |>.wr16 54 56 |>.wr16 56 2
    |>.wr32 64 PT_LOAD |>.wr32 68 4 |>.wr64 80 0x400000 |>.wr64 96 176 |>.wr64 104 200
    |>.wr32 120 PT_LOAD |>.wr32 124 6 |>.wr64 128 176 |>.wr64 136 0x400100 |>.wr64 152 4 |>.wr64 160 5000
    |>.wr32 176 0x12345678
  size := 180

def nothingMapped : Space := ⟨noBytes, fun _ => false, fun _ => false, 0⟩

deriving instance DecidableEq for Segment, Header

def loaded : Except Stop (Result × Option Info × Space) → Option (Info × Space)
  | .ok (.ok, some info, s) => some (info, s)
  | _ => none

theorem exists_of_loaded {x : Except Stop (Result × Option Info × Space)} (h : (loaded x).isSome = true) :
    ∃ info s, x = .ok (.ok, some info, s) := by
  unfold loaded at h
  split at h
  · exact ⟨_, _, rfl⟩
  · cases h

set_option maxRecDepth 20000

theorem wellFormed_twoSegments : WellFormed twoSegments ⟨ET_EXEC, 0, 64, 56, 2⟩ 0 := by
  have hsegs : segmentsFrom twoSegments ⟨ET_EXEC, 0, 64, 56, 2⟩ 0 2 0 =
      [⟨false, 0, 0x400000, 176, 200⟩, ⟨true, 176, 0x400100, 4, 5000⟩] := by
    with_unfolding_all decide
  refine ⟨by decide, by with_unfolding_all decide, ?_, ?_⟩
  · rw [hsegs]
    simp only [List.forall_mem_cons, List.not_mem_nil, false_imp_iff, implies_true, and_true]
    exact ⟨⟨by decide, by decide, by decide⟩, by decide, by decide, by decide⟩
  · rw [hsegs]
    simp [Segment.Apart]

theorem elf_laid_out_twoSegments :
    ∃ info s, elf64LoadAt roomy twoSegments 0 true nothingMapped = .ok (.ok, some info, s) ∧
      LaidOut twoSegments ⟨ET_EXEC, 0, 64, 56, 2⟩ (segmentsFrom twoSegments ⟨ET_EXEC, 0, 64, 56, 2⟩ 0 2 0) info s := by
  have hloaded : (loaded (elf64LoadAt roomy twoSegments 0 true nothingMapped)).isSome =
      true := by with_unfolding_all decide
  obtain ⟨info, s, hrun⟩ := exists_of_loaded hloaded
  exact ⟨info, s, hrun, elf_laid_out wellFormed_twoSegments (fun _ => rfl) hrun⟩

end Elf

end NovarisOS.Loader64
