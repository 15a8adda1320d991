/-
NovarisOS.Posix.KernelWalks — when the memory calls of the 32-bit kernel leave
the kernel's own pages alone.

`munmap` and `mprotect` check alignment and nothing else.
-/
import Mathlib.Data.List.Nodup
import NovarisOS.Posix.KernelRanges

namespace NovarisOS.Posix

open Function (update_of_ne update_self)

namespace Machine

variable {m₀ m : Machine} {va b frame prot n : Nat} {l : List Nat}

/-! ## `munmap` -/

/-- The kernel's entries are what they were. -/
def SameKernel (m₀ m : Machine) : Prop :=
  ∀ b, Page b → m₀.Kernel b → m.pagingGetEntry b = m₀.pagingGetEntry b

theorem unmapPage_other (hp : Page va) (hb : Page b) (hn : pdIndex va ≠ RECURSIVE_PD_INDEX) (hne : b ≠ va) :
    (m.pagingUnmapPage va).pagingGetEntry b = m.pagingGetEntry b := by
  unfold pagingUnmapPage
  split
  · rename_i hpd
    rw [getEntry_setTable hp hb hn hpd, if_neg hne]
  · rfl

theorem unmapOne_entry (m : Machine) (va b : Nat) :
    (m.unmapOne va).pagingGetEntry b = m.pagingGetEntry b ∨
      (m.unmapOne va).pagingGetEntry b = (m.pagingUnmapPage va).pagingGetEntry b := by
  unfold unmapOne
  dsimp only
  split
  · right
    split
    · exact free_entry _ _ _ _
    · rfl
  · exact Or.inl rfl

theorem unmapOne_other (hp : Page va) (hb : Page b) (hn : pdIndex va ≠ RECURSIVE_PD_INDEX) (hne : b ≠ va) :
    (m.unmapOne va).pagingGetEntry b = m.pagingGetEntry b := by
  rcases m.unmapOne_entry va b with h | h
  · exact h
  · rw [h, unmapPage_other hp hb hn hne]

theorem unmapPage_absent (h : (m.pagingGetEntry b).present = false) :
    ((m.pagingUnmapPage va).pagingGetEntry b).present = false := by
  unfold pagingUnmapPage
  split
  · by_cases hn : pdIndex va = RECURSIVE_PD_INDEX
    · by_cases hd : pdIndex b = ptIndex va
      · simp [pagingGetEntry, setTable, hn, hd]
      · by_cases hr : pdIndex b = RECURSIVE_PD_INDEX
        · by_cases ht : ptIndex b = ptIndex va
          · have hd' : ¬ RECURSIVE_PD_INDEX = ptIndex va := hr ▸ hd
            simp only [pagingGetEntry, setTable, hn, hr, tableAt, if_true, ht, update_self,
              update_of_ne hd']
            split <;> rfl
          · simpa [pagingGetEntry, setTable, hn, hd, tableAt, hr, ht, hr ▸ hd] using h
        · simpa [pagingGetEntry, setTable, hn, hd, tableAt, hr] using h
    · by_cases hd : pdIndex b = pdIndex va
      · by_cases ht : ptIndex b = ptIndex va
        · simp only [pagingGetEntry, setTable, hn, hd, tableAt, if_false, ht, update_self]
          split <;> rfl
        · simpa [pagingGetEntry, setTable, hn, hd, tableAt, ht] using h
      · by_cases hr : pdIndex b = RECURSIVE_PD_INDEX
        · simpa [pagingGetEntry, setTable, hn, tableAt, hr] using h
        · simpa [pagingGetEntry, setTable, hn, tableAt, hr, hd] using h
  · exact h

theorem unmapPage_self (m : Machine) (va : Nat) :
    ((m.pagingUnmapPage va).pagingGetEntry va).present = false := by
  unfold pagingUnmapPage
  split
  · by_cases hn : pdIndex va = RECURSIVE_PD_INDEX
    · by_cases hd : RECURSIVE_PD_INDEX = ptIndex va
      · simp [pagingGetEntry, setTable, hn, ← hd]
      · simp only [pagingGetEntry, setTable, hn, tableAt, if_true, update_self,
          update_of_ne hd]
        split <;> rfl
    · simp only [pagingGetEntry, setTable, hn, tableAt, if_false, update_self]
      split <;> rfl
  · rename_i hpd
    simp [pagingGetEntry, hpd]

theorem unmapOne_self (m : Machine) (va : Nat) : ((m.unmapOne va).pagingGetEntry va).present = false := by
  unfold unmapOne
  dsimp only
  split
  · split
    · rw [free_entry]
      exact m.unmapPage_self va
    · exact m.unmapPage_self va
  · rename_i h
    simp only [Entry.taken, Bool.or_eq_true, not_or, Bool.not_eq_true] at h
    exact h.1

theorem unmapPages_absent : ∀ {l : List Nat} {m : Machine}, (m.pagingGetEntry b).present = false →
    ((l.foldl unmapOne m).pagingGetEntry b).present = false := by
  intro l
  induction l with
  | nil => intro m h; exact h
  | cons va rest ih =>
    intro m h
    refine ih ?_
    rcases m.unmapOne_entry va b with he | he
    · rw [he]
      exact h
    · rw [he]
      exact unmapPage_absent h

theorem unmapOne_harmless (hwf : m₀.WellFormed) (hq : Quiet m₀ m) (hs : SameKernel m₀ m) (hp : Page va)
    (hva : m₀.Kernel va → (m₀.pagingGetEntry va).present = false) :
    Quiet m₀ (m.unmapOne va) ∧ SameKernel m₀ (m.unmapOne va) := by
  by_cases hk : m₀.Kernel va
  · have hnot : (m.pagingGetEntry va).taken = false := by
      rw [hs va hp hk]
      have hres := hwf.vacant va hp hk
      simpa [Entry.taken, Entry.reserved, hva hk] using hres
    have hid : m.unmapOne va = m := by simp [unmapOne, hnot]
    rw [hid]
    exact ⟨hq, hs⟩
  · refine ⟨hq.unmapOne hp hk, ?_⟩
    intro b hb hkb
    rw [unmapOne_other hp hb (pdIndex_ne hk) (by rintro rfl; exact hk hkb)]
    exact hs b hb hkb

theorem unmapPages_harmless (hwf : m₀.WellFormed) : ∀ {l : List Nat} {m : Machine}, Quiet m₀ m →
    SameKernel m₀ m → (∀ va ∈ l, Page va) →
    (∀ va ∈ l, m₀.Kernel va → (m₀.pagingGetEntry va).present = false) → Quiet m₀ (l.foldl unmapOne m) := by
  intro l
  induction l with
  | nil => intro m hq _ _ _; exact hq
  | cons va rest ih =>
    intro m hq hs hp hl
    obtain ⟨hq', hs'⟩ := unmapOne_harmless hwf hq hs (hp va (by simp)) (hl va (by simp))
    exact ih hq' hs' (fun a ha => hp a (List.mem_cons_of_mem _ ha)) (fun a ha => hl a (List.mem_cons_of_mem _ ha))

theorem unmapPages_harm (hwf : m₀.WellFormed) : ∀ {l : List Nat} {m : Machine}, Quiet m₀ m →
    SameKernel m₀ m → (∀ va ∈ l, Page va) →
    (∃ va ∈ l, m₀.Kernel va ∧ (m₀.pagingGetEntry va).present = true) →
    ∃ va, Page va ∧ m₀.Kernel va ∧ (m₀.pagingGetEntry va).present = true ∧
      ((l.foldl unmapOne m).pagingGetEntry va).present = false := by
  intro l
  induction l with
  | nil => rintro m _ _ _ ⟨va, hva, _⟩; cases hva
  | cons va rest ih =>
    intro m hq hs hp hex
    by_cases hfirst : m₀.Kernel va ∧ (m₀.pagingGetEntry va).present = true
    · refine ⟨va, hp va (by simp), hfirst.1, hfirst.2, ?_⟩
      rw [List.foldl_cons]
      exact unmapPages_absent (m.unmapOne_self va)
    · have hva : m₀.Kernel va → (m₀.pagingGetEntry va).present = false := by
        intro hk
        simpa using fun h => hfirst ⟨hk, h⟩
      obtain ⟨hq', hs'⟩ := unmapOne_harmless hwf hq hs (hp va (by simp)) hva
      refine ih hq' hs' (fun a ha => hp a (List.mem_cons_of_mem _ ha)) ?_
      obtain ⟨a, ha, hka⟩ := hex
      rcases List.mem_cons.mp ha with rfl | ha
      · exact absurd hka hfirst
      · exact ⟨a, ha, hka⟩

/-! ## `mprotect` -/

/-- The frames `pmm_alloc_frame` has left to hand out. -/
def framesLeft (m : Machine) : Nat :=
  ((List.range' m.searchFrom (m.highestFrame + 1 - m.searchFrom)).filter (fun f => !m.used f)).length

/-- The mapped pages the walk of `mprotect` gets to: it stops at an address
that is neither mapped nor reserved, and at a reservation there is no frame
for. -/
def reached (m : Machine) (prot : Nat) : Nat → List Nat → List Nat
  | _, [] => []
  | n, va :: rest =>
      if (m.pagingGetEntry va).present then va :: reached m prot n rest
      else if (m.pagingGetEntry va).bit10 = false then []
      else if prot = PROT_NONE then reached m prot n rest
      else if n = 0 then []
      else reached m prot (n - 1) rest

/-- The entry `mprotect` makes of a mapped one. -/
def protectedEntry (m : Machine) (prot va : Nat) : Entry :=
  entryOf (m.pagingGetEntry va).frame (reprotect (m.pagingGetEntry va) (protToPte prot))

theorem find_filter {p : Nat → Bool} {f : Nat} : ∀ {k s : Nat}, (List.range' s k).find? p = some f →
    s ≤ f ∧ ((List.range' s k).filter p).length =
      ((List.range' (f + 1) (s + k - (f + 1))).filter p).length + 1 := by
  intro k
  induction k with
  | zero => intro s h; simp at h
  | succ k ih =>
    intro s h
    rw [List.range'_succ] at h ⊢
    by_cases hp : p s = true
    · simp only [List.find?_cons, hp, Option.some.injEq] at h
      subst h
      have : s + (k + 1) - (s + 1) = k := by omega
      simp [hp, this]
    · simp only [List.find?_cons, hp] at h
      obtain ⟨hle, hlen⟩ := ih h
      have : s + 1 + k - (f + 1) = s + (k + 1) - (f + 1) := by omega
      simp only [List.filter_cons, hp, Bool.false_eq_true, if_false, hlen, this]
      exact ⟨by omega, trivial⟩

theorem alloc_some (h : m.framesLeft ≠ 0) :
    m.used m.pmmAllocFrame.1 = false ∧ m.pmmAllocFrame.2.framesLeft = m.framesLeft - 1 := by
  unfold framesLeft at *
  cases hf : (List.range' m.searchFrom (m.highestFrame + 1 - m.searchFrom)).find? (fun f => !m.used f) with
  | none =>
    refine absurd ?_ h
    rw [List.length_eq_zero_iff, List.filter_eq_nil_iff]
    intro a ha
    exact List.find?_eq_none.mp hf a ha
  | some f =>
    obtain ⟨hle, hlen⟩ := find_filter hf
    have hstop : m.searchFrom + (m.highestFrame + 1 - m.searchFrom) - (f + 1) = m.highestFrame + 1 - (f + 1) := by
      omega
    simp only [pmmAllocFrame, hf]
    refine ⟨by simpa using List.find?_some hf, ?_⟩
    rw [hlen, hstop, Nat.add_sub_cancel]
    congr 1
    apply List.filter_congr
    intro a ha
    rw [List.mem_range'_1] at ha
    have hne : a ≠ f := by omega
    simp [hne]

theorem alloc_none (h : m.framesLeft = 0) : m.pmmAllocFrame.1 = 0 := by
  unfold framesLeft at h
  unfold pmmAllocFrame
  rw [List.length_eq_zero_iff, List.filter_eq_nil_iff] at h
  rw [List.find?_eq_none.mpr h]

/-- With its table there, `paging_map_page` writes one entry. For the
directory's own view this asks that the entry led somewhere before: then what
it leads to stays. -/
theorem getEntry_mapPage {f : Flags} (hp : Page va) (hb : Page b)
    (hva : (m.pagingGetEntry va).present = true ∨
      ((m.pagingGetEntry va).bit10 = true ∧ pdIndex va ≠ RECURSIVE_PD_INDEX)) :
    (m.pagingMapPage va frame f).pagingGetEntry b = if b = va then entryOf frame f else m.pagingGetEntry b := by
  have hpd : (m.pd (pdIndex va)).present = true := by
    by_contra hpd
    simp [pagingGetEntry, hpd] at hva
  have hmap : m.pagingMapPage va frame f = m.setTable (pdIndex va) (ptIndex va) (entryOf frame f) := by
    simp [pagingMapPage, needTable, hpd]
  rw [hmap]
  by_cases hn : pdIndex va = RECURSIVE_PD_INDEX
  · have hold : (m.pd (ptIndex va)).present = true := by
      rcases hva with hva | hva
      · simpa [pagingGetEntry, hn ▸ hpd, tableAt, hn] using hva
      · exact absurd hn hva.2
    -- The directory entry that changes was present and is present.
    have hpres : ∀ k, ((m.setTable (pdIndex va) (ptIndex va) (entryOf frame f)).pd k).present = (m.pd k).present := by
      intro k
      by_cases hk : k = ptIndex va
      · simp [setTable, hn, hk, hold, entryOf]
      · simp [setTable, hn, hk]
    unfold pagingGetEntry
    rw [hpres]
    by_cases hba : b = va
    · subst hba
      rw [if_pos hpd]
      simp [tableAt, setTable, hn]
    · rw [if_neg hba]
      by_cases hd : pdIndex b = RECURSIVE_PD_INDEX
      · have ht : ptIndex b ≠ ptIndex va := fun ht => hba (page_ext hb hp (hd.trans hn.symm) ht)
        simp [tableAt, setTable, hn, hd, ht]
      · simp [tableAt, setTable, hn, hd]
  · exact getEntry_setTable hp hb hn hpd

/-- Where the walk stands: the entries still ahead are those of the start,
and memory is as far used up as the count says. -/
structure Ahead (m₀ : Machine) (l : List Nat) (n : Nat) (m : Machine) : Prop where
  pages : ∀ va ∈ l, Page va
  nodup : l.Nodup
  entries : ∀ va ∈ l, m.pagingGetEntry va = m₀.pagingGetEntry va
  left : m.framesLeft = n
  used : ∀ f, m.used f = false → m₀.used f = false

theorem mapPage_pmm (frame : Nat) (f : Flags)
    (hva : (m.pagingGetEntry va).present = true ∨ (m.pagingGetEntry va).bit10 = true) :
    (m.pagingMapPage va frame f).used = m.used ∧ (m.pagingMapPage va frame f).framesLeft = m.framesLeft := by
  have hpd : (m.pd (pdIndex va)).present = true := by
    by_contra hpd
    simp [pagingGetEntry, hpd] at hva
  have hmap : m.pagingMapPage va frame f = m.setTable (pdIndex va) (ptIndex va) (entryOf frame f) := by
    simp [pagingMapPage, needTable, hpd]
  rw [hmap]
  unfold setTable
  split <;> exact ⟨rfl, rfl⟩

namespace Ahead

theorem reprotect {f : Flags} {rest : List Nat} (h : Ahead m₀ (va :: rest) n m)
    (hva : (m₀.pagingGetEntry va).present = true) : Ahead m₀ rest n (m.pagingMapPage va frame f) := by
  have hva' : (m.pagingGetEntry va).present = true := by rw [h.entries va (by simp)]; exact hva
  obtain ⟨hused, hleft⟩ := mapPage_pmm frame f (Or.inl hva')
  refine ⟨fun a ha => h.pages a (List.mem_cons_of_mem _ ha), (List.nodup_cons.mp h.nodup).2, ?_,
    hleft.trans h.left, hused ▸ h.used⟩
  intro a ha
  rw [getEntry_mapPage (h.pages va (by simp)) (h.pages a (List.mem_cons_of_mem _ ha)) (Or.inl hva'), if_neg]
  · exact h.entries a (List.mem_cons_of_mem _ ha)
  · rintro rfl
    exact (List.nodup_cons.mp h.nodup).1 ha

theorem skip {rest : List Nat} (h : Ahead m₀ (va :: rest) n m) : Ahead m₀ rest n m :=
  ⟨fun a ha => h.pages a (List.mem_cons_of_mem _ ha), (List.nodup_cons.mp h.nodup).2,
    fun a ha => h.entries a (List.mem_cons_of_mem _ ha), h.left, h.used⟩

theorem cashIn {f : Flags} {rest : List Nat} (h : Ahead m₀ (va :: rest) n m) (hn : n ≠ 0)
    (hva : (m₀.pagingGetEntry va).bit10 = true) (hk : ¬ m₀.Kernel va) :
    Ahead m₀ rest (n - 1) (m.pmmAllocFrame.2.pagingMapPage va frame f) := by
  have hbit : (m.pmmAllocFrame.2.pagingGetEntry va).bit10 = true := by
    rw [alloc_entry, h.entries va (by simp)]
    exact hva
  obtain ⟨hused, hleft⟩ := mapPage_pmm frame f (Or.inr hbit)
  refine ⟨fun a ha => h.pages a (List.mem_cons_of_mem _ ha), (List.nodup_cons.mp h.nodup).2, ?_, ?_, ?_⟩
  · intro a ha
    rw [getEntry_mapPage (h.pages va (by simp)) (h.pages a (List.mem_cons_of_mem _ ha))
      (Or.inr ⟨hbit, pdIndex_ne hk⟩), if_neg, alloc_entry]
    · exact h.entries a (List.mem_cons_of_mem _ ha)
    · rintro rfl
      exact (List.nodup_cons.mp h.nodup).1 ha
  · rw [hleft, (alloc_some (h.left ▸ hn)).2, h.left]
  · intro g hg
    rw [hused] at hg
    exact h.used g (alloc_used hg)

end Ahead

theorem alloc_ne_zero (hwf : m₀.WellFormed) (h : Ahead m₀ l n m) (hn : n ≠ 0) : m.pmmAllocFrame.1 ≠ 0 := by
  intro h0
  have hfree := (alloc_some (h.left ▸ hn)).1
  rw [h0] at hfree
  exact hwf.nobodys (Or.inl (h.used 0 hfree))

theorem not_kernel_of_reserved (hwf : m₀.WellFormed) (hp : Page va)
    (hpres : (m₀.pagingGetEntry va).present = false) (hbit : (m₀.pagingGetEntry va).bit10 = true) :
    ¬ m₀.Kernel va := by
  intro hk
  have := hwf.vacant va hp hk
  simp [Entry.reserved, hpres, hbit] at this

/-- A mapped page of the kernel is written with the rights it has. -/
theorem Quiet.regrant {f : Flags} (h : Quiet m₀ m) (hp : Page va) (hk : m₀.Kernel va)
    (hpres : (m₀.pagingGetEntry va).present = true)
    (hgrant : (entryOf frame f).grant = (m₀.pagingGetEntry va).grant) :
    Quiet m₀ (m.pagingMapPage va frame f) := by
  have hva : (m.pagingGetEntry va).present = true := by
    have := h.kept va hp hk hpres
    simp only [Entry.grant, Prod.mk.injEq] at this
    rw [this.2.1, hpres]
  have hentry : ∀ b, Page b → (m.pagingMapPage va frame f).pagingGetEntry b =
      if b = va then entryOf frame f else m.pagingGetEntry b :=
    fun b hb => getEntry_mapPage hp hb (Or.inl hva)
  have hpd : (m.pd (pdIndex va)).present = true := by
    by_contra hpd
    simp [pagingGetEntry, hpd] at hva
  have hmap : m.pagingMapPage va frame f = m.setTable (pdIndex va) (ptIndex va) (entryOf frame f) := by
    simp [pagingMapPage, Machine.needTable, hpd]
  have hfields : (m.pagingMapPage va frame f).released = m.released ∧
      (m.pagingMapPage va frame f).reservations = m.reservations ∧
      (m.pagingMapPage va frame f).heapEnd = m.heapEnd ∧ (m.pagingMapPage va frame f).brkMapped = m.brkMapped ∧
      (m.pagingMapPage va frame f).mmapNext = m.mmapNext := by
    rw [hmap]
    unfold setTable
    split <;> exact ⟨rfl, rfl, rfl, rfl, rfl⟩
  obtain ⟨hrel, hres, hheap, hbrk, hnext⟩ := hfields
  refine ⟨⟨?_, ?_, ?_⟩, hres.trans h.ranges, ?_, ?_, ?_, hbrk.trans h.brk, hnext.trans h.next⟩
  · intro b hb hkb hpresb
    rw [hentry b hb]
    split
    · rename_i hbv
      subst hbv
      exact hgrant
    · exact h.kept b hb hkb hpresb
  · intro b hb hkb hr hnot
    rw [hentry b hb, if_neg]
    · exact h.barred b hb hkb hr hnot
    · rintro rfl
      rw [hpres] at hnot
      cases hnot
  · rw [hrel]
    exact h.released
  · rintro g (hg | ⟨b, hb, hkb, he⟩)
    · exact h.own g (Or.inl ((mapPage_pmm frame f (Or.inl hva)).1 ▸ hg))
    · have hkb' : ¬ m.Kernel b := by simpa only [Kernel, pagingRegionConflict, hres] using hkb
      rw [hentry b hb, if_neg] at he
      · exact h.own g (Or.inr ⟨b, hb, hkb', he⟩)
      · rintro rfl
        exact hkb' ((h.kernel_iff b).mpr hk)
  · intro b hb hkb hv
    rw [hentry b hb]
    split
    · simp [Entry.reserved, entryOf]
    · exact h.vacant b hb hkb hv
  · intro h0
    have hm := h.heap h0
    refine ⟨hheap ▸ hm.aligned, hheap ▸ hm.start, ?_, ?_⟩
    · intro k hlo hhi
      rw [hmap]
      unfold setTable
      split
      · by_cases hk' : k = ptIndex va
        · simp [hk', entryOf]
        · simpa [hk'] using hm.tables k hlo hhi
      · exact hm.tables k hlo hhi
    · intro b hb hle hlt
      rw [hheap] at hle
      rw [hentry b hb, if_neg]
      · exact hm.fresh b hb hle hlt
      · rintro rfl
        rw [hm.fresh b hb hle hlt] at hva
        cases hva

theorem protectPages_other (hwf : m₀.WellFormed) (hb : Page b) : ∀ {l : List Nat} {n : Nat} {m : Machine},
    Ahead m₀ l n m → b ∉ l → (protectPages prot l m).2.pagingGetEntry b = m.pagingGetEntry b := by
  intro l
  induction l with
  | nil => intro n m _ _; rfl
  | cons va rest ih =>
    intro n m h hbl
    have hne : b ≠ va := fun hbv => hbl (hbv ▸ List.mem_cons_self)
    have hrest : b ∉ rest := fun hbr => hbl (List.mem_cons_of_mem _ hbr)
    have hp := h.pages va (by simp)
    have he := h.entries va (by simp)
    unfold protectPages
    dsimp only
    split
    · rename_i hpres
      rw [ih (h.reprotect (he ▸ hpres)) hrest, getEntry_mapPage hp hb (Or.inl hpres), if_neg hne]
    · rename_i hpres
      split
      · rfl
      · rename_i hbit
        have hk : ¬ m₀.Kernel va := not_kernel_of_reserved hwf hp (by simpa [he] using hpres) (by simpa [he] using hbit)
        split
        · exact ih h.skip hrest
        · by_cases hn : n = 0
          · rw [if_pos (alloc_none (h.left.trans hn)), alloc_entry]
          · rw [if_neg (alloc_ne_zero hwf h hn),
              ih (h.cashIn hn (by simpa [he] using hbit) hk) hrest,
              getEntry_mapPage hp hb (Or.inr ⟨by simpa [alloc_entry] using hbit, pdIndex_ne hk⟩), if_neg hne,
              alloc_entry]

theorem protectPages_harmless (prot : Nat) (hwf : m₀.WellFormed) : ∀ {l : List Nat} {n : Nat} {m : Machine},
    Ahead m₀ l n m → Quiet m₀ m →
    (∀ va ∈ m₀.reached prot n l, m₀.Kernel va →
      (m₀.protectedEntry prot va).grant = (m₀.pagingGetEntry va).grant) →
    Quiet m₀ (protectPages prot l m).2 := by
  intro l
  induction l with
  | nil => intro n m _ hq _; exact hq
  | cons va rest ih =>
    intro n m h hq hall
    have hp := h.pages va (by simp)
    have he := h.entries va (by simp)
    unfold protectPages
    unfold reached at hall
    dsimp only
    by_cases hpres : (m₀.pagingGetEntry va).present = true
    · rw [if_pos hpres] at hall
      rw [if_pos (he ▸ hpres)]
      refine ih (h.reprotect hpres) ?_ (fun a ha => hall a (List.mem_cons_of_mem _ ha))
      by_cases hk : m₀.Kernel va
      · rw [he]
        exact hq.regrant hp hk hpres (hall va (by simp) hk)
      · refine hq.mapPage hp hk ?_
        cases hsh : (m.pagingGetEntry va).shared
        · exact Or.inr (hq.program_of_entry hp hk (he ▸ hpres) hsh)
        · left
          unfold Machine.reprotect
          split <;> simp [hsh]
    · rw [if_neg hpres] at hall
      rw [if_neg (he ▸ hpres)]
      by_cases hbit : (m₀.pagingGetEntry va).bit10 = false
      · rw [if_pos (he ▸ hbit)]
        exact hq
      · rw [if_neg hbit] at hall
        rw [if_neg (he ▸ hbit)]
        have hk : ¬ m₀.Kernel va := not_kernel_of_reserved hwf hp (by simpa using hpres) (by simpa using hbit)
        split
        · rename_i hprot
          rw [if_pos hprot] at hall
          exact ih h.skip hq hall
        · rename_i hprot
          rw [if_neg hprot] at hall
          by_cases hn : n = 0
          · rw [if_pos (alloc_none (h.left.trans hn))]
            exact hq.alloc
          · have hne := alloc_ne_zero hwf h hn
            rw [if_neg hn] at hall
            rw [if_neg hne]
            exact ih (h.cashIn hn (by simpa using hbit) hk)
              (hq.alloc.mapPage hp hk (Or.inr (hq.alloc_program hne))) hall

theorem protectPages_harm (hwf : m₀.WellFormed) : ∀ {l : List Nat} {n : Nat} {m : Machine},
    Ahead m₀ l n m → ∀ va ∈ m₀.reached prot n l,
    Page va ∧ (m₀.pagingGetEntry va).present = true ∧
      (protectPages prot l m).2.pagingGetEntry va = m₀.protectedEntry prot va := by
  intro l
  induction l with
  | nil => intro n m _ va hva; simp [reached] at hva
  | cons a rest ih =>
    intro n m h va hva
    have hp := h.pages a (by simp)
    have he := h.entries a (by simp)
    unfold protectPages
    unfold reached at hva
    dsimp only
    by_cases hpres : (m₀.pagingGetEntry a).present = true
    · rw [if_pos hpres] at hva
      rw [if_pos (he ▸ hpres)]
      rcases List.mem_cons.mp hva with rfl | hva
      · refine ⟨hp, hpres, ?_⟩
        rw [protectPages_other hwf hp (h.reprotect hpres) (List.nodup_cons.mp h.nodup).1,
          getEntry_mapPage hp hp (Or.inl (he ▸ hpres)), if_pos rfl, he]
        rfl
      · exact ih (h.reprotect hpres) va hva
    · rw [if_neg hpres] at hva
      rw [if_neg (he ▸ hpres)]
      by_cases hbit : (m₀.pagingGetEntry a).bit10 = false
      · rw [if_pos hbit] at hva
        cases hva
      · rw [if_neg hbit] at hva
        rw [if_neg (he ▸ hbit)]
        have hk : ¬ m₀.Kernel a := not_kernel_of_reserved hwf hp (by simpa using hpres) (by simpa using hbit)
        split
        · rename_i hprot
          rw [if_pos hprot] at hva
          exact ih h.skip va hva
        · rename_i hprot
          rw [if_neg hprot] at hva
          by_cases hn : n = 0
          · rw [if_pos hn] at hva
            cases hva
          · rw [if_neg hn] at hva
            rw [if_neg (alloc_ne_zero hwf h hn)]
            exact ih (h.cashIn hn (by simpa using hbit) hk) va hva

/-! ## The four calls -/

theorem nodup_pages (lo hi : Nat) : (pages lo hi).Nodup := by
  refine List.Nodup.map ?_ List.nodup_range
  intro a b hab
  simp only [PAGE_SIZE] at hab
  omega

/-- When a call leaves the kernel's ranges alone. -/
def Harmless (m : Machine) : Call → Prop
  | .mmap2 .. => True
  | .brk _ => True
  | .munmap addr length =>
      Page addr.toNat → length ≠ 0 →
        ∀ va ∈ pages addr.toNat (u32 (addr.toNat + roundUp length.toNat)), m.Kernel va →
          (m.pagingGetEntry va).present = false
  | .mprotect addr length prot =>
      Page addr.toNat →
        ∀ va ∈ m.reached prot.toNat m.framesLeft (pages addr.toNat (u32 (addr.toNat + roundUp length.toNat))),
          m.Kernel va → (m.protectedEntry prot.toNat va).grant = (m.pagingGetEntry va).grant

theorem munmap_iff {addr length : UInt32} (hwf : m.WellFormed) :
    (KernelKept m (m.call (.munmap addr length)).2 ↔ m.Harmless (.munmap addr length)) ∧
      (m.Harmless (.munmap addr length) → (m.call (.munmap addr length)).2.WellFormed) := by
  have hsame : Quiet m m := Quiet.refl m
  unfold Harmless Machine.call sysMunmap
  dsimp only
  by_cases hp : Page addr.toNat
  · rw [if_neg (show ¬ addr.toNat % PAGE_SIZE ≠ 0 from fun h => h hp)]
    by_cases hl : length = 0
    · rw [if_pos (by simp [hl])]
      exact ⟨⟨fun _ _ h => absurd hl h, fun _ => hsame.toKernelKept⟩, fun _ => hwf⟩
    · have hlen : ¬ length.toNat = 0 := by
        intro h
        exact hl (by simpa using UInt32.toNat_inj.mp (h.trans UInt32.toNat_zero.symm))
      rw [if_neg hlen]
      have hpages : ∀ va ∈ pages addr.toNat (u32 (addr.toNat + roundUp length.toNat)), Page va :=
        fun va hva => page_of_mem hp hva
      have hgood : (∀ va ∈ pages addr.toNat (u32 (addr.toNat + roundUp length.toNat)), m.Kernel va →
          (m.pagingGetEntry va).present = false) →
          Quiet m (m.unmapRange addr.toNat (roundUp length.toNat)) :=
        fun h => unmapPages_harmless hwf hsame (fun _ _ _ => rfl) hpages h
      refine ⟨⟨fun hkept _ _ va hva hk => ?_, fun h => (hgood (h hp hl)).toKernelKept⟩,
        fun h => hwf.of_quiet (hgood (h hp hl))⟩
      by_contra hpres
      obtain ⟨b, hb, hkb, hpb, hgone⟩ :=
        unmapPages_harm hwf hsame (fun _ _ _ => rfl) hpages ⟨va, hva, hk, by simpa using hpres⟩
      have hgrant := hkept.kept b hb hkb hpb
      simp only [Entry.grant, Prod.mk.injEq] at hgrant
      rw [hpb] at hgrant
      exact absurd (hgrant.2.1.symm.trans hgone) (by simp)
  · rw [if_pos (show addr.toNat % PAGE_SIZE ≠ 0 from hp)]
    exact ⟨⟨fun _ h => absurd h hp, fun _ => hsame.toKernelKept⟩, fun _ => hwf⟩

theorem mprotect_iff {addr length prot : UInt32} (hwf : m.WellFormed) :
    (KernelKept m (m.call (.mprotect addr length prot)).2 ↔ m.Harmless (.mprotect addr length prot)) ∧
      (m.Harmless (.mprotect addr length prot) → (m.call (.mprotect addr length prot)).2.WellFormed) := by
  have hsame : Quiet m m := Quiet.refl m
  unfold Harmless Machine.call sysMprotect
  dsimp only
  by_cases hp : Page addr.toNat
  · rw [if_neg (show ¬ addr.toNat % PAGE_SIZE ≠ 0 from fun h => h hp)]
    have hahead : Ahead m (pages addr.toNat (u32 (addr.toNat + roundUp length.toNat))) m.framesLeft m :=
      ⟨fun va hva => page_of_mem hp hva, nodup_pages _ _, fun _ _ => rfl, rfl, fun _ h => h⟩
    have hgood := fun h => protectPages_harmless prot.toNat hwf hahead hsame h
    refine ⟨⟨fun hkept _ va hva hk => ?_, fun h => (hgood (h hp)).toKernelKept⟩,
      fun h => hwf.of_quiet (hgood (h hp))⟩
    obtain ⟨hpv, hpres, hentry⟩ := protectPages_harm hwf hahead va hva
    rw [← hentry]
    exact hkept.kept va hpv hk hpres
  · rw [if_pos (show addr.toNat % PAGE_SIZE ≠ 0 from hp)]
    exact ⟨⟨fun _ h => absurd h hp, fun _ => hsame.toKernelKept⟩, fun _ => hwf⟩

/-- The four calls, from every state and with every argument: the kernel's
ranges are left alone exactly where the call is harmless, and such a call
leaves a state the next one may start from. -/
theorem memory_call_kept_iff (m : Machine) (hwf : m.WellFormed) (c : Call) :
    (KernelKept m (m.call c).2 ↔ m.Harmless c) ∧ (m.Harmless c → (m.call c).2.WellFormed) := by
  cases c with
  | mmap2 addr length prot flags fd pgoff st =>
    obtain ⟨hkept, hnext⟩ :=
      sysMmap2_kept length.toNat prot.toNat flags.toNat pgoff.toNat fd.toInt st hwf addr.toNat_lt
    exact ⟨⟨fun _ => trivial, fun _ => hkept⟩, fun _ => hnext⟩
  | munmap addr length => exact munmap_iff hwf
  | mprotect addr length prot => exact mprotect_iff hwf
  | brk addr =>
    obtain ⟨hkept, hnext⟩ := sysBrk_kept addr.toNat hwf
    exact ⟨⟨fun _ => trivial, fun _ => hkept⟩, fun _ => hnext⟩

/-- A machine with the low identity map, eight pages of kernel image at
`0xC0100000`, sixteen of heap, and a process that has mapped nothing yet. -/
def booted : Machine where
  pd := fun n =>
    if n = 0 ∨ n = 768 ∨ (832 ≤ n ∧ n < 880) ∨ n = RECURSIVE_PD_INDEX then
      { frame := 0x200 + n, present := true, rw := true }
    else {}
  pt := fun n i =>
    if n = 0 then { frame := i, present := true, rw := true }
    else if n = 768 ∧ 256 ≤ i ∧ i < 264 then { frame := i, present := true, rw := true }
    else if n = 832 ∧ i < 16 then { frame := 0x600 + i, present := true, rw := true }
    else {}
  used := fun f => decide (f < 0x700)
  refs := fun _ => 0
  highestFrame := 0x7FF
  searchFrom := 0x700
  released := []
  reservations := [(0, 0x400000)]
  heapEnd := HEAP_START + 0x10000
  isFile := fun _ => false
  mmapNext := MMAP_ARENA_START
  brkCurrent := BRK_ARENA_START
  brkMapped := BRK_ARENA_START

theorem booted_entry_program (va : Nat) (hk : ¬ booted.Kernel va) : booted.pagingGetEntry va = {} := by
  have hlow : pdIndex va ≠ 0 := by
    intro h0
    refine hk (Or.inr ?_)
    simp only [pdIndex] at h0
    simp only [pagingRegionConflict, booted, PAGE_SIZE, List.any_cons, List.any_nil, Bool.or_false,
      Bool.and_eq_true, decide_eq_true_eq]
    omega
  have hlt := pdIndex_lt hk
  have hpd : (booted.pd (pdIndex va)).present = false := by
    have hnone : ¬ (pdIndex va = 0 ∨ pdIndex va = 768 ∨ (832 ≤ pdIndex va ∧ pdIndex va < 880) ∨
        pdIndex va = RECURSIVE_PD_INDEX) := by
      simp only [RECURSIVE_PD_INDEX]
      omega
    simp only [booted, hnone, if_false]
  simp [pagingGetEntry, hpd]

theorem booted_reserved (va : Nat) : (booted.pagingGetEntry va).reserved = false := by
  unfold pagingGetEntry tableAt
  split
  · split
    · simp only [booted]
      split <;> rfl
    · simp only [booted]
      repeat (first | rfl | split)
  · rfl

theorem booted_wellFormed : booted.WellFormed where
  arenas := by decide
  vacant := fun va _ _ => booted_reserved va
  heap := by
    refine ⟨by decide, by decide, ?_, ?_⟩
    · intro n hlo hhi
      simp only [pdIndex, HEAP_START, HEAP_LIMIT] at hlo hhi
      have : n = 0 ∨ n = 768 ∨ (832 ≤ n ∧ n < 880) ∨ n = RECURSIVE_PD_INDEX := by omega
      simp only [booted, this, if_true]
    · intro va hp hlo hhi
      have hn : pdIndex va ≠ RECURSIVE_PD_INDEX ∧ pdIndex va ≠ 0 ∧ pdIndex va ≠ 768 ∧
          ¬ (pdIndex va = 832 ∧ ptIndex va < 16) := by
        simp only [booted, Page, pdIndex, ptIndex, PAGE_SIZE, HEAP_START, HEAP_LIMIT, RECURSIVE_PD_INDEX] at *
        omega
      unfold pagingGetEntry tableAt
      rw [if_neg hn.1]
      simp only [booted, hn.2.1, hn.2.2.1, hn.2.2.2, false_and, if_false]
      split <;> rfl
  nobodys := by
    rintro (h | ⟨va, _, hk, hpres, _⟩)
    · simp [booted] at h
    · rw [booted_entry_program va hk] at hpres
      cases hpres
  next := by decide
  brk := by decide

set_option maxRecDepth 20000

/-- A program takes a page with `brk` and unmaps it: the kernel is left
alone. -/
theorem booted_munmap_kept :
    let m := (booted.call (.brk 0x48001000)).2
    (m.pagingGetEntry 0x48000000).present = true ∧ KernelKept m (m.call (.munmap 0x48000000 4096)).2 := by
  intro m
  have hwf : m.WellFormed := (memory_call_kept_iff booted booted_wellFormed (.brk 0x48001000)).2 trivial
  refine ⟨by with_unfolding_all decide, (memory_call_kept_iff m hwf (.munmap 0x48000000 4096)).1.mpr ?_⟩
  intro _ _ va hva hk
  have hmem : va = 0x48000000 := by
    have hlist : pages (0x48000000 : UInt32).toNat (u32 ((0x48000000 : UInt32).toNat + roundUp (4096 : UInt32).toNat)) =
        [0x48000000] := by with_unfolding_all decide
    rw [hlist] at hva
    simpa using hva
  subst hmem
  exact absurd hk (not_or.mpr ⟨by decide, by with_unfolding_all decide⟩)

/-- A program unmaps the first page of the kernel image: the entry is gone
and its frame is given back. -/
theorem kernel_unmapped :
    booted.WellFormed ∧
      (booted.pagingGetEntry 0xC0100000).present = true ∧
      ((booted.call (.munmap 0xC0100000 4096)).2.pagingGetEntry 0xC0100000).present = false ∧
      (booted.call (.munmap 0xC0100000 4096)).2.released = [(0xC0100000, 0x100)] ∧
      ¬ KernelKept booted (booted.call (.munmap 0xC0100000 4096)).2 := by
  have hgone : ((booted.call (.munmap 0xC0100000 4096)).2.pagingGetEntry 0xC0100000).present = false := by
    with_unfolding_all decide
  refine ⟨booted_wellFormed, by with_unfolding_all decide, hgone, by with_unfolding_all decide, ?_⟩
  intro hkept
  have hgrant := hkept.kept 0xC0100000 (by decide) (Or.inl (by decide)) (by decide)
  simp only [Entry.grant, Prod.mk.injEq] at hgrant
  rw [hgone] at hgrant
  exact absurd hgrant.2.1 (by decide)

end Machine

end NovarisOS.Posix
