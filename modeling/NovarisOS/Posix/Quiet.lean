/-
NovarisOS.Posix.Quiet — steps over page tables that leave the kernel's ranges
alone.

`KernelKept m m'` is what a memory call owes the kernel. `Quiet m₀ m` is the
relation that carries it through a call: `m` is `m₀` after some steps, and
besides what is owed it says what the next step needs, in terms of the state
the call began in.
-/
import NovarisOS.Posix.Memory

namespace NovarisOS.Posix

/-- The address of a page. -/
def Page (va : Nat) : Prop := va % PAGE_SIZE = 0

instance (va : Nat) : Decidable (Page va) := inferInstanceAs (Decidable (va % PAGE_SIZE = 0))

namespace Machine

variable {m₀ m m' : Machine} {va frame : Nat}

/-- The page at `va` lies in a kernel range. -/
def Kernel (m : Machine) (va : Nat) : Prop :=
  USER_SPACE_END ≤ va ∨ m.pagingRegionConflict va (va + PAGE_SIZE) = true

/-- A frame the program may be given or may give back. -/
def Program (m : Machine) (frame : Nat) : Prop :=
  m.used frame = false ∨
    ∃ va, Page va ∧ ¬ m.Kernel va ∧ (m.pagingGetEntry va).present = true ∧
      (m.pagingGetEntry va).shared = false ∧ (m.pagingGetEntry va).frame = frame

/-- What a call owes the kernel. An entry that leads somewhere leads there
with the same rights. One that leads nowhere is not opened to programs; where
the page is one of the directory's own view, the entry is a directory entry,
and a new table of the program's is entered there. A frame is given back only
at an address outside of the kernel's ranges, and only if it was the
program's. -/
structure KernelKept (m m' : Machine) : Prop where
  kept : ∀ va, Page va → m.Kernel va → (m.pagingGetEntry va).present = true →
    (m'.pagingGetEntry va).grant = (m.pagingGetEntry va).grant
  barred : ∀ va, Page va → m.Kernel va → pdIndex va ≠ RECURSIVE_PD_INDEX →
    (m.pagingGetEntry va).present = false →
    ((m'.pagingGetEntry va).present && (m'.pagingGetEntry va).user) = false
  released : ∃ new, m'.released = new ++ m.released ∧ ∀ r ∈ new, ¬ m.Kernel r.1 ∧ m.Program r.2

/-- The heap's tables are there, and its pages end at `heap_end`. -/
structure HeapOk (m : Machine) : Prop where
  aligned : Page m.heapEnd
  start : HEAP_START ≤ m.heapEnd
  tables : ∀ n, pdIndex HEAP_START ≤ n → n < pdIndex HEAP_LIMIT → (m.pd n).present = true
  fresh : ∀ va, Page va → m.heapEnd ≤ va → va < HEAP_LIMIT → (m.pagingGetEntry va).present = false

/-- `m` is `m₀` after steps that leave the kernel's ranges alone. -/
structure Quiet (m₀ m : Machine) : Prop extends KernelKept m₀ m where
  ranges : m.reservations = m₀.reservations
  own : ∀ frame, m.Program frame → m₀.Program frame
  vacant : ∀ va, Page va → m₀.Kernel va → (m₀.pagingGetEntry va).reserved = false →
    (m.pagingGetEntry va).reserved = false
  heap : m₀.HeapOk → m.HeapOk
  brk : m.brkMapped = m₀.brkMapped
  next : m.mmapNext = m₀.mmapNext

theorem Quiet.refl (m : Machine) : Quiet m m where
  kept := fun _ _ _ _ => rfl
  barred := fun _ _ _ _ h => by simp [h]
  released := ⟨[], rfl, by simp⟩
  ranges := rfl
  own := fun _ h => h
  vacant := fun _ _ _ h => h
  heap := id
  brk := rfl
  next := rfl

theorem Quiet.kernel_iff (h : Quiet m₀ m) (va : Nat) : m.Kernel va ↔ m₀.Kernel va := by
  simp only [Kernel, pagingRegionConflict, h.ranges]

/-! ## Entries -/

theorem page_ext {a b : Nat} (ha : Page a) (hb : Page b) (hd : pdIndex a = pdIndex b)
    (ht : ptIndex a = ptIndex b) : a = b := by
  simp only [Page, pdIndex, ptIndex, PAGE_SIZE] at *
  omega

theorem pdIndex_lt (h : ¬ m.Kernel va) : pdIndex va < 768 := by
  have : va < USER_SPACE_END := Nat.lt_of_not_le (fun hle => h (Or.inl hle))
  simp only [pdIndex, USER_SPACE_END] at *
  omega

theorem pdIndex_ne (h : ¬ m.Kernel va) : pdIndex va ≠ RECURSIVE_PD_INDEX := by
  have := pdIndex_lt h
  simp only [RECURSIVE_PD_INDEX]
  omega

section Entries

variable {n i j : Nat} {e : Entry} {a b : Nat}

theorem setTable_pd (hn : n ≠ RECURSIVE_PD_INDEX) : (m.setTable n i e).pd = m.pd := by
  simp [setTable, hn]

theorem getEntry_setTable (hva : Page a) (hb : Page b) (hn : pdIndex a ≠ RECURSIVE_PD_INDEX)
    (hpd : (m.pd (pdIndex a)).present = true) :
    (m.setTable (pdIndex a) (ptIndex a) e).pagingGetEntry b = if b = a then e else m.pagingGetEntry b := by
  unfold pagingGetEntry
  rw [setTable_pd hn]
  by_cases hba : b = a
  · subst hba
    simp [hpd, tableAt, setTable, hn]
  · rw [if_neg hba]
    have hne : pdIndex b = pdIndex a → ptIndex b ≠ ptIndex a := fun hd ht => hba (page_ext hb hva hd ht)
    by_cases hd : pdIndex b = pdIndex a
    · simp [tableAt, setTable, hn, hd, hne hd]
    · by_cases hr : pdIndex b = RECURSIVE_PD_INDEX
      · simp [tableAt, setTable, hn, hr]
      · simp [tableAt, setTable, hn, hr, hd]

theorem getEntry_pointAt (hn : n ≠ RECURSIVE_PD_INDEX) (hb : pdIndex b ≠ RECURSIVE_PD_INDEX)
    (hpd : (m.pd n).present = false) : (m.pointAt n frame).pagingGetEntry b = m.pagingGetEntry b := by
  unfold pagingGetEntry
  by_cases hd : pdIndex b = n
  · subst hd
    simp [pointAt, tableAt, hn, hpd]
  · simp [pointAt, tableAt, hb, hd]

end Entries

/-! ## Frames -/

theorem alloc_entry (m : Machine) (va : Nat) : m.pmmAllocFrame.2.pagingGetEntry va = m.pagingGetEntry va := by
  unfold pmmAllocFrame
  split <;> rfl

theorem alloc_pd (m : Machine) : m.pmmAllocFrame.2.pd = m.pd := by
  unfold pmmAllocFrame
  split <;> rfl

theorem alloc_used {f : Nat} (h : m.pmmAllocFrame.2.used f = false) : m.used f = false := by
  unfold pmmAllocFrame at h
  split at h
  · rename_i g _
    by_cases hf : f = g
    · simp [hf] at h
    · simpa [hf] using h
  · exact h

theorem alloc_free (h : m.pmmAllocFrame.1 ≠ 0) : m.used m.pmmAllocFrame.1 = false := by
  unfold pmmAllocFrame at h ⊢
  split
  · rename_i f hf
    simpa using List.find?_some hf
  · rename_i hf
    simp [hf] at h

theorem free_entry (m : Machine) (va frame b : Nat) :
    (m.pmmFreeFrame va frame).pagingGetEntry b = m.pagingGetEntry b := by
  unfold pmmFreeFrame
  dsimp only
  split
  · rfl
  · split <;> rfl

theorem free_used {f : Nat} (h : (m.pmmFreeFrame va frame).used f = false) : m.used f = false ∨ f = frame := by
  unfold pmmFreeFrame at h
  dsimp only at h
  split at h
  · exact Or.inl h
  · split at h
    · exact Or.inl h
    · by_cases hf : f = frame
      · exact Or.inr hf
      · left
        simpa [hf] using h

namespace Quiet

/-- A step that leaves every entry as it is, frees only what is the
program's and gives back only what the kernel's ranges do not hold. -/
theorem frames (h : Quiet m₀ m) (hentry : ∀ b, m'.pagingGetEntry b = m.pagingGetEntry b)
    (hpd : m'.pd = m.pd) (hres : m'.reservations = m.reservations)
    (hused : ∀ f, m'.used f = false → m.used f = false ∨ m₀.Program f)
    (hrel : m'.released = m.released ∨
      ∃ r : Nat × Nat, m'.released = r :: m.released ∧ ¬ m₀.Kernel r.1 ∧ m₀.Program r.2)
    (hheap : m'.heapEnd = m.heapEnd) (hbrk : m'.brkMapped = m.brkMapped) (hnext : m'.mmapNext = m.mmapNext) :
    Quiet m₀ m' where
  kept := fun va hp hk he => by rw [hentry]; exact h.kept va hp hk he
  barred := fun va hp hk hr he => by rw [hentry]; exact h.barred va hp hk hr he
  released := by
    obtain ⟨new, hnew, hall⟩ := h.released
    rcases hrel with hsame | ⟨r, hr, hk, hf⟩
    · exact ⟨new, by rw [hsame, hnew], hall⟩
    · refine ⟨r :: new, by rw [hr, hnew, List.cons_append], ?_⟩
      intro x hx
      rcases List.mem_cons.mp hx with rfl | hx
      · exact ⟨hk, hf⟩
      · exact hall x hx
  ranges := hres.trans h.ranges
  own := by
    rintro f (hf | ⟨va, hp, hk, he⟩)
    · rcases hused f hf with hf | hf
      · exact h.own f (Or.inl hf)
      · exact hf
    · refine h.own f (Or.inr ⟨va, hp, ?_, ?_⟩)
      · simpa only [Kernel, pagingRegionConflict, hres] using hk
      · simpa only [hentry] using he
  vacant := fun va hp hk he => by rw [hentry]; exact h.vacant va hp hk he
  heap := fun h0 => by
    have hm := h.heap h0
    exact ⟨hheap ▸ hm.aligned, hheap ▸ hm.start, hpd ▸ hm.tables,
      fun va hp hle hlt => by rw [hentry]; exact hm.fresh va hp (hheap ▸ hle) hlt⟩
  brk := hbrk.trans h.brk
  next := hnext.trans h.next

theorem alloc (h : Quiet m₀ m) : Quiet m₀ m.pmmAllocFrame.2 := by
  have hfields : m.pmmAllocFrame.2.reservations = m.reservations ∧ m.pmmAllocFrame.2.released = m.released ∧
      m.pmmAllocFrame.2.heapEnd = m.heapEnd ∧ m.pmmAllocFrame.2.brkMapped = m.brkMapped ∧
      m.pmmAllocFrame.2.mmapNext = m.mmapNext := by
    unfold pmmAllocFrame
    split <;> exact ⟨rfl, rfl, rfl, rfl, rfl⟩
  obtain ⟨hres, hrel, hheap, hbrk, hnext⟩ := hfields
  exact h.frames m.alloc_entry m.alloc_pd hres (fun f hf => Or.inl (alloc_used hf)) (Or.inl hrel) hheap hbrk hnext

theorem alloc_program (h : Quiet m₀ m) (hne : m.pmmAllocFrame.1 ≠ 0) : m₀.Program m.pmmAllocFrame.1 :=
  h.own _ (Or.inl (alloc_free hne))

theorem free (h : Quiet m₀ m) (hva : ¬ m₀.Kernel va) (hf : m₀.Program frame) :
    Quiet m₀ (m.pmmFreeFrame va frame) := by
  have hfields : (m.pmmFreeFrame va frame).pd = m.pd ∧
      (m.pmmFreeFrame va frame).reservations = m.reservations ∧
      (m.pmmFreeFrame va frame).released = (va, frame) :: m.released ∧
      (m.pmmFreeFrame va frame).heapEnd = m.heapEnd ∧ (m.pmmFreeFrame va frame).brkMapped = m.brkMapped ∧
      (m.pmmFreeFrame va frame).mmapNext = m.mmapNext := by
    unfold pmmFreeFrame
    dsimp only
    split
    · exact ⟨rfl, rfl, rfl, rfl, rfl, rfl⟩
    · split <;> exact ⟨rfl, rfl, rfl, rfl, rfl, rfl⟩
  obtain ⟨hpd, hres, hrel, hheap, hbrk, hnext⟩ := hfields
  refine h.frames (m.free_entry va frame) hpd hres ?_ (Or.inr ⟨_, hrel, hva, hf⟩) hheap hbrk hnext
  intro f hfree
  rcases free_used hfree with hfree | rfl
  · exact Or.inl hfree
  · exact Or.inr hf

/-! ## Table writes -/

theorem set {e : Entry} (h : Quiet m₀ m) (hp : Page va) (hva : ¬ m₀.Kernel va)
    (hpd : (m.pd (pdIndex va)).present = true)
    (he : e.present = true → e.shared = false → m₀.Program e.frame) :
    Quiet m₀ (m.setTable (pdIndex va) (ptIndex va) e) := by
  have hn := pdIndex_ne hva
  have hres : (m.setTable (pdIndex va) (ptIndex va) e).reservations = m.reservations := by simp [setTable, hn]
  have hsame : ∀ b, Page b → m₀.Kernel b →
      (m.setTable (pdIndex va) (ptIndex va) e).pagingGetEntry b = m.pagingGetEntry b := by
    intro b hb hk
    rw [getEntry_setTable hp hb hn hpd, if_neg]
    rintro rfl
    exact hva hk
  refine ⟨⟨?_, ?_, ?_⟩, hres.trans h.ranges, ?_, ?_, ?_, ?_, ?_⟩
  · intro b hb hk hpres
    rw [hsame b hb hk]
    exact h.kept b hb hk hpres
  · intro b hb hk hr hpres
    rw [hsame b hb hk]
    exact h.barred b hb hk hr hpres
  · simpa [setTable, hn] using h.released
  · rintro f (hf | ⟨b, hb, hk, hpres, hsh, rfl⟩)
    · exact h.own f (Or.inl (by simpa [setTable, hn] using hf))
    · rw [getEntry_setTable hp hb hn hpd] at hpres hsh ⊢
      by_cases hba : b = va
      · rw [if_pos hba] at hpres hsh ⊢
        exact he hpres hsh
      · rw [if_neg hba] at hpres hsh ⊢
        refine h.own _ (Or.inr ⟨b, hb, ?_, hpres, hsh, rfl⟩)
        simpa only [Kernel, pagingRegionConflict, hres] using hk
  · intro b hb hk hv
    rw [hsame b hb hk]
    exact h.vacant b hb hk hv
  · intro h0
    have hm := h.heap h0
    refine ⟨by simpa [setTable, hn] using hm.aligned, by simpa [setTable, hn] using hm.start,
      by simpa [setTable, hn] using hm.tables, ?_⟩
    intro b hb hle hlt
    have hle' : m.heapEnd ≤ b := by simpa [setTable, hn] using hle
    have hk : m₀.Kernel b := Or.inl (Nat.le_trans (by decide) (Nat.le_trans hm.start hle'))
    rw [hsame b hb hk]
    exact hm.fresh b hb hle' hlt
  · simpa [setTable, hn] using h.brk
  · simpa [setTable, hn] using h.next

/-- A table is made for addresses that had none. -/
theorem pointAt {n : Nat} (h : Quiet m₀ m) (hn : n < 768) (hpd : (m.pd n).present = false) :
    Quiet m₀ (m.pointAt n frame) := by
  have hne : n ≠ RECURSIVE_PD_INDEX := by simp only [RECURSIVE_PD_INDEX]; omega
  -- In the directory's own view, the one entry that changes led nowhere.
  have hview : ∀ b, pdIndex b = RECURSIVE_PD_INDEX →
      (m.pointAt n frame).pagingGetEntry b =
        if ptIndex b = n ∧ (m.pd RECURSIVE_PD_INDEX).present = true then
          { frame := frame, present := true, rw := true, user := true }
        else m.pagingGetEntry b := by
    intro b hb
    unfold pagingGetEntry
    by_cases hr : (m.pd RECURSIVE_PD_INDEX).present = true
    · by_cases hi : ptIndex b = n
      · simp [Machine.pointAt, tableAt, hb, hi, hr, Ne.symm hne]
      · simp [Machine.pointAt, tableAt, hb, hi, hr, Ne.symm hne]
    · simp [Machine.pointAt, hb, hr, Ne.symm hne]
  have hcase : ∀ b, (m.pointAt n frame).pagingGetEntry b = m.pagingGetEntry b ∨
      (pdIndex b = RECURSIVE_PD_INDEX ∧ (m.pagingGetEntry b).present = false ∧
        ((m.pointAt n frame).pagingGetEntry b).reserved = false) := by
    intro b
    by_cases hb : pdIndex b = RECURSIVE_PD_INDEX
    · rw [hview b hb]
      split
      · rename_i hi
        refine Or.inr ⟨hb, ?_, rfl⟩
        simp [pagingGetEntry, tableAt, hb, hi.1, hi.2, hpd]
      · exact Or.inl rfl
    · exact Or.inl (getEntry_pointAt hne hb hpd)
  refine ⟨⟨?_, ?_, h.released⟩, h.ranges, ?_, ?_, ?_, h.brk, h.next⟩
  · intro b hb hk hpres
    rcases hcase b with heq | ⟨_, hnot, _⟩
    · rw [heq]
      exact h.kept b hb hk hpres
    · have hgrant := h.kept b hb hk hpres
      simp only [Entry.grant, Prod.mk.injEq] at hgrant
      rw [hgrant.2.1, hpres] at hnot
      exact absurd hnot (by simp)
  · intro b hb hk hr hpres
    rw [getEntry_pointAt hne hr hpd]
    exact h.barred b hb hk hr hpres
  · rintro f (hf | ⟨b, hb, hk, he⟩)
    · exact h.own f (Or.inl hf)
    · have hbr := pdIndex_ne hk
      rw [getEntry_pointAt hne hbr hpd] at he
      exact h.own f (Or.inr ⟨b, hb, hk, he⟩)
  · intro b hb hk hv
    rcases hcase b with heq | ⟨_, _, hres⟩
    · rw [heq]
      exact h.vacant b hb hk hv
    · exact hres
  · intro h0
    have hm := h.heap h0
    refine ⟨hm.aligned, hm.start, ?_, ?_⟩
    · intro k hlo hhi
      by_cases hkn : k = n
      · subst hkn
        simp only [pdIndex, HEAP_START] at hlo
        omega
      · simpa [Machine.pointAt, hkn] using hm.tables k hlo hhi
    · intro b hb hle hlt
      have hbr : pdIndex b ≠ RECURSIVE_PD_INDEX := by
        simp only [pdIndex, RECURSIVE_PD_INDEX, HEAP_LIMIT] at hlt ⊢
        omega
      rw [getEntry_pointAt hne hbr hpd]
      exact hm.fresh b hb hle hlt

theorem needTable (h : Quiet m₀ m) (hva : ¬ m₀.Kernel va) : Quiet m₀ (m.needTable va) := by
  unfold Machine.needTable
  split
  · exact h
  · rename_i hpd
    exact h.alloc.pointAt (pdIndex_lt hva) (by simpa [alloc_pd] using hpd)

end Quiet

theorem needTable_present (m : Machine) (va : Nat) : ((m.needTable va).pd (pdIndex va)).present = true := by
  unfold needTable
  split
  · assumption
  · simp [pointAt]

namespace Quiet

theorem mapPage {f : Flags} (h : Quiet m₀ m) (hp : Page va) (hva : ¬ m₀.Kernel va)
    (hf : f.shared = true ∨ m₀.Program frame) : Quiet m₀ (m.pagingMapPage va frame f) := by
  refine (h.needTable hva).set hp hva (m.needTable_present va) ?_
  intro _ hsh
  rcases hf with hf | hf
  · simp [entryOf, hf] at hsh
  · exact hf

theorem unmapPage (h : Quiet m₀ m) (hp : Page va) (hva : ¬ m₀.Kernel va) : Quiet m₀ (m.pagingUnmapPage va) := by
  unfold pagingUnmapPage
  split
  · rename_i hpd
    exact h.set hp hva hpd (by simp)
  · exact h

theorem program_of_entry (h : Quiet m₀ m) (hp : Page va) (hva : ¬ m₀.Kernel va)
    (hpres : (m.pagingGetEntry va).present = true) (hsh : (m.pagingGetEntry va).shared = false) :
    m₀.Program (m.pagingGetEntry va).frame :=
  h.own _ (Or.inr ⟨va, hp, mt (h.kernel_iff va).mp hva, hpres, hsh, rfl⟩)

/-- A page of the heap is mapped behind its end, for the kernel alone. -/
theorem heapPage (h : Quiet m₀ m) (frame : Nat) (h0 : m₀.HeapOk) (hlt : m.heapEnd < HEAP_LIMIT) :
    Quiet m₀ { m.pagingMapPage m.heapEnd frame { rw := true } with heapEnd := m.heapEnd + PAGE_SIZE } := by
  have hm := h.heap h0
  have hp := hm.aligned
  have hstart := hm.start
  have hn : pdIndex m.heapEnd ≠ RECURSIVE_PD_INDEX := by
    simp only [pdIndex, RECURSIVE_PD_INDEX, HEAP_LIMIT] at *
    omega
  have hpd : (m.pd (pdIndex m.heapEnd)).present = true := by
    apply hm.tables
    · simp only [pdIndex, HEAP_START] at *
      omega
    · simp only [pdIndex, HEAP_LIMIT] at *
      omega
  have hmap : m.pagingMapPage m.heapEnd frame { rw := true } =
      m.setTable (pdIndex m.heapEnd) (ptIndex m.heapEnd) (entryOf frame { rw := true }) := by
    simp [pagingMapPage, Machine.needTable, hpd]
  have hk : m₀.Kernel m.heapEnd := Or.inl (Nat.le_trans (by decide) hstart)
  have hentry : ∀ b, Page b →
      ({ m.pagingMapPage m.heapEnd frame { rw := true } with
          heapEnd := m.heapEnd + PAGE_SIZE } : Machine).pagingGetEntry b =
        if b = m.heapEnd then entryOf frame { rw := true } else m.pagingGetEntry b := by
    intro b hb
    rw [hmap]
    exact getEntry_setTable hp hb hn hpd
  have hold : (m.pagingGetEntry m.heapEnd).present = false := hm.fresh _ hp (Nat.le_refl _) hlt
  refine ⟨⟨?_, ?_, ?_⟩, ?_, ?_, ?_, ?_, ?_, ?_⟩
  · intro b hb hkb hpres
    rw [hentry b hb]
    have hgrant := h.kept b hb hkb hpres
    by_cases hbe : b = m.heapEnd
    · subst hbe
      simp only [Entry.grant, Prod.mk.injEq] at hgrant
      rw [hgrant.2.1, hpres] at hold
      exact absurd hold (by simp)
    · rw [if_neg hbe]
      exact hgrant
  · intro b hb hkb hr hpres
    rw [hentry b hb]
    split
    · simp [entryOf]
    · exact h.barred b hb hkb hr hpres
  · simpa [hmap, setTable, hn] using h.released
  · simpa [hmap, setTable, hn] using h.ranges
  · rintro f (hf | ⟨b, hb, hkb, hpres, hsh, rfl⟩)
    · exact h.own f (Or.inl (by simpa [hmap, setTable, hn] using hf))
    · have hkb' : ¬ m.Kernel b := by
        simpa [Kernel, pagingRegionConflict, hmap, setTable, hn] using hkb
      have hbe : b ≠ m.heapEnd := by
        rintro rfl
        exact hkb' ((h.kernel_iff _).mpr hk)
      rw [hentry b hb, if_neg hbe] at hpres hsh ⊢
      exact h.own _ (Or.inr ⟨b, hb, hkb', hpres, hsh, rfl⟩)
  · intro b hb hkb hv
    rw [hentry b hb]
    split
    · simp [entryOf, Entry.reserved]
    · exact h.vacant b hb hkb hv
  · intro _
    refine ⟨?_, Nat.le_add_right_of_le hstart, ?_, ?_⟩
    · simp only [Page, PAGE_SIZE] at hp ⊢
      omega
    · simpa [hmap, setTable, hn] using hm.tables
    · intro b hb hle hblt
      have hgt : m.heapEnd < b := Nat.lt_of_lt_of_le (Nat.lt_add_of_pos_right (by decide)) hle
      rw [hentry b hb, if_neg (Nat.ne_of_gt hgt)]
      exact hm.fresh b hb (Nat.le_of_lt hgt) hblt
  · simpa [hmap, setTable, hn] using h.brk
  · simpa [hmap, setTable, hn] using h.next

end Quiet

end Machine

end NovarisOS.Posix
