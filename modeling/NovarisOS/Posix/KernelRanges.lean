/-
NovarisOS.Posix.KernelRanges — `mmap2` and `brk` cannot reach the kernel's
own pages.

A fixed address is checked against the end of the user half and against the
reserved regions, any other comes from an arena, and an arena holds no region:
either way the range is `Room`. What a call does in a room is a composition of
the steps of `Quiet`, along its loops.
-/
import NovarisOS.Posix.Quiet

namespace NovarisOS.Posix

/-! ## Ranges of pages -/

theorem mem_pages {lo hi va : Nat} : va ∈ pages lo hi ↔ ∃ k, va = lo + PAGE_SIZE * k ∧ va < hi := by
  simp only [pages, List.mem_map, List.mem_range, PAGE_SIZE]
  constructor
  · rintro ⟨k, hk, rfl⟩
    exact ⟨k, rfl, by omega⟩
  · rintro ⟨k, rfl, hlt⟩
    exact ⟨k, by omega, rfl⟩

theorem page_of_mem {lo hi va : Nat} (hlo : Page lo) (h : va ∈ pages lo hi) : Page va := by
  obtain ⟨k, rfl, _⟩ := mem_pages.mp h
  simp only [Page, PAGE_SIZE] at *
  omega

theorem u32_of_lt {n : Nat} (h : n < 0x100000000) : u32 n = n := by
  unfold u32
  exact Nat.mod_eq_of_lt h

theorem page_roundUp (n : Nat) : Page (roundUp n) := by
  simp [Page, roundUp]

namespace Machine

variable {m₀ m m' : Machine} {base bytes va : Nat}

/-- A range of pages that are the program's to have. -/
structure Room (m : Machine) (base bytes : Nat) : Prop where
  aligned : Page base
  whole : Page bytes
  below : base + bytes ≤ USER_SPACE_END
  clear : ∀ va, Page va → base ≤ va → va < base + bytes → ¬ m.Kernel va

namespace Room

theorem stop_eq (h : Room m base bytes) : u32 (base + bytes) = base + bytes := by
  apply u32_of_lt
  have := h.below
  simp only [USER_SPACE_END] at this
  omega

theorem of_mem (h : Room m base bytes) (hva : va ∈ pages base (u32 (base + bytes))) :
    Page va ∧ ¬ m.Kernel va := by
  rw [h.stop_eq] at hva
  have hp := page_of_mem h.aligned hva
  obtain ⟨k, rfl, hlt⟩ := mem_pages.mp hva
  exact ⟨hp, h.clear _ hp (Nat.le_add_right _ _) hlt⟩

theorem prefix_of {n : Nat} (h : Room m base bytes) (hn : n ∈ pages 0 bytes) : Room m base n := by
  have hp := page_of_mem (by simp [Page]) hn
  obtain ⟨k, _, hlt⟩ := mem_pages.mp hn
  refine ⟨h.aligned, hp, by have := h.below; omega, ?_⟩
  intro va hva hlo hhi
  exact h.clear va hva hlo (by omega)

theorem at_offset {n : Nat} (h : Room m base bytes) (hn : n ∈ pages 0 bytes) :
    Page (u32 (base + n)) ∧ ¬ m.Kernel (u32 (base + n)) := by
  rw [(h.prefix_of hn).stop_eq]
  have hp := page_of_mem (by simp [Page]) hn
  have hbase := h.aligned
  obtain ⟨k, _, hlt⟩ := mem_pages.mp hn
  have hsum : Page (base + n) := by
    simp only [Page, PAGE_SIZE] at *
    omega
  exact ⟨hsum, h.clear _ hsum (Nat.le_add_right _ _) (by omega)⟩

end Room

/-! ## The loops -/

namespace Quiet

theorem clearPage (h : Quiet m₀ m) (hp : Page va) (hva : ¬ m₀.Kernel va) : Quiet m₀ (m.clearPage va) := by
  unfold Machine.clearPage
  dsimp only
  split
  · rename_i hpres
    split
    · exact h.unmapPage hp hva
    · rename_i hsh
      exact (h.unmapPage hp hva).free hva (h.program_of_entry hp hva hpres (by simpa using hsh))
  · exact h

theorem mapPages {f : Flags} : ∀ {l : List Nat} {m : Machine}, Quiet m₀ m →
    (∀ va ∈ l, Page va ∧ ¬ m₀.Kernel va) → Quiet m₀ (Machine.mapPages f l m).2 := by
  intro l
  induction l with
  | nil => intro m h _; exact h
  | cons va rest ih =>
    intro m h hl
    obtain ⟨hp, hva⟩ := hl va (by simp)
    have hrest : ∀ a ∈ rest, Page a ∧ ¬ m₀.Kernel a := fun a ha => hl a (List.mem_cons_of_mem _ ha)
    unfold Machine.mapPages
    dsimp only
    split
    · rename_i hpte
      simp only [Bool.and_eq_true, Bool.not_eq_true'] at hpte
      exact ih (h.mapPage hp hva (Or.inr (h.program_of_entry hp hva hpte.1.1 hpte.1.2))) hrest
    · have hgone := h.clearPage hp hva
      split
      · exact hgone.alloc
      · rename_i hne
        exact ih (hgone.alloc.mapPage hp hva (Or.inr (hgone.alloc_program hne))) hrest

theorem mapRange (f : Flags) (h : Quiet m₀ m) (hroom : Room m₀ base bytes) :
    Quiet m₀ (m.mapRange base bytes f).2 :=
  h.mapPages (fun _ hva => hroom.of_mem hva)

theorem unmapOne (h : Quiet m₀ m) (hp : Page va) (hva : ¬ m₀.Kernel va) : Quiet m₀ (m.unmapOne va) := by
  unfold Machine.unmapOne
  dsimp only
  split
  · split
    · rename_i hpte
      simp only [Bool.and_eq_true, Bool.not_eq_true'] at hpte
      exact (h.unmapPage hp hva).free hva (h.program_of_entry hp hva hpte.1 hpte.2)
    · exact h.unmapPage hp hva
  · exact h

theorem unmapPages : ∀ {l : List Nat} {m : Machine}, Quiet m₀ m →
    (∀ va ∈ l, Page va ∧ ¬ m₀.Kernel va) → Quiet m₀ (l.foldl Machine.unmapOne m) := by
  intro l
  induction l with
  | nil => intro m h _; exact h
  | cons va rest ih =>
    intro m h hl
    obtain ⟨hp, hva⟩ := hl va (by simp)
    exact ih (h.unmapOne hp hva) (fun a ha => hl a (List.mem_cons_of_mem _ ha))

theorem unmapRange (h : Quiet m₀ m) (hroom : Room m₀ base bytes) : Quiet m₀ (m.unmapRange base bytes) :=
  h.unmapPages (fun _ hva => hroom.of_mem hva)

theorem giveBack (h : Quiet m₀ m) (hp : Page va) (hva : ¬ m₀.Kernel va) : Quiet m₀ (m.giveBack va) := by
  unfold Machine.giveBack
  dsimp only
  split
  · rename_i hpte
    simp only [Bool.and_eq_true, Bool.not_eq_true'] at hpte
    exact h.free hva (h.program_of_entry hp hva hpte.1 hpte.2)
  · exact h

theorem mapFilePages {off : Nat} {st : Storage} {f : Flags} {cow : Bool} (hroom : Room m₀ base bytes) :
    ∀ {l : List Nat} {m : Machine}, Quiet m₀ m → (∀ p ∈ l, p ∈ pages 0 bytes) →
      Quiet m₀ (Machine.mapFilePages base off st f cow l m).2 := by
  intro l
  induction l with
  | nil => intro m h _; exact h
  | cons p rest ih =>
    intro m h hl
    have hmem := hl p (by simp)
    obtain ⟨hp, hva⟩ := hroom.at_offset hmem
    have hrest : ∀ q ∈ rest, q ∈ pages 0 bytes := fun q hq => hl q (List.mem_cons_of_mem _ hq)
    have hback := h.giveBack hp hva
    unfold Machine.mapFilePages
    dsimp only
    split
    · split
      · exact hback.alloc.unmapRange (hroom.prefix_of hmem)
      · rename_i hne
        have hprog := hback.alloc_program hne
        exact ih ((hback.alloc.mapPage hp hva (Or.inr hprog)).mapPage hp hva (Or.inr hprog)) hrest
    · split
      · exact hback.unmapRange (hroom.prefix_of hmem)
      · refine ih (hback.mapPage hp hva (Or.inl ?_)) hrest
        cases cow <;> simp [fileFlags]

theorem heapExpand (h0 : m₀.HeapOk) :
    ∀ {n : Nat} {m : Machine}, Quiet m₀ m → (∀ k < n, m.heapEnd + PAGE_SIZE * k < HEAP_LIMIT) →
      Quiet m₀ (Machine.heapExpand ((List.range n).map (m.heapEnd + PAGE_SIZE * ·)) m) := by
  intro n
  induction n with
  | zero => intro m h _; exact h
  | succ n ih =>
    intro m h hn
    have hend : m.pmmAllocFrame.2.heapEnd = m.heapEnd := by
      unfold pmmAllocFrame
      split <;> rfl
    rw [List.range_succ_eq_map, List.map_cons, List.map_map]
    simp only [Machine.heapExpand, Nat.mul_zero, Nat.add_zero]
    split
    · exact h.alloc
    · have hlt : m.heapEnd < HEAP_LIMIT := hn 0 (Nat.succ_pos n)
      have hstep := h.alloc.heapPage m.pmmAllocFrame.1 h0 (hend ▸ hlt)
      rw [hend] at hstep
      have hgo := ih hstep (fun k hk => by
        have := hn (k + 1) (Nat.succ_lt_succ hk)
        simp only [PAGE_SIZE] at this ⊢
        omega)
      have hmap : (fun k => m.heapEnd + PAGE_SIZE * k) ∘ Nat.succ =
          fun k => m.heapEnd + PAGE_SIZE + PAGE_SIZE * k := by
        funext k
        simp only [Function.comp_apply, Nat.succ_eq_add_one, Nat.mul_add]
        omega
      rw [hmap]
      exact hgo

theorem heapGrow (h : Quiet m₀ m) (h0 : m₀.HeapOk) (newEnd : Nat) : Quiet m₀ (m.heapGrow newEnd) := by
  refine heapExpand h0 h ?_
  intro k hk
  have hle := Nat.min_le_right newEnd HEAP_LIMIT
  simp only [PAGE_SIZE] at hk ⊢
  omega

theorem mapFileRange (off : Nat) (st : Storage) (f : Flags) (cow : Bool) (h : Quiet m₀ m) (h0 : m₀.HeapOk)
    (hroom : Room m₀ base bytes) : Quiet m₀ (m.mapFileRange base bytes st off f cow).2 := by
  unfold Machine.mapFileRange
  dsimp only
  split
  · exact mapFilePages hroom (h.heapGrow h0 _) (fun _ hp => hp)
  · exact h.heapGrow h0 _

theorem clearOwnPage (h : Quiet m₀ m) (hp : Page va) (hva : ¬ m₀.Kernel va) :
    Quiet m₀ (m.clearOwnPage va) := by
  unfold Machine.clearOwnPage
  dsimp only
  split
  · rename_i hpte
    simp only [Bool.and_eq_true, Bool.not_eq_true'] at hpte
    exact (h.unmapPage hp hva).free hva (h.program_of_entry hp hva hpte.1 hpte.2)
  · exact h

theorem reservePage (h : Quiet m₀ m) (hp : Page va) (hva : ¬ m₀.Kernel va) :
    Quiet m₀ (m.pagingReservePage va).2 := by
  unfold Machine.pagingReservePage
  split
  · exact h.alloc
  · exact (h.needTable hva).set hp hva (m.needTable_present va) (by simp)

theorem reservePages (hroom : Room m₀ base bytes) :
    ∀ {l : List Nat} {m : Machine}, Quiet m₀ m → (∀ p ∈ l, p ∈ pages 0 bytes) →
      Quiet m₀ (Machine.reservePages base l m).2 := by
  intro l
  induction l with
  | nil => intro m h _; exact h
  | cons p rest ih =>
    intro m h hl
    have hmem := hl p (by simp)
    obtain ⟨hp, hva⟩ := hroom.at_offset hmem
    unfold Machine.reservePages
    dsimp only
    have hres := (h.clearOwnPage hp hva).reservePage hp hva
    split
    · exact ih hres (fun q hq => hl q (List.mem_cons_of_mem _ hq))
    · exact hres.unmapRange (hroom.prefix_of hmem)

/-! ## `mmap2` and `brk` -/

theorem mmapOwn {f : Flags} {fileBacked : Bool} {fd : Int} (h : Quiet m₀ m) (hroom : Room m₀ base bytes) :
    Quiet m₀ (m.mmapOwn base bytes f fileBacked fd).2 := by
  have hmap := h.mapRange f hroom
  unfold Machine.mmapOwn
  dsimp only
  split
  · exact hmap.unmapRange hroom
  · split
    · exact hmap.unmapRange hroom
    · exact hmap

theorem mmapAt (prot : Nat) (fl : MapFlags) (fd : Int) (pgoff : Nat) (st : Storage) (h : Quiet m₀ m)
    (h0 : m₀.HeapOk) (hroom : Room m₀ base bytes) : Quiet m₀ (m.mmapAt base bytes prot fl fd pgoff st).2 := by
  unfold Machine.mmapAt
  dsimp only
  split
  · have hres := reservePages hroom h (fun _ hp => hp)
    split <;> exact hres
  · split
    · exact h.mmapOwn hroom
    · split
      · exact h
      · have hfile := h.mapFileRange (u32 (pgoff * PAGE_SIZE)) st (protToPte prot) (!fl.shared) h0 hroom
        split
        · exact hfile
        · split
          · exact hfile
          · exact hfile.mmapOwn hroom

end Quiet

/-- What holds of the kernel and a process between two calls. Nothing is
registered inside the arenas, no page of the kernel is a reservation, frame 0
is nobody's, and the heap and the process's two marks are where they should
be. -/
structure WellFormed (m : Machine) : Prop where
  arenas : ∀ r ∈ m.reservations, r.2 ≤ MMAP_ARENA_START ∨ BRK_ARENA_END ≤ r.1
  vacant : ∀ va, Page va → m.Kernel va → (m.pagingGetEntry va).reserved = false
  heap : m.HeapOk
  nobodys : ¬ m.Program 0
  next : Page m.mmapNext
  brk : Page m.brkMapped ∧ BRK_ARENA_START ≤ m.brkMapped ∧ m.brkMapped ≤ BRK_ARENA_END

theorem WellFormed.of_quiet (h : m₀.WellFormed) (hq : Quiet m₀ m) : m.WellFormed where
  arenas := hq.ranges ▸ h.arenas
  vacant := fun va hp hk =>
    have hk₀ := (hq.kernel_iff va).mp hk
    hq.vacant va hp hk₀ (h.vacant va hp hk₀)
  heap := hq.heap h.heap
  nobodys := mt (hq.own 0) h.nobodys
  next := hq.next ▸ h.next
  brk := hq.brk ▸ h.brk

theorem WellFormed.room (h : m.WellFormed) (hbase : Page base) (hbytes : Page bytes)
    (hlo : MMAP_ARENA_START ≤ base) (hhi : base + bytes ≤ BRK_ARENA_END) : Room m base bytes := by
  refine ⟨hbase, hbytes, Nat.le_trans hhi (by decide), ?_⟩
  rintro va hp hle hlt (hk | hk)
  · simp only [USER_SPACE_END, BRK_ARENA_END] at *
    omega
  · simp only [pagingRegionConflict, Bool.and_eq_true, decide_eq_true_eq, List.any_eq_true] at hk
    obtain ⟨_, r, hr, hstart, hstop⟩ := hk
    have := h.arenas r hr
    simp only [Page, MMAP_ARENA_START, BRK_ARENA_END, PAGE_SIZE] at *
    omega

theorem findRun_some {l : List Nat} : ∀ {run r : Nat}, m.findRun bytes l run = some r →
    (r = run ∨ ∃ a ∈ l, r = a + PAGE_SIZE) ∧ ∃ a ∈ l, bytes ≤ a + PAGE_SIZE - r := by
  induction l with
  | nil => intro run r h; simp [findRun] at h
  | cons a rest ih =>
    intro run r h
    unfold findRun at h
    split at h
    · obtain ⟨hr, b, hb, hle⟩ := ih h
      refine ⟨Or.inr ?_, b, List.mem_cons_of_mem _ hb, hle⟩
      rcases hr with rfl | ⟨c, hc, rfl⟩
      · exact ⟨a, by simp, rfl⟩
      · exact ⟨c, List.mem_cons_of_mem _ hc, rfl⟩
    · split at h
      · rename_i hle
        cases h
        exact ⟨Or.inl rfl, a, by simp, hle⟩
      · obtain ⟨hr, b, hb, hle⟩ := ih h
        refine ⟨hr.imp_right ?_, b, List.mem_cons_of_mem _ hb, hle⟩
        rintro ⟨c, hc, rfl⟩
        exact ⟨c, List.mem_cons_of_mem _ hc, rfl⟩

theorem findRun_pages {lo hi r : Nat} (hlo : Page lo) (hhi : Page hi) (hpos : bytes ≠ 0)
    (h : m.findRun bytes (pages lo hi) lo = some r) : Page r ∧ lo ≤ r ∧ r + bytes ≤ hi := by
  obtain ⟨hr, a, ha, hle⟩ := findRun_some h
  have hpa := page_of_mem hlo ha
  obtain ⟨k, hak, halt⟩ := mem_pages.mp ha
  have hr' : Page r ∧ lo ≤ r := by
    rcases hr with rfl | ⟨c, hc, rfl⟩
    · exact ⟨hlo, Nat.le_refl _⟩
    · have hpc := page_of_mem hlo hc
      obtain ⟨j, hcj, _⟩ := mem_pages.mp hc
      simp only [Page, PAGE_SIZE] at *
      omega
  simp only [Page, PAGE_SIZE] at *
  omega

theorem arenaFind_room (h : m.WellFormed) (hbytes : Page bytes) (hfind : m.arenaFind bytes = some base) :
    Room m base bytes := by
  unfold arenaFind at hfind
  split at hfind
  · cases hfind
  · rename_i hne
    have hpos : bytes ≠ 0 := fun h0 => hne (Or.inl h0)
    generalize hh : (if m.mmapNext < MMAP_ARENA_START ∨ MMAP_ARENA_END ≤ m.mmapNext then MMAP_ARENA_START
      else m.mmapNext) = hint at hfind
    have hhint : Page hint ∧ MMAP_ARENA_START ≤ hint ∧ hint ≤ MMAP_ARENA_END := by
      have hnext := h.next
      subst hh
      split
      · exact ⟨by decide, by decide, by decide⟩
      · simp only [MMAP_ARENA_START, MMAP_ARENA_END] at *
        exact ⟨hnext, by omega, by omega⟩
    dsimp only at hfind
    split at hfind
    · rename_i run hrun
      cases hfind
      obtain ⟨hp, hle, hstop⟩ := findRun_pages hhint.1 (by decide) hpos hrun
      exact h.room hp hbytes (Nat.le_trans hhint.2.1 hle) (Nat.le_trans hstop (by decide))
    · obtain ⟨hp, hle, hstop⟩ := findRun_pages (by decide) hhint.1 hpos hfind
      exact h.room hp hbytes hle (Nat.le_trans (Nat.le_trans hstop hhint.2.2) (by decide))

theorem fixed_room {addr : Nat} (haddr : Page addr) (hbytes : Page bytes) (haddr' : addr < 0x100000000)
    (hbytes' : bytes < 0x100000000) (hwrap : ¬ u32 (addr + bytes) < addr) (hend : ¬ USER_SPACE_END < u32 (addr + bytes))
    (hconf : ¬ m.pagingRegionConflict addr (u32 (addr + bytes)) = true) : Room m addr bytes := by
  have hsum : u32 (addr + bytes) = addr + bytes := by
    unfold u32 at hwrap ⊢
    omega
  rw [hsum] at hend hconf
  refine ⟨haddr, hbytes, Nat.le_of_not_lt hend, ?_⟩
  rintro va hp hle hva (hk | hk)
  · exact hend (Nat.lt_of_le_of_lt hk hva)
  · refine hconf ?_
    simp only [pagingRegionConflict, Bool.and_eq_true, decide_eq_true_eq, List.any_eq_true] at hk ⊢
    obtain ⟨_, r, hr, hstart, hstop⟩ := hk
    refine ⟨Nat.lt_of_le_of_lt hle hva, r, hr, Nat.lt_of_le_of_lt hle hstart, ?_⟩
    simp only [Page, PAGE_SIZE] at *
    omega

theorem mmapBase_room {addr : Nat} {fl : MapFlags} (h : m.WellFormed) (hbytes : Page bytes)
    (haddr' : addr < 0x100000000) (hbytes' : bytes < 0x100000000) (hb : m.mmapBase addr bytes fl = (.ok base, m')) :
    Room m base bytes ∧ (m' = m ∨ m' = { m with mmapNext := base + bytes }) := by
  unfold mmapBase at hb
  split at hb
  · split at hb
    · cases hb
    · rename_i haddr
      split at hb
      · cases hb
      · rename_i hwrap
        split at hb
        · cases hb
        · rename_i hend
          split at hb
          · cases hb
          · split at hb
            · cases hb
            · rename_i hconf
              cases hb
              refine ⟨fixed_room ?_ hbytes haddr' hbytes' hwrap hend hconf, Or.inl rfl⟩
              simp only [Page]
              omega
  · split at hb
    · cases hb
    · rename_i b hfind
      cases hb
      have hroom := arenaFind_room h hbytes hfind
      rw [hroom.stop_eq]
      exact ⟨hroom, Or.inr rfl⟩

theorem roundUp_lt (length : Nat) : roundUp length < 0x100000000 := by
  unfold roundUp u32
  simp only [PAGE_SIZE]
  omega

theorem sysMmap2_kept {addr : Nat} (length prot flags pgoff : Nat) (fd : Int) (st : Storage)
    (h : m.WellFormed) (haddr : addr < 0x100000000) :
    KernelKept m (m.sysMmap2 addr length prot flags fd pgoff st).2 ∧
      (m.sysMmap2 addr length prot flags fd pgoff st).2.WellFormed := by
  have hsame : KernelKept m m ∧ m.WellFormed := ⟨(Quiet.refl m).toKernelKept, h⟩
  unfold sysMmap2
  split
  · exact hsame
  · split
    · rename_i e m' hb
      have hm : m' = m := by
        unfold mmapBase at hb
        split at hb
        · repeat (first | (split at hb) | (cases hb; rfl) | cases hb)
        · split at hb
          · cases hb
            rfl
          · cases hb
      subst hm
      exact hsame
    · rename_i base m' hb
      obtain ⟨hroom, hm⟩ := mmapBase_room h (page_roundUp length) haddr (roundUp_lt length) hb
      -- The mark the search starts from next time is all that differs so far.
      have hnext : m'.WellFormed ∧ Room m' base (roundUp length) ∧ (∀ x, KernelKept m' x → KernelKept m x) := by
        rcases hm with rfl | rfl
        · exact ⟨h, hroom, fun _ hx => hx⟩
        · refine ⟨⟨h.arenas, h.vacant, ⟨h.heap.aligned, h.heap.start, h.heap.tables, h.heap.fresh⟩,
            h.nobodys, ?_, h.brk⟩, ⟨hroom.aligned, hroom.whole, hroom.below, hroom.clear⟩,
            fun _ hx => ⟨hx.kept, hx.barred, hx.released⟩⟩
          have hp := hroom.aligned
          have hw := hroom.whole
          simp only [Page, PAGE_SIZE] at *
          omega
      obtain ⟨hwf, hroom', hback⟩ := hnext
      have hq := (Quiet.refl m').mmapAt prot (mapFlags flags) fd pgoff st hwf.heap hroom'
      exact ⟨hback _ hq.toKernelKept, hwf.of_quiet hq⟩

theorem sysBrk_kept (addr : Nat) (h : m.WellFormed) :
    KernelKept m (m.sysBrk addr).2 ∧ (m.sysBrk addr).2.WellFormed := by
  have hsame : KernelKept m m ∧ m.WellFormed := ⟨(Quiet.refl m).toKernelKept, h⟩
  obtain ⟨hp, hlo, hhi⟩ := h.brk
  unfold sysBrk
  split
  · exact hsame
  · split
    · exact hsame
    · rename_i harena
      have hwant : Page (roundUp addr) ∧ BRK_ARENA_START ≤ roundUp addr ∧ roundUp addr ≤ BRK_ARENA_END := by
        refine ⟨page_roundUp addr, ?_⟩
        unfold roundUp
        rw [u32_of_lt (by simp only [BRK_ARENA_START, BRK_ARENA_END, PAGE_SIZE] at *; omega)]
        simp only [BRK_ARENA_START, BRK_ARENA_END, PAGE_SIZE] at *
        omega
      dsimp only
      have hmarks : ∀ x : Machine, Quiet m x →
          KernelKept m { x with brkMapped := roundUp addr, brkCurrent := addr } ∧
            ({ x with brkMapped := roundUp addr, brkCurrent := addr } : Machine).WellFormed := by
        intro x hx
        have hwf := h.of_quiet hx
        exact ⟨⟨hx.kept, hx.barred, hx.released⟩, ⟨hwf.arenas, hwf.vacant,
          ⟨hwf.heap.aligned, hwf.heap.start, hwf.heap.tables, hwf.heap.fresh⟩, hwf.nobodys, hwf.next, hwant⟩⟩
      split
      · rename_i hgrow
        have hroom : Room m m.brkMapped (roundUp addr - m.brkMapped) :=
          h.room hp (by simp only [Page, PAGE_SIZE] at *; omega) (Nat.le_trans (by decide) hlo) (by omega)
        have hq := (Quiet.refl m).mapRange { rw := true, user := true } hroom
        split
        · exact hmarks _ hq
        · exact ⟨hq.toKernelKept, h.of_quiet hq⟩
      · split
        · have hroom : Room m (roundUp addr) (m.brkMapped - roundUp addr) :=
            h.room hwant.1 (by simp only [Page, PAGE_SIZE] at *; omega)
              (Nat.le_trans (by decide) hwant.2.1) (by omega)
          exact hmarks _ ((Quiet.refl m).unmapRange hroom)
        · rename_i hge hle
          have heq : roundUp addr = m.brkMapped := by omega
          have := hmarks m (Quiet.refl m)
          rw [heq] at this
          exact this

end Machine

end NovarisOS.Posix
