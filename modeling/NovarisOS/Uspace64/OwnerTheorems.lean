/-
NovarisOS.Uspace64.OwnerTheorems — what the ledger says of the zero frame and
of the frames of files.

Both hold in every run from boot in which each call keeps the count of
owners (`Op.Keeps`), and each of them fails on a run with one call that does
not: a fixed `map_frames` over a zero page gives the zero frame away, and the
mapping of a file's page past the 256th owner is not counted.
-/
import NovarisOS.Uspace64.KernelTheorems

namespace NovarisOS.Uspace64

open Function (update update_eq_self update_idem update_self)
open Pmm64 (Pmm wrap)


/-! ## §1 A machine to start from -/

theorem plainSys_test (f : Nat) : plainSys.pmm.bitmapTest f = decide (f < 256) := by
  have hbyte : plainSys.pmm.bitmap (f / 8) = if f / 8 < 32 then 0xFF else 0 := rfl
  by_cases hf : f < 256
  · rw [if_pos (by omega)] at hbyte
    rw [Pmm64.Pmm.bitmapTest_of_full hbyte rfl, decide_eq_true hf]
  · rw [if_neg (by omega)] at hbyte
    rw [Pmm64.Pmm.bitmapTest, hbyte, decide_eq_false hf]
    simp

theorem plainSys_booted : Booted plainSys where
  wf := by
    refine ⟨fun _ _ => rfl, fun _ => Nat.zero_le _, ?_, by decide⟩
    have hused : plainSys.pmm.usedSet = Finset.range 256 := by
      ext f
      rw [Pmm64.Pmm.mem_usedSet, plainSys_test, decide_eq_true_eq, Finset.mem_range]
      show f < 8192 ∧ f < 256 ↔ f < 256
      omega
    rw [Pmm64.Pmm.Counts, hused, Finset.card_range]
    rfl
  ground _ := plainSys_test 0
  clean _ _ _ _ := rfl
  max := by decide
  zero := rfl
  live := rfl
  spaces _ := rfl
  cow v e he := by cases he

/-! ## §2 The zero frame -/

/-- The zero frame, once there is one, is marked used, and no process has it
on a page it can write to. -/
structure ZeroSafe (sys : Sys) : Prop where
  used : sys.zero ≠ 0 → sys.pmm.bitmapTest sys.zero = true
  shut : sys.zero ≠ 0 → ∀ s v e, sys.entry s v = some e → e.frame = sys.zero → e.write = false

/-- In every run from boot whose calls keep the count of owners, the zero frame
stays marked used and out of every program's writing. -/
theorem zero_frame_kept (bound : Option Nat) (sys : Sys) (hboot : Booted sys) (ops : List Op)
    (hok : (memory bound).Guarded (fun k op => op.Keeps k) (Kernel.boot sys) ops) :
    ZeroSafe ((memory bound).run (Kernel.boot sys) ops).sys := by
  obtain ⟨base, hled⟩ := (Kept.run bound hboot ops hok).ledger
  constructor
  · intro h0
    have howned := hled.zeroHeld h0
    obtain ⟨hready, hlt⟩ := Pmm.lt_of_owned howned
    exact (Pmm.bitmapTest_iff hready hlt).mpr howned
  · exact fun _ s v e he hz => (hled.quiet s v e he hz).1

/-- With room for one reservation the second is on the zero page, and stays
there through a `mprotect`, a fork and a `munmap`. -/
theorem zero_frame_kept_spilled :
    ((memory (some 1)).run (Kernel.boot plainSys)
      [.spawn 0, .call 1 (.mmap 0x10000000 0x1000 0 0x30), .call 1 (.mmap 0x20000000 0x2000 0 0x30),
        .fork 1, .call 1 (.protect 0x20000000 0x1000 3),
        .call 1 (.munmap 0x20000000 0x2000)]).sys.zero ≠ 0 ∧
    ZeroSafe ((memory (some 1)).run (Kernel.boot plainSys)
      [.spawn 0, .call 1 (.mmap 0x10000000 0x1000 0 0x30), .call 1 (.mmap 0x20000000 0x2000 0 0x30),
        .fork 1, .call 1 (.protect 0x20000000 0x1000 3),
        .call 1 (.munmap 0x20000000 0x2000)]).sys :=
  ⟨by decide +kernel, zero_frame_kept (some 1) plainSys plainSys_booted _
    ⟨trivial, fun _ _ => trivial, fun _ _ => trivial, trivial,
      fun _ _ => confined_of_le _ _ (by decide), fun _ _ => confined_of_le _ _ (by decide), trivial⟩⟩

/-! ## §3 A full list -/

/-- The `i`-th of mappings with a gap after each: a page that nothing may
touch. -/
def gappedCall (i : Nat) : Call := .mmap (0x10000000 + 0x2000 * i) 0x1000 0 0x30

/-- The regions of the first `n` of them. -/
def gappedResv (n : Nat) : List Resv :=
  (List.range n).map fun i => ⟨0x10000000 + 0x2000 * i, 0x10001000 + 0x2000 * i, 0⟩

theorem gappedResv_succ (n : Nat) :
    gappedResv (n + 1) = gappedResv n ++ [⟨0x10000000 + 0x2000 * n, 0x10001000 + 0x2000 * n, 0⟩] := by
  rw [gappedResv, List.range_succ, List.map_append]
  rfl

theorem length_gappedResv (n : Nat) : (gappedResv n).length = n := by simp [gappedResv]

theorem gappedResv_stop {n : Nat} (i : Nat) : ((gappedResv n).getD i ⟨0, 0, 0⟩).stop ≤ 0x10000000 + 0x2000 * n := by
  rw [List.getD_eq_getElem?_getD]
  cases hx : (gappedResv n)[i]? with
  | none => simp
  | some x =>
    obtain ⟨j, hj, rfl⟩ := List.mem_map.mp (List.mem_of_getElem? hx)
    have := List.mem_range.mp hj
    simp only [Option.getD_some]
    omega

theorem gappedResv_firstAfter (n : Nat) :
    resvFirstAfter (gappedResv n) (0x10000000 + 0x2000 * n) = n := by
  rw [resvFirstAfter, firstAfterLoop_all (fun i => gappedResv_stop i) _ _ _ (Nat.zero_le _) (by omega),
    length_gappedResv]

theorem nextMapped_empty {sys : Sys} {s va stop : Nat} (hs : sys.spaces s = some PageTree.empty)
    (hstop : stop ≤ 0x8000000000) : nextMapped sys s va stop = stop := by
  have hsteps : walkSteps stop = walkSteps stop - 2 + 1 + 1 := by
    simp only [walkSteps, PAGE64_SIZE]
    omega
  rw [nextMapped, hsteps, nextMappedLoop]
  split
  · rename_i hlt
    have hlow : pageOf (pageDown va) < LOW_PAGES := pageOf_low (by simp only [USPACE64_LIMIT]; omega)
    have hlook : sys.look s (pageOf (pageDown va)) = .absent 0x8000000000 := by
      rw [Sys.look, Sys.tree_of_space hlow hs]
      rfl
    simp only [hlook]
    rw [nextMappedLoop, if_neg]
    simp only [wrap]
    omega
  · rfl

theorem gappedCall_run {bound : Option Nat} {files : Nat → List Nat} {sys : Sys} {p : Proc} {n : Nat}
    (hs : sys.spaces p.space = some PageTree.empty) (hp : p.resv = gappedResv n)
    (hroom : resvFull bound (gappedResv n) = false) (hn : n ≤ 4096) :
    ((gappedCall n).run bound files sys p).2 = (sys, { p with resv := gappedResv (n + 1) }) := by
  have hdown : pageDown (0x10000000 + 0x2000 * n) = 0x10000000 + 0x2000 * n := by
    simp only [pageDown, PAGE64_SIZE]
    omega
  have hup : pageUp 0x1000 = 0x1000 := by decide
  have hfits : fitsInUserHalf (0x10000000 + 0x2000 * n) 0x1000 = true :=
    fitsInUserHalf_iff.mpr (by simp only [USPACE64_LIMIT]; omega)
  have hplace : mmapPlace sys p (0x10000000 + 0x2000 * n) 0x1000 0x30 = .ok (0x10000000 + 0x2000 * n) := by
    rw [mmapPlace, hdown, if_neg (by decide), if_pos (by decide), hfits]
    rfl
  -- nothing is mapped there, and nothing reserved
  have hunmap : unmapPages sys p.space (0x10000000 + 0x2000 * n) (0x10000000 + 0x2000 * n + 0x1000) = sys := by
    have hsteps : walkSteps (0x10000000 + 0x2000 * n + 0x1000) =
        walkSteps (0x10000000 + 0x2000 * n + 0x1000) - 1 + 1 := by
      simp only [walkSteps, PAGE64_SIZE]
      omega
    rw [unmapPages, overMapped, hsteps, forMapped, nextMapped_empty hs (by omega)]
    simp
  have hremove : resvRemove bound (gappedResv n) (0x10000000 + 0x2000 * n)
      (0x10000000 + 0x2000 * n + 0x1000) = (gappedResv n, none) := by
    rw [resvRemove, gappedResv_firstAfter, removeLoop,
      List.getElem?_eq_none (by rw [length_gappedResv])]
  have hadd : resvAdd bound (gappedResv n) (0x10000000 + 0x2000 * n) (0x10000000 + 0x2000 * n + 0x1000) 0 =
      (gappedResv (n + 1), none) := by
    have hprev : ¬ (n > 0 ∧ ((gappedResv n).getD (n - 1) ⟨0, 0, 0⟩).stop = 0x10000000 + 0x2000 * n) := by
      rintro ⟨hpos, hstop⟩
      rw [List.getD_eq_getElem?_getD, gappedResv, List.getElem?_map, List.getElem?_range (by omega)] at hstop
      simp only [Option.map_some, Option.getD_some] at hstop
      omega
    have hjoin : (decide (n > 0) && decide (((gappedResv n).getD (n - 1) ⟨0, 0, 0⟩).stop =
        0x10000000 + 0x2000 * n) && decide (((gappedResv n).getD (n - 1) ⟨0, 0, 0⟩).flags = 0)) = false := by
      simp only [Bool.and_eq_false_iff, decide_eq_false_iff_not]
      by_cases hpos : n > 0
      · exact Or.inl (Or.inr fun hstop => hprev ⟨hpos, hstop⟩)
      · exact Or.inl (Or.inl hpos)
    simp only [resvAdd, gappedResv_firstAfter, length_gappedResv]
    rw [hjoin, decide_eq_false (Nat.lt_irrefl n)]
    simp only [Bool.false_and, Bool.false_eq_true, if_false, resvInsert, hroom]
    rw [gappedResv_succ, ← @List.insertIdx_length_self _ (gappedResv n), length_gappedResv]
    simp only [Nat.reduceAdd, Nat.add_right_comm]
  rw [gappedCall, Call.run, mmap, if_neg (by decide)]
  unfold mmapAt
  simp only [hup, hplace]
  rw [if_pos ⟨trivial, by decide⟩, hunmap]
  simp only [dropResv, hp, hremove, addResv, hadd]
  rw [if_pos (by decide)]

theorem run_gapped (bound : Option Nat) {k : Kernel} {p : Proc} (hproc : k.procs 1 = some p)
    (hs : k.sys.spaces p.space = some PageTree.empty) (hp : p.resv = [])
    (hbound : ∀ max, bound = some max → PROC64_RESV_MAX ≤ max) : ∀ n ≤ PROC64_RESV_MAX,
    (memory bound).run k ((List.range n).map fun i => .call 1 (gappedCall i)) =
      { k with procs := update k.procs 1 (some { p with resv := gappedResv n }) } := by
  intro n
  induction n with
  | zero =>
    intro _
    have hsame : ({ p with resv := gappedResv 0 } : Proc) = p := by
      rw [show gappedResv 0 = p.resv from hp.symm]
    rw [hsame, ← hproc, update_eq_self]
    rfl
  | succ n ih =>
    intro hn
    have hroom : resvFull bound (gappedResv n) = false := by
      unfold resvFull
      split
      · rfl
      · rename_i max
        have := hbound max rfl
        rw [length_gappedResv]
        simp only [decide_eq_false_iff_not]
        omega
    simp only [PROC64_RESV_MAX] at hn ih
    have hcall : ((gappedCall n).run bound k.files k.sys { p with resv := gappedResv n }).2 =
        (k.sys, { p with resv := gappedResv (n + 1) }) :=
      gappedCall_run hs rfl hroom (by omega)
    rw [List.range_succ, List.map_append, Machine.run_append, ih (by omega)]
    show (Kernel.call bound _ (.call 1 (gappedCall n))).1 = _
    simp only [Kernel.call, update_self, Option.elim_some, Kernel.callBy]
    rcases hr : (gappedCall n).run bound k.files k.sys { p with resv := gappedResv n } with ⟨o, sys', p'⟩
    rw [hr] at hcall
    cases hcall
    simp only [update_idem]

/-- The kernel with one process whose list of reservations is full. -/
def fullKernel : Kernel :=
  { ((Kernel.boot plainSys).spawn 0).1 with
    procs := update ((Kernel.boot plainSys).spawn 0).1.procs 1
      (some ⟨256, 0, 0, USPACE64_MMAP_BASE, gappedResv PROC64_RESV_MAX⟩) }

theorem run_full (bound : Option Nat) (hbound : ∀ max, bound = some max → PROC64_RESV_MAX ≤ max) :
    (memory bound).run (Kernel.boot plainSys)
      (.spawn 0 :: (List.range PROC64_RESV_MAX).map fun i => .call 1 (gappedCall i)) = fullKernel := by
  rw [Machine.run_cons]
  have hproc : ((Kernel.boot plainSys).spawn 0).1.procs 1 = some ⟨256, 0, 0, USPACE64_MMAP_BASE, []⟩ := by
    rfl
  have hspace : ((Kernel.boot plainSys).spawn 0).1.sys.spaces 256 = some PageTree.empty := by
    rfl
  exact run_gapped bound hproc hspace rfl hbound PROC64_RESV_MAX (Nat.le_refl _)

theorem not_zeroSafe {sys : Sys} (hfree : sys.zero ≠ 0 ∧ sys.pmm.bitmapTest sys.zero = false) : ¬ ZeroSafe sys := by
  intro h
  rw [h.used hfree.1] at hfree
  cases hfree.2

/-- A fixed mapping of a file's page over a reservation that was spilled onto
the zero page: the page it displaces gives the zero frame back. -/
theorem zero_frame_given_away :
    ¬ ZeroSafe ((memory (some PROC64_RESV_MAX)).run (Kernel.boot plainSys)
      ((.spawn 0 :: (List.range PROC64_RESV_MAX).map fun i => .call 1 (gappedCall i)) ++
        [.call 1 (.mmap 0x20000000 0x1000 0 0x30), .frames 0 1,
          .call 1 (.mapFile 0x20000000 true 0 0 1 3 false)])).sys := by
  rw [Machine.run_append, run_full (some PROC64_RESV_MAX) fun max h => Nat.le_of_eq (by cases h; rfl)]
  exact not_zeroSafe (by decide +kernel)

/-! ## §4 The frames of files -/

/-- The entries that map the frame `f`, by space and page. -/
def mappings (sys : Sys) (f : Nat) : Set (Nat × Nat) :=
  { x | ∃ e, sys.entry x.1 x.2 = some e ∧ e.frame = f }

/-- The owners of `f` are the entries that map it, and the file that has it. -/
structure FrameCounted (k : Kernel) (f : Nat) : Prop where
  finite : (mappings k.sys f).Finite
  held : (∃ i, f ∈ k.files i) → k.sys.pmm.frameOwners f = (mappings k.sys f).ncard + 1
  released : (¬ ∃ i, f ∈ k.files i) → k.sys.pmm.frameOwners f = (mappings k.sys f).ncard
  taken : k.sys.pmm.bitmapTest f = true

def Place.isPage : Place → Bool
  | .page _ _ => true
  | _ => false

theorem mappings_eq {files : Nat → List Nat} {sys : Sys} {f : Nat} (hz : f ≠ sys.zero) (s v : Nat) :
    (s, v) ∈ mappings sys f ↔ sys.held everywhere files (.page s v) = some f := by
  rw [Books.held_page rfl]
  constructor
  · rintro ⟨e, he, rfl⟩
    simp [he, Sys.holds, hz]
  · intro h
    obtain ⟨e, he, hh⟩ := Option.bind_eq_some_iff.mp h
    unfold Sys.holds at hh
    split at hh
    · cases hh
    · cases hh
      exact ⟨e, he, rfl⟩

/-- A frame that is on a page or in a file, and is not the zero frame. -/
theorem Ledger.frameCounted {k : Kernel} {base : Nat → Nat} (h : Ledger k.files base [] k.sys)
    (hfiles : FilesApart k.files) {f : Nat} (hz : f ≠ k.sys.zero)
    (hf : (mappings k.sys f).Nonempty ∨ ∃ i, f ∈ k.files i) : FrameCounted k f := by
  -- some place that shares has it
  obtain ⟨p₀, hp₀, hheld₀⟩ : ∃ p, ¬ p.Sole ∧ k.sys.held everywhere k.files p = some f := by
    rcases hf with ⟨⟨s, v⟩, hsv⟩ | ⟨i, hi⟩
    · exact ⟨.page s v, id, (mappings_eq hz s v).mp hsv⟩
    · obtain ⟨j, hj⟩ := file_held k.sys hi
      exact ⟨.file i j, id, hj⟩
  obtain ⟨K, hK, hcount⟩ := h.books.tally f
  rw [(h.memory p₀ f hheld₀).2, List.count_nil, Nat.add_zero] at hcount
  have hshared : ∀ p ∈ K, ¬ p.Sole := by
    intro p hp hsole
    have hp := (hK p).mp hp
    have hone := h.sole p f hsole hp
    exact hp₀ (h.books.tally.unique hone hheld₀ hp ▸ hsole)
  -- the pages among the places are the mappings
  have hpages : (fun x : Nat × Nat => Place.page x.1 x.2) '' mappings k.sys f = ↑(K.filter fun p => p.isPage) := by
    ext p
    simp only [Set.mem_image, Finset.coe_filter, Set.mem_ofPred_eq, hK]
    constructor
    · rintro ⟨⟨s, v⟩, hsv, rfl⟩
      exact ⟨(mappings_eq hz s v).mp hsv, rfl⟩
    · rintro ⟨hp, hpage⟩
      cases p with
      | page s v => exact ⟨(s, v), (mappings_eq hz s v).mpr hp, rfl⟩
      | table => cases hpage
      | root => cases hpage
      | file => cases hpage
      | zero => cases hpage
  have hinj : Function.Injective fun x : Nat × Nat => Place.page x.1 x.2 := by
    rintro ⟨s, v⟩ ⟨s', v'⟩ heq
    simpa using heq
  have hfin : (mappings k.sys f).Finite :=
    Set.Finite.of_finite_image (by rw [hpages]; exact Finset.finite_toSet _) hinj.injOn
  have hncard : (mappings k.sys f).ncard = (K.filter fun p => p.isPage).card := by
    rw [← Set.ncard_image_of_injective _ hinj, hpages, Set.ncard_coe_finset]
  have hsplit := Finset.card_filter_add_card_filter_not (s := K) (fun p => p.isPage = true)
  refine ⟨hfin, ?_, ?_, ?_⟩
  · rintro ⟨i, hi⟩
    obtain ⟨j, hj⟩ := file_held k.sys hi
    -- and no other file has it
    have hrest : K.filter (fun p => ¬ p.isPage = true) = {.file i j} := by
      ext p
      simp only [Finset.mem_filter, Finset.mem_singleton, hK]
      constructor
      · rintro ⟨hp, hpage⟩
        cases p with
        | page => exact absurd rfl hpage
        | file i' j' =>
          obtain ⟨hi', hj'⟩ := hfiles i' j' i j f hp hj
          rw [hi', hj']
        | table => exact absurd trivial (hshared _ ((hK _).mpr hp))
        | root => exact absurd trivial (hshared _ ((hK _).mpr hp))
        | zero => exact absurd trivial (hshared _ ((hK _).mpr hp))
      · rintro rfl
        exact ⟨hj, by simp [Place.isPage]⟩
    rw [hrest, Finset.card_singleton] at hsplit
    omega
  · intro hnone
    have hrest : K.filter (fun p => ¬ p.isPage = true) = ∅ := by
      refine Finset.filter_eq_empty_iff.mpr fun p hp hpage => ?_
      cases p with
      | page => exact absurd rfl hpage
      | file i j => exact hnone ⟨i, List.mem_of_getElem? ((hK _).mp hp)⟩
      | table => exact absurd trivial (hshared _ hp)
      | root => exact absurd trivial (hshared _ hp)
      | zero => exact absurd trivial (hshared _ hp)
    rw [hrest, Finset.card_empty] at hsplit
    omega
  · have howned := h.owned hheld₀
    obtain ⟨hready, hlt⟩ := Pmm.lt_of_owned howned
    exact (Pmm.bitmapTest_iff hready hlt).mpr howned

/-- Every frame that a file has, or that was mapped from one and still is. -/
theorem file_frames_counted (bound : Option Nat) (sys : Sys) (hboot : Booted sys) (ops : List Op)
    (hok : (memory bound).Guarded (fun k op => op.Keeps k) (Kernel.boot sys) ops) (f : Nat)
    (hz : f ≠ ((memory bound).run (Kernel.boot sys) ops).sys.zero)
    (hf : (mappings ((memory bound).run (Kernel.boot sys) ops).sys f).Nonempty ∨
      ∃ i, f ∈ ((memory bound).run (Kernel.boot sys) ops).files i) :
    FrameCounted ((memory bound).run (Kernel.boot sys) ops) f := by
  have hkept := Kept.run bound hboot ops hok
  obtain ⟨base, hled⟩ := hkept.ledger
  exact hled.frameCounted hkept.files hz hf

/-- Mapped shared by one process, inherited by its child, and the file gone. -/
theorem file_frames_counted_inherited :
    FrameCounted ((memory (some PROC64_RESV_MAX)).run (Kernel.boot plainSys)
      [.spawn 0, .frames 0 1, .call 1 (.mapFile 0 false 0 0 1 3 false), .fork 1, .release 0]) 260 := by
  have hroom : ∀ f ∈ (((memory (some PROC64_RESV_MAX)).run (Kernel.boot plainSys)
      [.spawn 0, .frames 0 1]).files 0), ((memory (some PROC64_RESV_MAX)).run (Kernel.boot plainSys)
        [.spawn 0, .frames 0 1]).sys.pmm.frameOwners f ≤ Pmm64.REF_MAX := by decide
  have hok : (memory (some PROC64_RESV_MAX)).Guarded (fun k op => op.Keeps k) (Kernel.boot plainSys)
      [.spawn 0, .frames 0 1, .call 1 (.mapFile 0 false 0 0 1 3 false), .fork 1, .release 0] :=
    ⟨trivial, trivial, fun p _ => ⟨fun v hv => absurd hv List.not_mem_nil, fun f hf =>
      Nat.le_add_right_of_le (hroom f (List.mem_of_mem_drop (List.mem_of_mem_take hf)))⟩, trivial, trivial,
      trivial⟩
  exact file_frames_counted (some PROC64_RESV_MAX) plainSys plainSys_booted _ hok 260 (by decide)
    (Or.inl ⟨(256, 0x100000000), ⟨260, true, true, false, false, true, 0⟩, by decide, rfl⟩)

/-- One page of a file mapped 256 times by one process. -/
def crowdedFile : Kernel :=
  (memory (some PROC64_RESV_MAX)).run (Kernel.boot plainSys)
    ([.spawn 0, .frames 0 1] ++ List.replicate 256 (.call 1 (.mapFile 0 false 0 0 1 3 false)))

/-- The last mapping has no reference of its own: 256 entries and the file
are counted as 256 owners. -/
theorem file_frame_not_counted : ¬ FrameCounted crowdedFile 260 := by
  obtain ⟨howners, hfile, hentries⟩ : crowdedFile.sys.pmm.frameOwners 260 = 256 ∧
      crowdedFile.files 0 = [260] ∧ ∀ i < 256, crowdedFile.sys.entry 256 (0x100000000 + i) =
        some ⟨260, true, true, false, false, true, 0⟩ := by decide +kernel
  intro h
  have hcount := h.held ⟨0, by rw [hfile]; exact List.mem_singleton_self _⟩
  have hsub : ↑((Finset.range 256).image fun i => (256, 0x100000000 + i)) ⊆ mappings crowdedFile.sys 260 := by
    intro x hx
    obtain ⟨i, hi, rfl⟩ := Finset.mem_image.mp (Finset.mem_coe.mp hx)
    exact ⟨_, hentries i (Finset.mem_range.mp hi), rfl⟩
  have hle := Set.ncard_le_ncard hsub h.finite
  rw [Set.ncard_coe_finset, Finset.card_image_of_injective _ (fun i j h => by simpa using h),
    Finset.card_range] at hle
  omega

end NovarisOS.Uspace64
