/-
NovarisOS.Uspace64.FindFree — `find_free` finds the first range that is free.

Three loops are one inside the other: the search for a range, the run past
mapped pages inside it, and `vmspace64_next_mapped` inside both. Each is
written as a `Loop` here and looks upwards for a number that is good
(`Loop.run_search`), so each ends, and what the model's function with its
steps counted out comes to is what the loop comes to.
-/
import NovarisOS.Lib.Loop
import NovarisOS.Uspace64.FileMaps

namespace NovarisOS.Uspace64

open NovarisOS.Span
open Pmm64 (wrap)
open Vmspace64 (tableKey)

variable {sys : Sys} {s : Nat}

/-! ## §1 The next mapped page -/

theorem PageTree.look_gap {t : PageTree} {v skip : Nat} (hl : t.look v = .absent skip) :
    ∃ m, SkipPages m ∧ skip = m * PAGE64_SIZE ∧ ∀ v', v' / m = v / m → t.look v' = .absent skip := by
  have hkey : ∀ lvl v', v' / 512 ^ (3 - lvl) = v / 512 ^ (3 - lvl) → tableKey lvl v' = tableKey lvl v :=
    fun lvl v' h => by rw [tableKey, tableKey, h]
  unfold look at hl ⊢
  cases h0 : t.tables.get (tableKey 0 v) with
  | none =>
    rw [h0] at hl
    cases hl
    refine ⟨0x8000000, by simp [SkipPages], rfl, fun v' hv' => ?_⟩
    rw [hkey 0 v' hv', h0]
  | some l0 =>
    simp only [h0] at hl
    cases g1 : t.huge (tableKey 1 v) with
    | some f => rw [g1] at hl; cases hl
    | none =>
      simp only [g1] at hl
      cases h1 : t.tables.get (tableKey 1 v) with
      | none =>
        rw [h1] at hl
        cases hl
        refine ⟨0x40000, by simp [SkipPages], rfl, fun v' hv' => ?_⟩
        rw [hkey 0 v' (by omega), hkey 1 v' hv', h0, g1, h1]
      | some l1 =>
        simp only [h1] at hl
        cases g2 : t.huge (tableKey 2 v) with
        | some f => rw [g2] at hl; cases hl
        | none =>
          simp only [g2] at hl
          cases h2 : t.tables.get (tableKey 2 v) with
          | none =>
            rw [h2] at hl
            cases hl
            refine ⟨512, by simp [SkipPages], rfl, fun v' hv' => ?_⟩
            rw [hkey 0 v' (by omega), hkey 1 v' (by omega), hkey 2 v' hv', h0, g1, h1, g2, h2]
          | some l2 =>
            simp only [h2] at hl
            cases hv : t.pages.get v with
            | none =>
              rw [hv] at hl
              cases hl
              refine ⟨1, by simp [SkipPages], rfl, fun v' hv' => ?_⟩
              obtain rfl : v' = v := by omega
              rw [h0, g1, h1, g2, h2, hv]
            | some e => rw [hv] at hl; cases hl

/-- Something is mapped at the address. -/
def Sys.Mapped (sys : Sys) (s a : Nat) : Prop := (pagingTranslate sys s (pageOf a)).isSome

theorem Sys.mapped_iff {a : Nat} : sys.Mapped s a ↔ ∀ k, sys.look s (pageOf a) ≠ .absent k := by
  rw [Sys.Mapped, pagingTranslate]
  cases sys.look s (pageOf a) with
  | absent k => simp [Slot.frame]
  | huge f => simp [Slot.frame]
  | page e => simp [Slot.frame]

/-- A round of the loop of `vmspace64_next_mapped`. -/
def nextMappedRound (sys : Sys) (s stop va : Nat) : Round Nat Nat :=
  if va < stop then
    match sys.look s (pageOf va) with
    | .absent skip => .more (wrap (va / skip * skip + skip))
    | _ => .over va
  else .over stop

variable {r length : Nat}

theorem nextMappedLoop_eq {stop : Nat} : ∀ (n va : Nat),
    Loop.run (nextMappedRound sys s stop) n va = some r → nextMappedLoop sys s stop n va = r := by
  intro n
  induction n with
  | zero => intro va h; cases h
  | succ n ih =>
    intro va h
    rw [Loop.run, nextMappedRound] at h
    rw [nextMappedLoop]
    by_cases hlt : va < stop
    · rw [if_pos hlt] at h ⊢
      cases hlook : sys.look s (pageOf va) with
      | absent skip =>
        rw [hlook] at h
        exact ih _ h
      | huge f => rw [hlook] at h; simpa using h
      | page e => rw [hlook] at h; simpa using h
    · rw [if_neg hlt] at h ⊢
      simpa using h

theorem nextMappedRound_cases {stop va : Nat} (hlt : va < stop) (hstop : stop ≤ USPACE64_LIMIT) :
    (sys.Mapped s va ∧ nextMappedRound sys s stop va = .over va) ∨
    ∃ va', nextMappedRound sys s stop va = .more va' ∧ va < va' ∧ PAGE64_SIZE ∣ va' ∧
      ∀ x, va ≤ x → x < va' → ¬ sys.Mapped s x := by
  rw [nextMappedRound, if_pos hlt, Sys.mapped_iff]
  cases hlook : sys.look s (pageOf va) with
  | huge f => exact .inl ⟨fun k h => (by cases h), rfl⟩
  | page e => exact .inl ⟨fun k h => (by cases h), rfl⟩
  | absent skip =>
    refine .inr ⟨_, rfl, ?_⟩
    have hlow : va < USPACE64_LIMIT := Nat.lt_of_lt_of_le hlt hstop
    obtain ⟨m, hm, rfl, hgap⟩ := PageTree.look_gap hlook
    have hspan : ∀ x, va ≤ x → x < wrap (va / (m * PAGE64_SIZE) * (m * PAGE64_SIZE) + m * PAGE64_SIZE) →
        pageOf x / m = pageOf va / m ∧ pageOf x < LOW_PAGES := by
      intro x hlo hhi
      simp only [wrap, pageOf, PAGE64_SIZE, USPACE64_LIMIT, LOW_PAGES] at *
      rcases hm with rfl | rfl | rfl | rfl <;> omega
    refine ⟨?_, ?_, fun x hlo hhi hmapped => ?_⟩
    · simp only [wrap, PAGE64_SIZE, USPACE64_LIMIT] at *
      rcases hm with rfl | rfl | rfl | rfl <;> omega
    · simp only [wrap, PAGE64_SIZE, USPACE64_LIMIT] at *
      rcases hm with rfl | rfl | rfl | rfl <;> omega
    · obtain ⟨hsame, hlowx⟩ := hspan x hlo hhi
      have htree : sys.tree s (pageOf x) = sys.tree s (pageOf va) := by
        rw [Sys.tree, Sys.tree, if_pos hlowx, if_pos (pageOf_low hlow)]
      refine Sys.mapped_iff.mp hmapped (m * PAGE64_SIZE) ?_
      rw [Sys.look, htree]
      exact hgap _ hsame

/-- What `vmspace64_next_mapped` finds is mapped and nothing before it is; its
loop ends. -/
theorem nextMapped_spec (sys : Sys) (s va : Nat) {stop : Nat} (hstop : stop ≤ USPACE64_LIMIT) :
    Loop.run (nextMappedRound sys s stop) (walkSteps stop) (pageDown va) =
      some (nextMapped sys s va stop) ∧
    (∀ x, pageDown va ≤ x → x < nextMapped sys s va stop → ¬ sys.Mapped s x) ∧
    (nextMapped sys s va stop = stop ∨ pageDown va ≤ nextMapped sys s va stop ∧
      nextMapped sys s va stop < stop ∧ PAGE64_SIZE ∣ nextMapped sys s va stop ∧
      sys.Mapped s (nextMapped sys s va stop)) := by
  have hround : ∀ x, PAGE64_SIZE ∣ x →
      (stop ≤ x ∧ nextMappedRound sys s stop x = .over stop) ∨
      (x < stop ∧ sys.Mapped s x ∧ nextMappedRound sys s stop x = .over x) ∨
      (x < stop ∧ ∃ x', nextMappedRound sys s stop x = .more x' ∧ x + PAGE64_SIZE ≤ x' ∧
        PAGE64_SIZE ∣ x' ∧ ∀ y, x ≤ y → y < x' → ¬ sys.Mapped s y) := by
    intro x hx
    by_cases hlt : x < stop
    · rcases nextMappedRound_cases hlt hstop with ⟨hmapped, hbody⟩ | ⟨x', hbody, hgrow, hpage, hnone⟩
      · exact .inr (.inl ⟨hlt, hmapped, hbody⟩)
      · refine .inr (.inr ⟨hlt, x', hbody, ?_, hpage, hnone⟩)
        simp only [PAGE64_SIZE] at *
        omega
    · exact .inl ⟨Nat.not_lt.mp hlt, by rw [nextMappedRound, if_neg hlt]⟩
  have hdown : PAGE64_SIZE ∣ pageDown va := Nat.dvd_mul_left _ _
  have hsteps : walkSteps stop = 2 * (stop / PAGE64_SIZE) + 3 + 1 := by
    rw [walkSteps]
    omega
  rw [nextMapped]
  rcases Loop.run_search (by decide) hround (2 * (stop / PAGE64_SIZE) + 3) _ hdown
    (by simp only [PAGE64_SIZE]; omega) with
    ⟨r, hlo, hlt, hpage, hmapped, hbelow, hrun⟩ | ⟨hnone, hrun⟩
  · rw [← hsteps] at hrun
    rw [nextMappedLoop_eq _ _ hrun]
    exact ⟨hrun, hbelow, .inr ⟨hlo, hlt, hpage, hmapped⟩⟩
  · rw [← hsteps] at hrun
    rw [nextMappedLoop_eq _ _ hrun]
    exact ⟨hrun, hnone, .inl rfl⟩

/-! ## §2 The run past mapped pages -/

/-- A round of the inner loop of `find_free`. -/
def skipRunRound (sys : Sys) (s at' : Nat) : Round Nat Nat :=
  if fitsInUserHalf at' PAGE64_SIZE && nextMapped sys s at' (at' + PAGE64_SIZE) = at' then
    .more (at' + PAGE64_SIZE)
  else .over at'

theorem skipRun_eq : ∀ (n at' : Nat),
    Loop.run (skipRunRound sys s) n at' = some r → skipRun sys s n at' = r := by
  intro n
  induction n with
  | zero => intro at' h; cases h
  | succ n ih =>
    intro at' h
    rw [Loop.run, skipRunRound] at h
    rw [skipRun]
    by_cases hmore : (fitsInUserHalf at' PAGE64_SIZE &&
        nextMapped sys s at' (at' + PAGE64_SIZE) = at') = true
    · rw [if_pos hmore] at h ⊢
      exact ih _ h
    · rw [if_neg hmore] at h ⊢
      simpa using h

theorem nextMapped_page (sys : Sys) (s : Nat) {at' : Nat} (hpage : PAGE64_SIZE ∣ at')
    (hfits : at' + PAGE64_SIZE ≤ USPACE64_LIMIT) :
    nextMapped sys s at' (at' + PAGE64_SIZE) = at' ↔ sys.Mapped s at' := by
  obtain ⟨-, hbelow, hend⟩ := nextMapped_spec sys s at' hfits
  have hdown : pageDown at' = at' := Nat.div_mul_cancel hpage
  rw [hdown] at hbelow hend
  constructor
  · intro h
    rcases hend with heq | ⟨-, -, -, hmapped⟩
    · simp only [PAGE64_SIZE] at *
      omega
    · rwa [h] at hmapped
  · intro h
    rcases hend with heq | ⟨hlo, hlt, hdvd, -⟩
    · rw [heq] at hbelow
      exact absurd h (hbelow at' (Nat.le_refl _) (by simp only [PAGE64_SIZE]; omega))
    · simp only [PAGE64_SIZE] at *
      omega

theorem Sys.mapped_page {a x : Nat} (h : x / PAGE64_SIZE = a / PAGE64_SIZE) :
    sys.Mapped s x ↔ sys.Mapped s a := by
  rw [Sys.Mapped, Sys.Mapped, pageOf, pageOf, h]

/-- The inner loop of `find_free` ends, at the first page that is not mapped
or at the limit. -/
theorem skipRun_spec (sys : Sys) (s : Nat) {at' : Nat} (hpage : PAGE64_SIZE ∣ at')
    (hlimit : at' ≤ USPACE64_LIMIT) :
    Loop.run (skipRunRound sys s) (LOW_PAGES + 1) at' =
      some (skipRun sys s (LOW_PAGES + 1) at') ∧
    at' ≤ skipRun sys s (LOW_PAGES + 1) at' ∧ PAGE64_SIZE ∣ skipRun sys s (LOW_PAGES + 1) at' ∧
    ∀ x, at' ≤ x → x < skipRun sys s (LOW_PAGES + 1) at' → sys.Mapped s x := by
  have hround : ∀ x, PAGE64_SIZE ∣ x ∧ x ≤ USPACE64_LIMIT →
      (USPACE64_LIMIT ≤ x ∧ skipRunRound sys s x = .over USPACE64_LIMIT) ∨
      (x < USPACE64_LIMIT ∧ ¬ sys.Mapped s x ∧ skipRunRound sys s x = .over x) ∨
      (x < USPACE64_LIMIT ∧ ∃ x', skipRunRound sys s x = .more x' ∧ x + PAGE64_SIZE ≤ x' ∧
        (PAGE64_SIZE ∣ x' ∧ x' ≤ USPACE64_LIMIT) ∧ ∀ y, x ≤ y → y < x' → ¬ ¬ sys.Mapped s y) := by
    rintro x ⟨hx, hle⟩
    by_cases hlt : x < USPACE64_LIMIT
    · have hroom : x + PAGE64_SIZE ≤ USPACE64_LIMIT := by
        simp only [PAGE64_SIZE, USPACE64_LIMIT] at *
        omega
      have hfits : fitsInUserHalf x PAGE64_SIZE = true := fitsInUserHalf_iff.mpr ⟨hlt, hroom⟩
      by_cases hmapped : sys.Mapped s x
      · refine .inr (.inr ⟨hlt, x + PAGE64_SIZE, ?_, Nat.le_refl _,
          ⟨Nat.dvd_add hx (Nat.dvd_refl _), hroom⟩, fun y hlo hhi => not_not.mpr ?_⟩)
        · rw [skipRunRound, hfits, (nextMapped_page sys s hx hroom).mpr hmapped]
          simp
        · refine (Sys.mapped_page ?_).mpr hmapped
          simp only [PAGE64_SIZE] at *
          omega
      · refine .inr (.inl ⟨hlt, hmapped, ?_⟩)
        have hne := mt (nextMapped_page sys s hx hroom).mp hmapped
        rw [skipRunRound, hfits]
        simp [hne]
    · obtain rfl : x = USPACE64_LIMIT := by omega
      refine .inl ⟨Nat.le_refl _, ?_⟩
      have hfits : fitsInUserHalf USPACE64_LIMIT PAGE64_SIZE = false := by decide
      rw [skipRunRound, hfits]
      simp
  rcases Loop.run_search (by decide) hround LOW_PAGES at' ⟨hpage, hlimit⟩
    (by simp only [USPACE64_LIMIT, LOW_PAGES, PAGE64_SIZE]; omega) with
    ⟨r, hlo, -, ⟨hdvd, -⟩, -, hbelow, hrun⟩ | ⟨hall, hrun⟩
  · rw [skipRun_eq _ _ hrun]
    exact ⟨hrun, hlo, hdvd, fun x hx hlt => not_not.mp (hbelow x hx hlt)⟩
  · rw [skipRun_eq _ _ hrun]
    exact ⟨hrun, hlimit, by decide, fun x hx hlt => not_not.mp (hall x hx hlt)⟩

/-! ## §3 The search -/

/-- Nothing is reserved in the range, and nothing is mapped. -/
def Free (sys : Sys) (p : Proc) (length s : Nat) : Prop :=
  ∀ a, s ≤ a → a < s + length → flagsAt p.resv a = none ∧ ¬ sys.Mapped p.space a

/-- A round of the loop of `find_free`. -/
def findFreeRound (sys : Sys) (p : Proc) (length s : Nat) : Round Nat Nat :=
  if !fitsInUserHalf s length then .over 0
  else
    let e := s + length
    let i := resvFirstAfter p.resv s
    if i < p.resv.length && (p.resv.getD i ⟨0, 0, 0⟩).start < e then
      .more (pageUp (p.resv.getD i ⟨0, 0, 0⟩).stop)
    else
      let m := nextMapped sys p.space s e
      if m < e then .more (skipRun sys p.space (LOW_PAGES + 1) (m + PAGE64_SIZE)) else .over s

variable {p : Proc}

theorem findFreeLoop_eq : ∀ (n s : Nat),
    Loop.run (findFreeRound sys p length) n s = some r → findFreeLoop sys p length n s = r := by
  intro n
  induction n with
  | zero => intro s h; cases h
  | succ n ih =>
    intro s h
    rw [Loop.run, findFreeRound] at h
    rw [findFreeLoop]
    by_cases hfits : (!fitsInUserHalf s length) = true
    · rw [if_pos hfits] at h ⊢
      simpa using h
    rw [if_neg hfits] at h ⊢
    by_cases hover : (decide (resvFirstAfter p.resv s < p.resv.length) &&
        decide ((p.resv.getD (resvFirstAfter p.resv s) ⟨0, 0, 0⟩).start < s + length)) = true
    · rw [if_pos hover] at h ⊢
      exact ih _ h
    rw [if_neg hover] at h ⊢
    by_cases hmapped : nextMapped sys p.space s (s + length) < s + length
    · rw [if_pos hmapped] at h ⊢
      exact ih _ h
    · rw [if_neg hmapped] at h ⊢
      simpa using h

/-- The last page boundary of 64 bits. A region that ends there or before can
have its end rounded up. -/
abbrev RESV_TOP : Nat := 0xFFFFFFFFFFFFF000

/-- What `find_free` relies on: the list is in order and its ends can be
rounded up, and the bump pointer is at a page of the user half's. -/
structure Based (p : Proc) : Prop where
  inOrder : InOrder p.resv
  ends : ∀ a, RESV_TOP ≤ a → flagsAt p.resv a = none
  aligned : PAGE64_SIZE ∣ p.mmapNext
  positive : 0 < p.mmapNext

theorem Based.stop_le (h : Based p) {x : Resv} (hx : x ∈ p.resv) : x.stop ≤ RESV_TOP := by
  by_contra hlt
  have hproper := h.inOrder.proper x hx
  have hat := h.inOrder.flagsAt_mem hx (a := max x.start RESV_TOP) (by omega) (by omega)
  rw [h.ends _ (by omega)] at hat
  cases hat

/-- What the search for a range comes to from the page `s` on. -/
structure FindsFree (sys : Sys) (p : Proc) (length : Nat) : Prop where
  /-- The loop ends, and so do the two loops inside it. -/
  ends : Loop.run (findFreeRound sys p length) (LOW_PAGES + 1) p.mmapNext =
    some (findFree sys p length)
  walks : ∀ va stop, stop ≤ USPACE64_LIMIT →
    Loop.run (nextMappedRound sys p.space stop) (walkSteps stop) (pageDown va) =
      some (nextMapped sys p.space va stop)
  runs : ∀ at', PAGE64_SIZE ∣ at' → at' ≤ USPACE64_LIMIT →
    Loop.run (skipRunRound sys p.space) (LOW_PAGES + 1) at' =
      some (skipRun sys p.space (LOW_PAGES + 1) at')
  /-- What it finds is free. -/
  found : findFree sys p length ≠ 0 → p.mmapNext ≤ findFree sys p length ∧
    findFree sys p length + length ≤ USPACE64_LIMIT ∧ Free sys p length (findFree sys p length)
  /-- It finds nothing only where there is nothing. -/
  none : findFree sys p length = 0 → ∀ s, PAGE64_SIZE ∣ s → p.mmapNext ≤ s →
    s + length ≤ USPACE64_LIMIT → ¬ Free sys p length s

theorem pageUp_past {stop s : Nat} (hs : PAGE64_SIZE ∣ s) (hlt : s < stop) (htop : stop ≤ RESV_TOP) :
    s < pageUp stop ∧ PAGE64_SIZE ∣ pageUp stop ∧ ∀ x < pageUp stop, PAGE64_SIZE ∣ x → x < stop := by
  have hup : PAGE64_SIZE ∣ pageUp stop := Nat.dvd_mul_left _ _
  simp only [pageUp, pageDown, wrap, PAGE64_SIZE, RESV_TOP] at *
  refine ⟨by omega, hup, fun x hx hdvd => by omega⟩

theorem findFreeRound_cases (h : Based p) {s : Nat} (hlength : 0 < length)
    (hs : PAGE64_SIZE ∣ s) (hfits : s + length ≤ USPACE64_LIMIT) :
    (Free sys p length s ∧ findFreeRound sys p length s = .over s) ∨
    ∃ s', findFreeRound sys p length s = .more s' ∧ s < s' ∧ PAGE64_SIZE ∣ s' ∧
      ∀ x, s ≤ x → x < s' → PAGE64_SIZE ∣ x → ¬ Free sys p length x := by
  rw [findFreeRound, if_neg (by simp [fitsInUserHalf_iff.mpr ⟨by omega, hfits⟩])]
  simp only
  split
  · rename_i hover
    simp only [Bool.and_eq_true, decide_eq_true_eq] at hover
    obtain ⟨hmem, hpast⟩ := resvFirstAfter_past hover.1
    generalize p.resv.getD (resvFirstAfter p.resv s) ⟨0, 0, 0⟩ = region at hover hmem hpast
    obtain ⟨hgrow, hpage, hbelow⟩ := pageUp_past hs hpast (h.stop_le hmem)
    refine .inr ⟨_, rfl, hgrow, hpage, fun x hlo hhi hx hfree => ?_⟩
    have hin := hbelow x hhi hx
    have hflags := h.inOrder.flagsAt_mem hmem (a := max x region.start) (by omega)
      (by have := h.inOrder.proper region hmem; omega)
    rw [(hfree _ (by omega) (by omega)).1] at hflags
    cases hflags
  · rename_i hover
    have hnone : resvOverlaps p.resv s (s + length) ≠ true := hover
    rw [ne_eq, resvOverlaps_iff h.inOrder (by omega)] at hnone
    obtain ⟨-, hbelow, hend⟩ := nextMapped_spec sys p.space s hfits
    rw [show pageDown s = s from Nat.div_mul_cancel hs] at hbelow hend
    generalize nextMapped sys p.space s (s + length) = m at hbelow hend
    split
    · rename_i hlt
      obtain ⟨hlo, -, hpage, hmapped⟩ := hend.resolve_left (by omega)
      have hnext : PAGE64_SIZE ∣ m + PAGE64_SIZE := Nat.dvd_add hpage (Nat.dvd_refl _)
      obtain ⟨-, hgrow, hdvd, hrun⟩ := skipRun_spec sys p.space hnext
        (by simp only [PAGE64_SIZE, USPACE64_LIMIT] at *; omega)
      refine .inr ⟨_, rfl, by simp only [PAGE64_SIZE] at *; omega, hdvd, fun x hx hlt' hdvdx hfree => ?_⟩
      by_cases hm : x ≤ m
      · exact (hfree m hm (by omega)).2 hmapped
      · have hpast : m + PAGE64_SIZE ≤ x := by
          simp only [PAGE64_SIZE] at *
          omega
        exact (hfree x (Nat.le_refl _) (by omega)).2 (hrun x hpast hlt')
    · rename_i hge
      refine .inl ⟨fun a hlo hhi => ⟨?_, hbelow a hlo (by omega)⟩, rfl⟩
      by_contra hsome
      exact hnone ⟨a, hlo, hhi, hsome⟩

theorem findFree_spec (sys : Sys) (h : Based p) (hlength : 0 < length) :
    FindsFree sys p length := by
  have hround : ∀ s, PAGE64_SIZE ∣ s →
      (USPACE64_LIMIT + 1 - length ≤ s ∧ findFreeRound sys p length s = .over 0) ∨
      (s < USPACE64_LIMIT + 1 - length ∧ (PAGE64_SIZE ∣ s ∧ Free sys p length s) ∧
        findFreeRound sys p length s = .over s) ∨
      (s < USPACE64_LIMIT + 1 - length ∧ ∃ s', findFreeRound sys p length s = .more s' ∧
        s + PAGE64_SIZE ≤ s' ∧ PAGE64_SIZE ∣ s' ∧
        ∀ x, s ≤ x → x < s' → ¬ (PAGE64_SIZE ∣ x ∧ Free sys p length x)) := by
    intro s hs
    by_cases hlt : s < USPACE64_LIMIT + 1 - length
    · rcases findFreeRound_cases h hlength hs (by omega) with ⟨hfree, hbody⟩ | ⟨s', hbody, hgrow, hpage, hnone⟩
      · exact .inr (.inl ⟨hlt, ⟨hs, hfree⟩, hbody⟩)
      · refine .inr (.inr ⟨hlt, s', hbody, ?_, hpage, fun x hlo hhi hx => hnone x hlo hhi hx.1 hx.2⟩)
        simp only [PAGE64_SIZE] at *
        omega
    · refine .inl ⟨Nat.not_lt.mp hlt, ?_⟩
      rw [findFreeRound, if_pos]
      rw [Bool.not_eq_true', ← Bool.not_eq_true, fitsInUserHalf_iff]
      omega
  have hwalks := fun va stop (hstop : stop ≤ USPACE64_LIMIT) =>
    (nextMapped_spec sys p.space va hstop).1
  have hruns := fun at' (hpage : PAGE64_SIZE ∣ at') hle => (skipRun_spec sys p.space hpage hle).1
  have hpos := h.positive
  rcases Loop.run_search (by decide) hround LOW_PAGES p.mmapNext h.aligned
    (by simp only [USPACE64_LIMIT, LOW_PAGES, PAGE64_SIZE]; omega) with
    ⟨r, hlo, hlt, hpage, ⟨-, hfree⟩, hbelow, hrun⟩ | ⟨hnone, hrun⟩
  · have heq : findFree sys p length = r := findFreeLoop_eq _ _ hrun
    refine ⟨by rw [heq]; exact hrun, hwalks, hruns, fun _ => ?_, fun h0 => ?_⟩
    · rw [heq]
      exact ⟨hlo, by omega, hfree⟩
    · omega
  · have heq : findFree sys p length = 0 := findFreeLoop_eq _ _ hrun
    refine ⟨by rw [heq]; exact hrun, hwalks, hruns, fun hne => absurd heq hne, fun _ s hs hge hfits hfree => ?_⟩
    exact hnone s hge (by omega) ⟨hs, hfree⟩

/-! ## §4 The processes of a run, and their lists -/

theorem skipRun_dvd : ∀ (n at' : Nat), PAGE64_SIZE ∣ at' → PAGE64_SIZE ∣ skipRun sys s n at' := by
  intro n
  induction n with
  | zero => intro at' h; exact h
  | succ n ih =>
    intro at' h
    rw [skipRun]
    split
    · exact ih _ (Nat.dvd_add h (Nat.dvd_refl _))
    · exact h

theorem findFreeLoop_dvd : ∀ (n s : Nat), PAGE64_SIZE ∣ s →
    PAGE64_SIZE ∣ findFreeLoop sys p length n s := by
  intro n
  induction n with
  | zero => intro s _; exact Nat.dvd_zero _
  | succ n ih =>
    intro s h
    rw [findFreeLoop]
    split
    · exact Nat.dvd_zero _
    · simp only
      split
      · exact ih _ (Nat.dvd_mul_left _ _)
      · split
        · rename_i hlt
          refine ih _ (skipRun_dvd _ _ (Nat.dvd_add ?_ (Nat.dvd_refl _)))
          exact Nat.dvd_of_mod_eq_zero (nextMappedLoop_aligned sys p.space _ _ _ (by simp [pageDown]) hlt)
        · exact h

namespace Based

variable {p : Proc}

theorem congr {q : Proc} (h : Based p) (hresv : q.resv = p.resv) (hnext : q.mmapNext = p.mmapNext) :
    Based q :=
  ⟨hresv ▸ h.inOrder, hresv ▸ h.ends, hnext ▸ h.aligned, hnext ▸ h.positive⟩

variable {start stop : Nat}

theorem drop (h : Based p) (bound : Option Nat) (sys : Sys) (hss : start ≤ stop) :
    Based (dropResv bound sys p start stop).2 := by
  rw [dropResv_proc]
  have hremoved := resvRemove_spec bound h.inOrder hss
  refine ⟨hremoved.inOrder, fun a ha => ?_, h.aligned, h.positive⟩
  rw [hremoved.flagsAt a, h.ends a ha, ite_self]

theorem replace (h : Based p) (bound : Option Nat) (sys sys' : Sys)
    (hss : start < stop) (htop : stop ≤ RESV_TOP) (flags : Nat) :
    Based (addResv bound sys' (dropResv bound sys p start stop).2 start stop flags).2.2 := by
  rw [addResv_proc, dropResv_proc]
  have hremoved := resvRemove_spec bound h.inOrder (Nat.le_of_lt hss)
  have hadded := resvAdd_spec bound hremoved.inOrder flags hss fun a hlo hhi => by
    rw [hremoved.flagsAt a, if_pos (Or.inl ⟨hlo, hhi⟩)]
  refine ⟨hadded.inOrder, fun a ha => ?_, h.aligned, h.positive⟩
  rw [hadded.flagsAt a, if_neg (by omega), hremoved.flagsAt a, h.ends a ha, ite_self]

theorem bump (h : Based p) (hstop : PAGE64_SIZE ∣ stop) : Based (bumpPast p stop) := by
  rw [bumpPast]
  split
  · rename_i hgrow
    exact ⟨h.inOrder, h.ends, hstop, Nat.lt_of_le_of_lt (Nat.zero_le _) hgrow⟩
  · exact h

theorem mapAnon (h : Based p) (bound : Option Nat) (sys : Sys) (hss : start < stop)
    (htop : stop ≤ RESV_TOP) (flags : Nat) (zeroExisting : Bool) :
    Based (mapAnon bound sys p start stop flags zeroExisting).2.2 := by
  unfold Uspace64.mapAnon
  rcases hdrop : dropResv bound sys p start stop with ⟨sys', p'⟩
  have := fun sys'' => h.replace bound sys sys'' hss htop flags
  rw [hdrop] at this
  exact this _

theorem pageUp_le (n : Nat) : pageUp n ≤ RESV_TOP := by
  simp only [pageUp, pageDown, wrap, PAGE64_SIZE, RESV_TOP]
  omega

theorem brk (h : Based p) (bound : Option Nat) (sys : Sys) (addr : Nat) :
    Based (brk bound sys p addr).2.2 := by
  unfold Uspace64.brk
  split
  · exact h
  · simp only
    split
    · rename_i hgrow
      have hanon := h.mapAnon bound sys hgrow (pageUp_le addr)
        (PAGE64_PRESENT ||| PAGE64_WRITE ||| PAGE64_USER) false
      split
      · rename_i heq
        rwa [heq] at hanon
      · rename_i heq
        rw [heq] at hanon
        exact hanon.congr rfl rfl
    · exact h.congr rfl rfl

theorem mmapPlace_dvd (h : Based p) {addr length flags : Nat}
    (hplace : mmapPlace sys p addr length flags = .ok start) : PAGE64_SIZE ∣ start := by
  have hdown : PAGE64_SIZE ∣ pageDown addr := Nat.dvd_mul_left _ _
  unfold mmapPlace at hplace
  simp only at hplace
  split at hplace
  · split at hplace
    · cases hplace
    · split at hplace
      · cases hplace
      · cases hplace
        exact hdown
  · split at hplace
    · split at hplace
      · cases hplace
      · cases hplace
        exact hdown
    · split at hplace
      · split at hplace
        · cases hplace
        · cases hplace
          exact findFreeLoop_dvd _ _ h.aligned
      · split at hplace
        · cases hplace
        · cases hplace
          exact hdown

theorem mmapAt (h : Based p) (bound : Option Nat) (sys : Sys) (prot flags : Nat) (hss : start < stop)
    (htop : stop ≤ RESV_TOP) : Based (mmapAt bound sys p start stop prot flags).2.2 := by
  unfold Uspace64.mmapAt
  split
  · exact h.replace bound _ _ hss htop 0
  · exact h.mapAnon bound sys hss htop _ _

theorem mmap (h : Based p) (bound : Option Nat) (sys : Sys) (addr length prot flags : Nat)
    (hlen : Call.Unwrapped sys p (.mmap addr length prot flags)) :
    Based (mmap bound sys p addr length prot flags).2.2 := by
  unfold Uspace64.mmap
  split
  · exact h
  · rename_i hne
    simp only
    split
    · exact h
    · rename_i start hplace
      have hpos := hlen hne ⟨start, hplace⟩
      have hss : start < start + pageUp length := by omega
      have htop : start + pageUp length ≤ RESV_TOP := by
        have := mmapPlace_fits hplace
        simp only [USPACE64_LIMIT, RESV_TOP] at *
        omega
      have hmade := h.mmapAt bound sys prot flags hss htop
      split
      · rename_i heq
        rwa [heq] at hmade
      · rename_i heq
        rw [heq] at hmade
        split
        · exact hmade
        · exact hmade.bump (Nat.dvd_add (h.mmapPlace_dvd hplace) (Nat.dvd_mul_left _ _))

theorem protectLoop (bound : Option Nat) (htop : stop ≤ RESV_TOP) (nf : Nat) :
    ∀ (n : Nat) (sys : Sys) (p : Proc) (at' : Nat), Based p →
      Based (protectLoop bound stop nf n sys p at').2 := by
  intro n
  induction n with
  | zero => intro sys p at' h; exact h
  | succ n ih =>
    intro sys p at' h
    rw [Uspace64.protectLoop]
    split
    · rename_i hlt
      split
      · exact h
      · rename_i x hx
        have hi : resvFirstAfter p.resv at' < p.resv.length := (List.getElem?_eq_some_iff.mp hx).1
        obtain ⟨hmem, hpast⟩ := resvFirstAfter_past hi
        rw [List.getD_eq_getElem?_getD, hx, Option.getD_some] at hmem hpast
        have hproper := h.inOrder.proper x hmem
        split
        · exact h
        · simp only
          split
          · refine ih _ _ _ (h.replace bound _ _ ?_ ?_ nf)
            · split <;> split <;> omega
            · split
              · exact htop
              · exact h.stop_le hmem
          · exact ih _ _ _ h
    · exact h

theorem protect (h : Based p) (bound : Option Nat) (sys : Sys) (addr length prot : Nat) :
    Based (protect bound sys p addr length prot).2 := by
  have htop : wrap (pageDown addr + pageUp length) ≤ RESV_TOP := by
    simp only [pageUp, pageDown, wrap, PAGE64_SIZE, RESV_TOP]
    omega
  unfold Uspace64.protect
  exact protectLoop bound htop _ _ sys p _ h

theorem mapFrames (h : Based p) (bound : Option Nat) (sys : Sys) (addr : Nat) (fixed : Bool)
    (frames : List Nat) (prot : Nat) (cow : Bool) :
    Based (mapFrames bound sys p addr fixed frames prot cow).2.2 := by
  have hclear : ∀ start, Based (clearForFrames bound sys p start frames.length).2 :=
    fun start => h.drop bound sys (Nat.le_add_right _ _)
  have hpages : PAGE64_SIZE ∣ wrap (frames.length * PAGE64_SIZE) := by
    simp only [wrap, PAGE64_SIZE]
    omega
  unfold Uspace64.mapFrames
  split
  · exact h
  · split
    · exact h
    · rename_i start hplace
      cases fixed with
      | true =>
        simp only [if_true]
        split <;> exact hclear start
      | false =>
        simp only [Bool.false_eq_true, if_false]
        split
        · exact h
        · have hstart : PAGE64_SIZE ∣ start := by
            simp only [framesPlace, Bool.false_eq_true, if_false] at hplace
            split at hplace
            · cases hplace
            · split at hplace
              · cases hplace
              · cases hplace
                exact findFreeLoop_dvd _ _ h.aligned
          exact h.bump (Nat.dvd_add hstart hpages)

theorem mapPhys (h : Based p) (sys : Sys) (length phys prot : Nat) :
    Based (mapPhys sys p length phys prot).2.2 := by
  unfold Uspace64.mapPhys
  simp only
  split
  · exact h
  · split
    · exact h
    · split
      · exact h
      · split
        · exact h
        · exact h.bump (Nat.dvd_add (findFreeLoop_dvd _ _ h.aligned) (Nat.dvd_mul_left _ _))

theorem munmap (h : Based p) (bound : Option Nat) (sys : Sys) (addr length : Nat)
    (hwrap : pageDown addr ≤ wrap (pageDown addr + pageUp length) ∨
      ∀ x ∈ p.resv, ¬ (x.start < wrap (pageDown addr + pageUp length) ∧ pageDown addr < x.stop)) :
    Based (munmap bound sys p addr length).2.2 := by
  unfold Uspace64.munmap
  split
  · exact h
  · simp only
    rcases hwrap with hle | hno
    · exact h.drop bound sys hle
    · refine h.congr ?_ ?_
      · rw [dropResv_proc]
        exact resvRemove_wrapped bound h.inOrder hno
      · rw [dropResv_proc]

theorem run (h : Based p) (bound : Option Nat) (files : Nat → List Nat) (sys : Sys) (c : Call)
    (hc : c.Unwrapped sys p) : Based (c.run bound files sys p).2.2 := by
  cases c with
  | mmap addr length prot flags => exact h.mmap bound sys addr length prot flags hc
  | munmap addr length => exact h.munmap bound sys addr length hc
  | protect addr length prot => exact h.protect bound sys addr length prot
  | discard addr length => exact h
  | brk addr => exact h.brk bound sys addr
  | mapFile addr fixed file first count prot cow => exact h.mapFrames bound sys addr fixed _ prot cow
  | mapPhys length phys prot => exact h.mapPhys sys length phys prot
  | breakCow va => exact h
  | read va => exact h
  | write va b => exact h

end Based

/-- Every process is fit for `find_free`. -/
def AllBased (k : Kernel) : Prop := ∀ n p, k.procs n = some p → Based p

theorem AllBased.update {k : Kernel} (h : AllBased k) (n : Nat) {q : Option Proc}
    (hq : ∀ p, q = some p → Based p) (sys : Sys) (files : Nat → List Nat) (next : Nat) :
    AllBased ⟨sys, Function.update k.procs n q, files, next⟩ := by
  intro m p hm
  have hm : Function.update k.procs n q m = some p := hm
  by_cases hmn : m = n
  · rw [hmn, Function.update_self] at hm
    exact hq p hm
  · rw [Function.update_of_ne hmn] at hm
    exact h m p hm

theorem based_reset (p : Proc) (brkStart : Nat) : Based (p.reset brkStart) :=
  ⟨InOrder.nil, fun _ _ => rfl, show PAGE64_SIZE ∣ USPACE64_MMAP_BASE by decide,
    show 0 < USPACE64_MMAP_BASE by decide⟩

theorem AllBased.step (bound : Option Nat) (k : Kernel) (op : Op) (h : AllBased k)
    (hop : Unwrapped k op) : AllBased ((memory bound).step k op).1 := by
  refine memory_step bound h op ?_ ?_ ?_ ?_ ?_ ?_
  · intro brkStart _
    unfold Kernel.spawn
    simp only
    split
    · exact h
    · exact h.update _ (fun q hq => by cases hq; exact based_reset _ _) _ _ _
  · intro n p _ hp
    have hbased := h n p hp
    unfold Kernel.fork
    simp only
    split
    · exact h
    · split
      · exact h
      · exact h.update _ (fun q hq => by cases hq; exact hbased.congr rfl rfl) _ _ _
  · exact fun n p _ _ => h.update n (fun q hq => by cases hq) _ _ _
  · intro n c p hop' hp
    subst hop'
    have hc := (h n p hp).run bound k.files k.sys c (hop p hp)
    exact h.update n (fun q hq => by cases hq; exact hc) _ _ _
  · intro file need _
    unfold Kernel.frames
    split <;> exact h
  · exact fun file _ => h

/-- In every state of a run from boot whose calls keep within 64 bits, each
process's reservation list is an interval map. -/
theorem resv_intervalMap (sys : Sys) (ops : List Op)
    (h : (memory (some PROC64_RESV_MAX)).Guarded Unwrapped (Kernel.boot sys) ops) :
    ∀ n p, ((memory (some PROC64_RESV_MAX)).run (Kernel.boot sys) ops).procs n = some p →
      IntervalMap p.resv := by
  have hrun := (memory (some PROC64_RESV_MAX)).invariant_of_step
    (AllBased.step (some PROC64_RESV_MAX)) ops (Kernel.boot sys) (fun n p hp => by cases hp) h
  exact fun n p hp => intervalMap_of_inOrder (hrun n p hp).inOrder

/-- A hole is cut into a reservation, and the process forks. -/
theorem resv_intervalMap_carved :
    ∃ p, ((memory (some PROC64_RESV_MAX)).run (Kernel.boot plainSys)
      [.spawn 0x400000, .call 1 (.mmap 0x10000000 0x10000 0 0x30),
        .call 1 (.munmap 0x10004000 0x4000), .fork 1]).procs 1 = some p ∧ IntervalMap p.resv := by
  obtain ⟨p, hp⟩ := Option.isSome_iff_exists.mp (show (((memory (some PROC64_RESV_MAX)).run
    (Kernel.boot plainSys) [.spawn 0x400000, .call 1 (.mmap 0x10000000 0x10000 0 0x30),
      .call 1 (.munmap 0x10004000 0x4000), .fork 1]).procs 1).isSome = true by decide)
  exact ⟨p, hp, resv_intervalMap plainSys [.spawn 0x400000, .call 1 (.mmap 0x10000000 0x10000 0 0x30),
      .call 1 (.munmap 0x10004000 0x4000), .fork 1]
    ⟨trivial, fun _ _ _ _ => by decide, fun _ _ => Or.inl (by decide), trivial, trivial⟩ 1 p hp⟩

/-- A length of 2^64 - 1 rounds up to 0 and leaves an empty region; a
`munmap` whose end wraps leaves two regions on the same addresses. -/
theorem resv_not_intervalMap :
    (¬ ∀ n p, ((memory (some PROC64_RESV_MAX)).run (Kernel.boot plainSys)
      [.spawn 0x400000, .call 1 (.mmap 0x10000000 0xFFFFFFFFFFFFFFFF 0 0x30)]).procs n = some p →
        IntervalMap p.resv) ∧
    ¬ ∀ n p, ((memory (some PROC64_RESV_MAX)).run (Kernel.boot plainSys)
      [.spawn 0x400000, .call 1 (.mmap 0x10000000 0x10000 0 0x30),
        .call 1 (.munmap 0x10008000 0xFFFFFFFFFFFFC000)]).procs n = some p →
        IntervalMap p.resv := by
  have hempty : (((memory (some PROC64_RESV_MAX)).run (Kernel.boot plainSys)
      [.spawn 0x400000, .call 1 (.mmap 0x10000000 0xFFFFFFFFFFFFFFFF 0 0x30)]).procs 1).map
        (fun p => p.resv) = some [⟨0x10000000, 0x10000000, 0⟩] := by decide
  have hover : (((memory (some PROC64_RESV_MAX)).run (Kernel.boot plainSys)
      [.spawn 0x400000, .call 1 (.mmap 0x10000000 0x10000 0 0x30),
        .call 1 (.munmap 0x10008000 0xFFFFFFFFFFFFC000)]).procs 1).map (fun p => p.resv) =
        some [⟨0x10000000, 0x10008000, 0⟩, ⟨0x10004000, 0x10010000, 0⟩] := by decide
  constructor
  · intro h
    obtain ⟨p, hp, hr⟩ := Option.map_eq_some_iff.mp hempty
    have := (h 1 p hp).inOrder.proper ⟨0x10000000, 0x10000000, 0⟩ (by rw [hr]; simp)
    exact absurd this (by decide)
  · intro h
    obtain ⟨p, hp, hr⟩ := Option.map_eq_some_iff.mp hover
    have hord := (h 1 p hp).inOrder
    rw [hr] at hord
    have := (inOrder_cons.mp hord).2.1 ⟨0x10004000, 0x10010000, 0⟩ (by simp)
    exact absurd this (by decide)

/-- In every state of a run from boot whose calls keep within 64 bits,
`find_free` finds the first free range of any length for every process. -/
theorem find_free_finds (sys : Sys) (ops : List Op)
    (h : (memory (some PROC64_RESV_MAX)).Guarded Unwrapped (Kernel.boot sys) ops) :
    ∀ n p, ((memory (some PROC64_RESV_MAX)).run (Kernel.boot sys) ops).procs n = some p →
      ∀ length, 0 < length → PAGE64_SIZE ∣ length →
        FindsFree ((memory (some PROC64_RESV_MAX)).run (Kernel.boot sys) ops).sys p length := by
  have hrun := (memory (some PROC64_RESV_MAX)).invariant_of_step
    (AllBased.step (some PROC64_RESV_MAX)) ops (Kernel.boot sys) (fun n p hp => by cases hp) h
  exact fun n p hp length hlength _ => findFree_spec _ (hrun n p hp) hlength

/-- A process with a reservation of its own and a page beside it. -/
theorem find_free_finds_carved :
    ∃ p, ((memory (some PROC64_RESV_MAX)).run (Kernel.boot plainSys)
      [.spawn 0x400000, .call 1 (.mmap 0 0x3000 0 0x20), .call 1 (.mmap 0 0x1000 3 0x20),
        .call 1 (.write 0x100000003000 1)]).procs 1 = some p ∧
      FindsFree ((memory (some PROC64_RESV_MAX)).run (Kernel.boot plainSys)
        [.spawn 0x400000, .call 1 (.mmap 0 0x3000 0 0x20), .call 1 (.mmap 0 0x1000 3 0x20),
          .call 1 (.write 0x100000003000 1)]).sys p 0x2000 := by
  obtain ⟨p, hp⟩ := Option.isSome_iff_exists.mp (show (((memory (some PROC64_RESV_MAX)).run
    (Kernel.boot plainSys) [.spawn 0x400000, .call 1 (.mmap 0 0x3000 0 0x20),
      .call 1 (.mmap 0 0x1000 3 0x20), .call 1 (.write 0x100000003000 1)]).procs 1).isSome = true by
    decide)
  exact ⟨p, hp, find_free_finds plainSys [.spawn 0x400000, .call 1 (.mmap 0 0x3000 0 0x20),
    .call 1 (.mmap 0 0x1000 3 0x20), .call 1 (.write 0x100000003000 1)]
    ⟨trivial, fun _ _ _ _ => by decide, fun _ _ _ _ => by decide, fun _ _ => trivial, trivial⟩ 1 p hp
    0x2000 (by decide) (by decide)⟩

/-- The calls that leave an empty region close to the limit: the length of the
second rounds up to 0. -/
def emptyRegion : List Op :=
  [.spawn 0x400000, .call 1 (.mmap 0 0x6FFFFFFFD000 0 0x20),
    .call 1 (.mmap 0x7FFFFFFFE000 0xFFFFFFFFFFFFFFFF 0 0x30)]

set_option maxRecDepth 20000

/-- Behind them the last free range is not found. -/
theorem find_free_misses :
    ¬ ∀ n p, ((memory (some PROC64_RESV_MAX)).run (Kernel.boot plainSys) emptyRegion).procs n = some p →
      ∀ length, 0 < length → PAGE64_SIZE ∣ length →
        FindsFree ((memory (some PROC64_RESV_MAX)).run (Kernel.boot plainSys) emptyRegion).sys p
          length := by
  set k := (memory (some PROC64_RESV_MAX)).run (Kernel.boot plainSys) emptyRegion with hk
  intro h
  have hresv : (k.procs 1).map (fun p => (p.resv, p.mmapNext)) =
      some ([⟨0x100000000000, 0x7FFFFFFFD000, 0⟩, ⟨0x7FFFFFFFE000, 0x7FFFFFFFE000, 0⟩],
        0x7FFFFFFFD000) := by
    rw [hk]
    decide +kernel
  have hnone : (k.procs 1).map (fun p => findFree k.sys p 0x3000) = some 0 := by
    rw [hk]
    decide
  have hpages : (k.procs 1).map (fun p => [0x7FFFFFFFD, 0x7FFFFFFFE, 0x7FFFFFFFF].map
      fun v => (pagingTranslate k.sys p.space v).isSome) = some [false, false, false] := by
    rw [hk]
    decide
  clear_value k
  obtain ⟨p, hp, hfields⟩ := Option.map_eq_some_iff.mp hresv
  rw [hp, Option.map_some, Option.some_inj] at hnone hpages
  simp only [List.map_cons, List.map_nil, List.cons.injEq, and_true] at hpages
  simp only [Prod.mk.injEq] at hfields
  refine (h 1 p hp 0x3000 (by decide) (by decide)).none hnone 0x7FFFFFFFD000 (by decide)
    (Nat.le_of_eq hfields.2) (by decide) fun a hlo hhi => ⟨?_, ?_⟩
  · rw [hfields.1, flagsAt_cons, flagsAt_cons, if_neg (by simp only; omega), if_neg (by simp only; omega)]
    rfl
  · have hpage : pageOf a = 0x7FFFFFFFD ∨ pageOf a = 0x7FFFFFFFE ∨ pageOf a = 0x7FFFFFFFF := by
      simp only [pageOf, PAGE64_SIZE]
      omega
    rw [Sys.Mapped]
    rcases hpage with hpage | hpage | hpage <;> simp [hpage, hpages]

end NovarisOS.Uspace64
