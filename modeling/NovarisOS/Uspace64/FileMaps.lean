/-
NovarisOS.Uspace64.FileMaps — `map_frames` as moves of frames.

The frames of a file are mapped one after another, each with a reference of
its own. Where that is so depends on two things the function does not look
at: that the reference was given (`Granted` in `Forks` for the clone; here
`Referable`), and that a page it displaces is not the zero page
(`NoZeroPage`).
-/
import NovarisOS.Uspace64.CallMoves

namespace NovarisOS.Uspace64

open Pmm64 (Pmm wrap)
open Vmspace64 (Pte tableKey)

variable {files : Nat → List Nat} {base : Nat → Nat} {hand : List Nat} {sys : Sys} {s : Nat}

/-! ## The walk misses nothing -/

/-- How many pages an absent entry of each level stands for. -/
def SkipPages (m : Nat) : Prop := m = 1 ∨ m = 512 ∨ m = 0x40000 ∨ m = 0x8000000

variable {v stop va v₀ f i n start : Nat}

theorem PageTree.Wf.look_skip {t : PageTree} (h : t.Wf) {skip : Nat}
    (hl : t.look v = .absent skip) :
    ∃ m, SkipPages m ∧ skip = m * PAGE64_SIZE ∧ ∀ v', v' / m = v / m → t.pages.get v' = none := by
  have hclosed : ∀ lvl < 3, t.tables.get (tableKey lvl v) = none → ∀ v',
      v' / 512 ^ (3 - lvl) = v / 512 ^ (3 - lvl) → t.pages.get v' = none := by
    intro lvl hlvl hnone v' hv'
    cases hget : t.pages.get v' with
    | none => rfl
    | some e =>
      have hkey : tableKey lvl v' = tableKey lvl v := by rw [tableKey, tableKey, hv']
      exact absurd (hkey ▸ hnone) (h.rooted v' e hget lvl hlvl)
  unfold look at hl
  cases h0 : t.tables.get (tableKey 0 v) with
  | none =>
    rw [h0] at hl
    cases hl
    exact ⟨0x8000000, by simp [SkipPages], rfl, hclosed 0 (by omega) h0⟩
  | some l0 =>
    simp only [h0, h.plain] at hl
    cases h1 : t.tables.get (tableKey 1 v) with
    | none =>
      rw [h1] at hl
      cases hl
      exact ⟨0x40000, by simp [SkipPages], rfl, hclosed 1 (by omega) h1⟩
    | some l1 =>
      simp only [h1] at hl
      cases h2 : t.tables.get (tableKey 2 v) with
      | none =>
        rw [h2] at hl
        cases hl
        exact ⟨512, by simp [SkipPages], rfl, hclosed 2 (by omega) h2⟩
      | some l2 =>
        simp only [h2] at hl
        cases hv : t.pages.get v with
        | none =>
          rw [hv] at hl
          cases hl
          refine ⟨1, by simp [SkipPages], rfl, fun v' hv' => ?_⟩
          rw [Nat.div_one, Nat.div_one] at hv'
          rw [hv', hv]
        | some e =>
          rw [hv] at hl
          cases hl

theorem Sys.look_skip (h : sys.Trees) {skip : Nat} (hv : v < LOW_PAGES)
    (hl : sys.look s v = .absent skip) :
    ∃ m, SkipPages m ∧ skip = m * PAGE64_SIZE ∧ ∀ v', v' / m = v / m → sys.entry s v' = none := by
  rw [Sys.look, Sys.tree_low hv] at hl
  cases hs : sys.spaces s with
  | none =>
    rw [hs] at hl
    obtain ⟨m, hm, hskip, -⟩ := PageTree.empty_wf.look_skip hl
    exact ⟨m, hm, hskip, fun v' _ => by simp [Sys.entry, hs]⟩
  | some t =>
    rw [hs] at hl
    obtain ⟨m, hm, hskip, hnone⟩ := (h s t hs).look_skip hl
    exact ⟨m, hm, hskip, fun v' hv' => by rw [Sys.entry_of_space hs, hnone v' hv']⟩

/-- A walk that comes to the end of a range below the limit has found
nothing on the way. -/
theorem nextMappedLoop_none (h : sys.Trees) (hstop : stop ≤ USPACE64_LIMIT) :
    ∀ (n va : Nat), va % PAGE64_SIZE = 0 → stop ≤ va + n * PAGE64_SIZE →
      stop ≤ nextMappedLoop sys s stop n va →
      ∀ a, va ≤ a → a < stop → sys.entry s (pageOf a) = none := by
  intro n
  induction n with
  | zero =>
    intro va _ hfuel _ a hva ha
    omega
  | succ n ih =>
    intro va halign hfuel hend a hva ha
    rw [nextMappedLoop] at hend
    have hlt : va < stop := by omega
    rw [if_pos hlt] at hend
    have hlow := pageOf_low (Nat.lt_of_lt_of_le hlt hstop)
    have hpage : ∀ {b : Nat}, b < stop → pageOf b = b / PAGE64_SIZE := by
      intro b hb
      simp only [pageOf, PAGE64_SIZE, USPACE64_LIMIT] at *
      omega
    cases hlook : sys.look s (pageOf va) with
    | huge f =>
      rw [hlook] at hend
      exact absurd hend (by simp only; omega)
    | page e =>
      rw [hlook] at hend
      exact absurd hend (by simp only; omega)
    | absent skip =>
      rw [hlook] at hend
      obtain ⟨m, hm, hskip, hnone⟩ := Sys.look_skip h hlow hlook
      subst hskip
      by_cases hin : a < va / (m * PAGE64_SIZE) * (m * PAGE64_SIZE) + m * PAGE64_SIZE
      · refine hnone _ ?_
        rw [hpage ha, hpage hlt]
        rcases hm with rfl | rfl | rfl | rfl <;> simp only [PAGE64_SIZE] at * <;> omega
      · have hnext : wrap (va / (m * PAGE64_SIZE) * (m * PAGE64_SIZE) + m * PAGE64_SIZE) =
            va / (m * PAGE64_SIZE) * (m * PAGE64_SIZE) + m * PAGE64_SIZE := by
          simp only [wrap, USPACE64_LIMIT] at *
          omega
        refine ih _ ?_ ?_ hend a (by omega) ha
        · rcases hm with rfl | rfl | rfl | rfl <;> simp only [PAGE64_SIZE] at * <;> omega
        · rcases hm with rfl | rfl | rfl | rfl <;> simp only [PAGE64_SIZE] at * <;> omega

theorem nextMapped_none (h : sys.Trees) (hstop : stop ≤ USPACE64_LIMIT)
    (hend : stop ≤ nextMapped sys s va stop) {a : Nat} (hva : pageDown va ≤ a) (ha : a < stop) :
    sys.entry s (pageOf a) = none := by
  refine nextMappedLoop_none h hstop _ _ ?_ ?_ hend a hva ha
  · simp [pageDown]
  · simp only [walkSteps, PAGE64_SIZE]
    omega

variable {p : Proc}

theorem findFreeLoop_free (h : sys.Trees) {length : Nat} (n at' : Nat) (hne : findFreeLoop sys p length n at' ≠ 0)
    (a : Nat) (hlo : pageDown (findFreeLoop sys p length n at') ≤ a)
    (hhi : a < findFreeLoop sys p length n at' + length) : sys.entry p.space (pageOf a) = none := by
  obtain ⟨hfits, hmapped⟩ := findFreeLoop_found n at' hne
  exact nextMapped_none h (fitsInUserHalf_iff.mp hfits).2 (Nat.not_lt.mp hmapped) hlo hhi

/-! ## Spilling beside a range -/

/-- What happens in the space `s` from page `v₀` on only, and to frames that
had no owner. -/
structure Aside (s v₀ : Nat) (sys sys' : Sys) : Prop where
  entry : ∀ s' v, ¬ (s' = s ∧ v₀ ≤ v) → sys'.entry s' v = sys.entry s' v
  owners : ∀ f, 0 < sys.pmm.frameOwners f → sys'.pmm.frameOwners f = sys.pmm.frameOwners f
  zero : ∀ f, 0 < sys.pmm.frameOwners f → f ≠ sys.zero → f ≠ sys'.zero

namespace Aside

variable {v₀ : Nat} {sys' sys'' : Sys}

theorem refl (sys : Sys) : Aside s v₀ sys sys := ⟨fun _ _ _ => rfl, fun _ _ => rfl, fun _ _ h => h⟩

theorem trans (h : Aside s v₀ sys sys') (h' : Aside s v₀ sys' sys'') : Aside s v₀ sys sys'' where
  entry s' v hv := (h'.entry s' v hv).trans (h.entry s' v hv)
  owners f hf := by
    have hsame := h.owners f hf
    rw [h'.owners f (by omega), hsame]
  zero f hf hz := h'.zero f (by rw [h.owners f hf]; exact hf) (h.zero f hf hz)

theorem of_calm (h : Calm sys sys') : Aside s v₀ sys sys' :=
  ⟨fun s' v _ => h.entry s' v, h.owners, fun f _ hz => by rwa [h.zero]⟩

theorem setPte {v : Nat} {t : PageTree} (hv : v < LOW_PAGES) (hs : sys.spaces s = some t)
    (hle : v₀ ≤ v) (e : Pte) : Aside s v₀ sys (sys.setPte s v e) := by
  obtain ⟨hpmm, -, hzero, -⟩ := Sys.setPte_fields sys s v e
  refine ⟨fun s' v' hne => ?_, fun f _ => by rw [hpmm], fun f _ hz => by rwa [hzero]⟩
  rw [Sys.entry_setPte hv hs, if_neg]
  rintro ⟨rfl, rfl⟩
  exact hne ⟨rfl, hle⟩

end Aside

theorem pagingMap_aside (h : sys.Sound) (hv : v < LOW_PAGES) (hs : sys.spaces s ≠ none)
    (hle : v₀ ≤ v) (frame flags : Nat) : Aside s v₀ sys (pagingMap sys s v frame flags).2 := by
  obtain ⟨sys₁, hroom, hres⟩ := pagingMap_room (fun _ => []) h hv hs frame flags
  rw [hres]
  split
  · rename_i hok
    obtain ⟨t, ht, -⟩ := hroom.space hok
    exact (Aside.of_calm hroom.calm).trans (.setPte hv ht hle _)
  · exact .of_calm hroom.calm

theorem backPage_aside (h : sys.Sound) (hv : pageOf va < LOW_PAGES)
    (hs : sys.spaces s ≠ none) (hle : v₀ ≤ pageOf va) (flags : Nat) :
    Aside s v₀ sys (backPage sys s va flags).2 := by
  have htook := Sys.allocUser_took h.wf
  unfold backPage
  rcases ha : sys.allocUser with ⟨frame, sys₁⟩
  rw [ha] at htook
  simp only at htook ⊢
  have hcalm := Calm.took htook h.ground
  split
  · exact .of_calm hcalm
  · rename_i h0
    have hfree := (htook.pmm.fresh h0).2.1
    have hsound : (sys₁.zeroFrame frame).Sound :=
      ⟨(h.took htook).wf, (h.took htook).ground, (h.took htook).trees⟩
    have hs₁ : (sys₁.zeroFrame frame).spaces s ≠ none := by
      show sys₁.spaces s ≠ none
      rw [htook.spaces]
      exact hs
    have hwritten : Aside s v₀ sys (sys₁.zeroFrame frame) :=
      ⟨fun s' v _ => hcalm.entry s' v, hcalm.owners, fun f _ hz => by
        show f ≠ sys₁.zero
        rwa [hcalm.zero]⟩
    have hmap := hwritten.trans (pagingMap_aside hsound hv hs₁ hle frame flags)
    rcases hm : pagingMap (sys₁.zeroFrame frame) s (pageOf va) frame flags with ⟨ok, sys₃⟩
    rw [hm] at hmap
    cases ok with
    | true => exact hmap
    | false =>
      refine ⟨hmap.entry, fun f hf => ?_, hmap.zero⟩
      show (sys₃.pmm.freeFrame frame).frameOwners f = _
      rw [Pmm.frameOwners_freeFrame, Function.update_of_ne, hmap.owners f hf]
      rintro rfl
      omega

theorem getZeroFrame_aside (h : sys.Sound) : Aside s v₀ sys (getZeroFrame sys).2 := by
  unfold getZeroFrame
  split
  · exact .refl sys
  · have htook := Sys.allocFrame_took h.wf
    rcases ha : sys.allocFrame with ⟨f, sys₁⟩
    rw [ha] at htook
    simp only at htook ⊢
    have hcalm := Calm.took htook h.ground
    split
    · exact .of_calm hcalm
    · rename_i hf
      refine ⟨fun s' v _ => hcalm.entry s' v, hcalm.owners, fun g hg _ => ?_⟩
      -- the new zero frame had no owner
      have hfree := (htook.pmm.fresh hf).2.1
      show g ≠ f
      rintro rfl
      omega

/-- What is spilled of a region is spilled onto its own pages. -/
theorem spillRange_aside {x : Resv} (h : Ledger files base hand sys)
    (hs : sys.spaces s ≠ none) (hstop : x.stop ≤ USPACE64_LIMIT) (hle : v₀ * PAGE64_SIZE ≤ x.start) :
    Aside s v₀ sys (spillRange sys s x).2 := by
  have hpage : ∀ {va : Nat}, x.start ≤ va → va < x.stop → v₀ ≤ pageOf va := by
    intro va hlo hhi
    simp only [pageOf, PAGE64_SIZE, USPACE64_LIMIT] at *
    omega
  -- a loop over the pages of the region keeps off the others
  have hloop : ∀ (body : Sys → Nat → Bool × Sys) (I : Sys → Prop),
      (∀ sys va, Ledger files base hand sys → sys.spaces s ≠ none → I sys → x.start ≤ va →
        va < x.stop → Going files (hand, sys) (hand, (body sys va).2) ∧
          Aside s v₀ sys (body sys va).2 ∧ I (body sys va).2) →
      ∀ sys', Ledger files base hand sys' → sys'.spaces s ≠ none → I sys' → Aside s v₀ sys sys' →
        Aside s v₀ sys (forPages body (pageSteps x.start x.stop) sys' x.start).2 := by
    intro body I hbody
    have hgen : ∀ (n va : Nat) (sys' : Sys), x.start ≤ va → (∀ i < n, va + i * PAGE64_SIZE < x.stop) →
        Ledger files base hand sys' → sys'.spaces s ≠ none → I sys' → Aside s v₀ sys sys' →
        Aside s v₀ sys (forPages body n sys' va).2 := by
      intro n
      induction n with
      | zero => intro va sys' _ _ _ _ _ ha; exact ha
      | succ n ih =>
        intro va sys' hlo hrange hled hsp hI ha
        obtain ⟨hgo, haside, hI'⟩ := hbody sys' va hled hsp hI hlo (by simpa using hrange 0 (by omega))
        rw [forPages]
        rcases hb : body sys' va with ⟨ok, sys''⟩
        rw [hb] at hgo haside hI'
        cases ok with
        | false => exact ha.trans haside
        | true =>
          refine ih _ _ (by omega) (fun i hi => ?_) (hled.moves hgo)
            (fun hnone => hsp (((hled.steady hgo).here s).mp hnone)) hI' (ha.trans haside)
          have := hrange (i + 1) (by omega)
          rw [Nat.add_mul, Nat.one_mul] at this
          omega
    exact fun sys' => hgen _ _ sys' (Nat.le_refl _) fun i hi => pageSteps_lt hi
  unfold spillRange
  split
  · unfold spillToZeroPage
    obtain ⟨hgo, hzero⟩ := getZeroFrame_going h
    have haside : Aside s v₀ sys (getZeroFrame sys).2 := getZeroFrame_aside h.sound
    rcases hz : getZeroFrame sys with ⟨z, sys₁⟩
    rw [hz] at hgo hzero haside
    simp only at hgo hzero haside ⊢
    split
    · exact haside
    · rename_i h0
      refine hloop _ (fun sys => sys.zero = z) ?_ sys₁ (h.moves hgo)
        (fun hnone => hs (((h.steady hgo).here s).mp hnone)) (hzero h0).symm haside
      intro sys va h hs hI hlo hhi
      have hv := pageOf_low (Nat.lt_of_lt_of_le hhi hstop)
      rw [Sys.translate_eq h.sound.trees hv]
      cases he : sys.entry s (pageOf va) with
      | some e => exact ⟨.refl, .refl sys, hI⟩
      | none =>
        have hne : sys.zero ≠ 0 := by rwa [hI]
        have hmap := pagingMap_zero h (PAGE64_PRESENT ||| PAGE64_USER) hv hs he hne (by decide)
          (by decide)
        rw [hI] at hmap
        exact ⟨hmap, pagingMap_aside h.sound hv hs (hpage hlo hhi) _ _,
          (hmap.zero_keep hne).trans hI⟩
  · refine hloop _ (fun _ => True) ?_ sys h hs trivial (.refl sys)
    intro sys va h hs _ hlo hhi
    have hv := pageOf_low (Nat.lt_of_lt_of_le hhi hstop)
    rw [Sys.translate_eq h.sound.trees hv]
    cases he : sys.entry s (pageOf va) with
    | some e => exact ⟨.refl, .refl sys, trivial⟩
    | none =>
      exact ⟨backPage_going h hv hs he _, backPage_aside h.sound hv hs (hpage hlo hhi) _, trivial⟩

theorem dropResv_aside (bound : Option Nat) (h : Ledger files base hand sys)
    (hs : sys.spaces p.space ≠ none) (hb : Below p.resv) (start : Nat)
    (hle : v₀ * PAGE64_SIZE ≤ stop) :
    Aside p.space v₀ sys (dropResv bound sys p start stop).1 := by
  obtain ⟨-, hspill⟩ := resvRemove_below bound hb start stop
  unfold dropResv
  rcases hr : resvRemove bound p.resv start stop with ⟨r, - | x⟩
  · exact .refl sys
  · rw [hr] at hspill
    obtain ⟨hstop, hstart⟩ := hspill x rfl
    exact spillRange_aside h hs hstop (by rw [hstart]; exact hle)

/-! ## Displacing what is in the way -/

/-- The pages of `n` frames mapped from `start` on. -/
def pagesFrom (start n : Nat) : List Nat := (List.range n).map fun i => pageOf (start + i * PAGE64_SIZE)

/-- None of the pages is the zero page. -/
def NoZeroPage (sys : Sys) (s : Nat) (vs : List Nat) : Prop :=
  ∀ v ∈ vs, ∀ e, sys.entry s v = some e → e.frame ≠ sys.zero

/-- How many of the pages have the frame `f`. -/
def mappedOn (sys : Sys) (s : Nat) (vs : List Nat) (f : Nat) : Nat :=
  vs.countP fun v => (sys.entry s v).map Pte.frame = some f

/-- What is left when pages have been displaced. -/
structure Displaced (s : Nat) (vs : List Nat) (sys sys' : Sys) : Prop where
  entry : ∀ s' v, sys'.entry s' v = if s' = s ∧ v ∈ vs then none else sys.entry s' v
  zero : sys'.zero = sys.zero
  owners : ∀ f, sys'.pmm.frameOwners f + mappedOn sys s vs f = sys.pmm.frameOwners f

theorem displacePage_going (h : Ledger files base hand sys) (hv : pageOf va < LOW_PAGES)
    (hz : NoZeroPage sys s [pageOf va]) :
    Going files (hand, sys) (hand, displacePage s sys va) ∧
      Displaced s [pageOf va] sys (displacePage s sys va) := by
  unfold displacePage
  rw [Sys.translate_eq h.sound.trees hv]
  cases he : sys.entry s (pageOf va) with
  | none =>
    refine ⟨.refl, fun s' v => ?_, rfl, fun f => by simp [mappedOn, he]⟩
    by_cases hp : s' = s ∧ v ∈ [pageOf va]
    · rw [if_pos hp, hp.1, List.mem_singleton.mp hp.2]
      exact he
    · rw [if_neg hp]
      rfl
  | some e =>
    obtain ⟨t, ht, hget⟩ := Sys.space_of_entry he
    have hne := hz _ (List.mem_singleton_self _) e he
    have hunmap : pagingUnmap sys s (pageOf va) = sys.clearPte s (pageOf va) := by
      rw [Sys.unmap_low h.sound.trees hv, he]
      rfl
    have hclear := Sys.clearPte_low hv ht
    have hgive := unmap_give h he
    have hzero : (pagingUnmap sys s (pageOf va)).zero = sys.zero := by rw [hunmap, hclear]; rfl
    rw [Sys.isZero, hzero, if_neg (by simpa using hne)] at hgive
    refine ⟨hgive, fun s' v => ?_, hzero, fun f => ?_⟩
    · show (pagingUnmap sys s (pageOf va)).entry s' v = _
      rw [hunmap, Sys.entry_clearPte hv ht]
      simp
    · have hpmm : (pagingUnmap sys s (pageOf va)).pmm = sys.pmm := by rw [hunmap, hclear]; rfl
      show ((pagingUnmap sys s (pageOf va)).pmm.freeFrame e.frame).frameOwners f + _ = _
      rw [hpmm, Pmm.frameOwners_freeFrame]
      have howned := h.owned (Ledger.held_entry files he hne)
      by_cases hf : f = e.frame
      · subst hf
        rw [Function.update_self]
        simp only [mappedOn, List.countP_singleton, he]
        simp
        omega
      · rw [Function.update_of_ne hf]
        simp [mappedOn, he, Ne.symm hf]

theorem displaceAll_going : ∀ (vas : List Nat) (sys : Sys), Ledger files base hand sys →
    (∀ va ∈ vas, pageOf va < LOW_PAGES) → (vas.map pageOf).Nodup →
    NoZeroPage sys s (vas.map pageOf) →
    Going files (hand, sys) (hand, vas.foldl (displacePage s) sys) ∧
      Displaced s (vas.map pageOf) sys (vas.foldl (displacePage s) sys) := by
  intro vas
  induction vas with
  | nil =>
    intro sys _ _ _ _
    exact ⟨.refl, fun s' v => by simp, rfl, fun f => by simp [mappedOn]⟩
  | cons va vas ih =>
    intro sys h hlow hnodup hz
    obtain ⟨hnot, hnodup⟩ := List.nodup_cons.mp hnodup
    obtain ⟨hgo, hone⟩ := displacePage_going h (hlow va (List.mem_cons_self ..))
      (fun v hv => hz v (by rw [List.mem_singleton.mp hv]; exact List.mem_cons_self ..))
    -- the pages still to come are as they were
    have hkept : ∀ v ∈ vas.map pageOf, (displacePage s sys va).entry s v = sys.entry s v := by
      intro v hv
      rw [hone.entry, if_neg]
      rintro ⟨-, hmem⟩
      exact hnot (List.mem_singleton.mp hmem ▸ hv)
    have hz' : NoZeroPage (displacePage s sys va) s (vas.map pageOf) := by
      intro v hv e he
      rw [hkept v hv] at he
      rw [hone.zero]
      exact hz v (List.mem_cons_of_mem _ hv) e he
    obtain ⟨hgo', hrest⟩ := ih (displacePage s sys va) (h.moves hgo)
      (fun v hv => hlow v (List.mem_cons_of_mem _ hv)) hnodup hz'
    refine ⟨hgo.trans hgo', fun s' v => ?_, hrest.zero.trans hone.zero, fun f => ?_⟩
    · rw [List.foldl_cons, hrest.entry, hone.entry, List.map_cons]
      by_cases hs : s' = s
      · by_cases hv : v ∈ vas.map pageOf
        · rw [if_pos ⟨hs, hv⟩, if_pos ⟨hs, List.mem_cons_of_mem _ hv⟩]
        · rw [if_neg (fun hp => hv hp.2)]
          simp [hv]
      · rw [if_neg (fun hp => hs hp.1), if_neg (fun hp => hs hp.1), if_neg (fun hp => hs hp.1)]
    · have hcount : mappedOn (displacePage s sys va) s (vas.map pageOf) f =
          mappedOn sys s (vas.map pageOf) f := by
        refine List.countP_congr fun v hv => ?_
        rw [hkept v hv]
      have h1 := hone.owners f
      have h2 := hrest.owners f
      have hsplit : mappedOn sys s (pageOf va :: vas.map pageOf) f =
          mappedOn sys s [pageOf va] f + mappedOn sys s (vas.map pageOf) f := by
        simp only [mappedOn]
        rw [← List.countP_append]
        rfl
      rw [List.foldl_cons, List.map_cons, hsplit]
      omega

/-! ## Mapping the frames -/

/-- The frames a file gave the caller: nobody else's, each of them once, and
each with room for an owner more. -/
structure Referable (files : Nat → List Nat) (sys : Sys) (fs : List Nat) : Prop where
  nodup : fs.Nodup
  file : ∀ f ∈ fs, ∃ i, f ∈ files i
  room : ∀ f ∈ fs, sys.pmm.frameOwners f ≤ Pmm64.REF_MAX

theorem file_held (sys : Sys) (hf : f ∈ files i) :
    ∃ j, sys.held everywhere files (.file i j) = some f := List.getElem?_of_mem hf

theorem Ledger.file_owned (h : Ledger files base hand sys) (hf : f ∈ files i) :
    0 < sys.pmm.frameOwners f := by
  obtain ⟨j, hj⟩ := file_held sys hf
  exact h.owned hj

theorem Ledger.file_ne_zero (h : Ledger files base hand sys) (hf : f ∈ files i) : f ≠ sys.zero := by
  obtain ⟨j, hheld⟩ := file_held sys hf
  rintro rfl
  by_cases h0 : sys.zero = 0
  · rw [h0] at hheld
    have howned := h.owned hheld
    obtain ⟨hready, hlt⟩ := Pmm.lt_of_owned howned
    have := h.books.ground hready hlt
    have := (h.memory _ _ hheld).2
    omega
  · have hzero : sys.held everywhere files .zero = some sys.zero := by
      simp [Sys.held, everywhere, h0]
    have hone := h.sole .zero _ trivial hzero
    exact absurd (h.books.tally.unique hone hheld hzero) (by simp)

/-- The pages from `start` on that have the frames `done`. -/
def MappedFrom (sys : Sys) (s start : Nat) (done : List Nat) : Prop :=
  ∀ i f, done[i]? = some f → ∃ e, sys.entry s (start / PAGE64_SIZE + i) = some e ∧ e.frame = f

theorem pageOf_from (hfit : start + n * PAGE64_SIZE ≤ USPACE64_LIMIT) (hi : i < n) :
    pageOf (start + i * PAGE64_SIZE) = start / PAGE64_SIZE + i ∧
      start / PAGE64_SIZE + i < LOW_PAGES := by
  simp only [pageOf, PAGE64_SIZE, USPACE64_LIMIT, LOW_PAGES] at *
  omega

theorem undoFrames_going : ∀ (fs : List Nat) (i : Nat) (sys : Sys),
    Ledger files base hand sys → start + (i + fs.length) * PAGE64_SIZE ≤ USPACE64_LIMIT →
    (∀ f ∈ fs, ∃ j, f ∈ files j) →
    (∀ j f, fs[j]? = some f → ∃ e, sys.entry s (start / PAGE64_SIZE + (i + j)) = some e ∧ e.frame = f) →
    Going files (hand, sys) (hand, undoFrames s start i fs sys) := by
  intro fs
  induction fs with
  | nil => intro i sys _ _ _ _; exact .refl
  | cons f fs ih =>
    intro i sys h hfit hfile hmap
    rw [undoFrames]
    obtain ⟨hpage, hlow⟩ := pageOf_from hfit (i := i) (by rw [List.length_cons]; omega)
    obtain ⟨e, he, hframe⟩ := hmap 0 f rfl
    rw [Nat.add_zero] at he
    obtain ⟨j, hj⟩ := hfile f (List.mem_cons_self ..)
    have hne : e.frame ≠ sys.zero := by
      rw [hframe]
      exact h.file_ne_zero hj
    obtain ⟨t, ht, hget⟩ := Sys.space_of_entry he
    have hunmap : pagingUnmap sys s (start / PAGE64_SIZE + i) =
        sys.clearPte s (start / PAGE64_SIZE + i) := by
      rw [Sys.unmap_low h.sound.trees hlow, he]
      rfl
    have hzero : (pagingUnmap sys s (start / PAGE64_SIZE + i)).zero = sys.zero := by
      rw [hunmap, Sys.clearPte_low hlow ht]
      rfl
    have hgive := unmap_give h he
    rw [Sys.isZero, hzero, if_neg (by simpa using hne), hframe] at hgive
    rw [hpage]
    refine hgive.trans (ih (i + 1) _ (h.moves hgive) ?_ (fun g hg => hfile g (List.mem_cons_of_mem _ hg))
      fun j g hg => ?_)
    · rw [List.length_cons] at hfit
      rw [show i + 1 + fs.length = i + (fs.length + 1) by omega]
      exact hfit
    · obtain ⟨e', he', hframe'⟩ := hmap (j + 1) g hg
      refine ⟨e', ?_, hframe'⟩
      show (pagingUnmap sys s (start / PAGE64_SIZE + i)).entry s _ = _
      rw [hunmap, Sys.entry_clearPte hlow ht, if_neg (by omega),
        show i + 1 + j = i + (j + 1) by omega]
      exact he'

theorem mapFrame_going {flags : Nat} {sys' : Sys} {pmm : Pmm} (h : Ledger files base hand sys)
    (hv : v < LOW_PAGES) (hs : sys.spaces s ≠ none) (he : sys.entry s v = none)
    (hfile : ∃ i, f ∈ files i) (hmap : pagingMap sys s v f flags = (true, sys'))
    (href : sys'.pmm.refFrame f = some pmm) :
    Going files (hand, sys) (hand, { sys' with pmm := pmm }) ∧
      (∀ s' v', ({ sys' with pmm := pmm } : Sys).entry s' v' =
        if s' = s ∧ v' = v then some (pteOf f flags) else sys.entry s' v') ∧
      ∀ g, g ≠ f → 0 < sys.pmm.frameOwners g → pmm.frameOwners g = sys.pmm.frameOwners g := by
  obtain ⟨sys₁, hroom, hres⟩ := pagingMap_room files h.sound hv hs f flags
  rw [hmap] at hroom hres
  simp only [if_true] at hres
  subst hres
  obtain ⟨t, ht, hopen⟩ := hroom.space rfl
  obtain ⟨hpmm, -, -, -⟩ := Sys.setPte_fields sys₁ s v (pteOf f flags)
  rw [hpmm] at href
  obtain ⟨i, hi⟩ := hfile
  have hled := h.moves (hroom.going hand)
  have hne := hled.file_ne_zero hi
  refine ⟨?_, fun s' v' => ?_, fun g hg hpos => ?_⟩
  · rw [← setPte_ref]
    refine ((hroom.going hand).tail (.refer href (Or.inr ⟨i, hi⟩))).tail
      (@Move.put _ _ _ _ _ _ t (pteOf f flags) rfl hv ht hopen ?_ hne)
    exact get_none_of_entry ht ((hroom.calm.entry s v).trans he)
  · show (sys₁.setPte s v (pteOf f flags)).entry s' v' = _
    rw [Sys.entry_setPte hv ht, hroom.calm.entry]
  · rw [(Pmm.refFrame_some hled.sound.wf href).2.1, Function.update_of_ne hg, hroom.calm.owners g hpos]

/-- The loop of `map_frames` over pages that are not there. -/
theorem mapFramesLoop_going (flags : Nat) : ∀ (fs done : List Nat) (sys : Sys),
    Ledger files base hand sys → sys.spaces s ≠ none →
    start + (done.length + fs.length) * PAGE64_SIZE ≤ USPACE64_LIMIT → Referable files sys fs →
    (∀ f ∈ done, ∃ i, f ∈ files i) → MappedFrom sys s start done →
    (∀ i < fs.length, sys.entry s (start / PAGE64_SIZE + (done.length + i)) = none) →
    Going files (hand, sys) (hand, (mapFramesLoop s start flags done fs sys).2) := by
  intro fs
  induction fs with
  | nil => intro done sys _ _ _ _ _ _ _; exact .refl
  | cons f fs ih =>
    intro done sys h hs hfit href hdone hmap hnone
    rw [List.length_cons] at hfit hnone
    obtain ⟨hpage, hlow⟩ := pageOf_from hfit (i := done.length) (by omega)
    have he : sys.entry s (start / PAGE64_SIZE + done.length) = none := hnone 0 (by omega)
    obtain ⟨i, hi⟩ := href.file f (List.mem_cons_self ..)
    rw [mapFramesLoop, hpage]
    rcases hm : pagingMap sys s (start / PAGE64_SIZE + done.length) f flags with ⟨ok, sys₁⟩
    obtain ⟨sys₂, hroom, hres⟩ := pagingMap_room files h.sound hlow hs f flags
    rw [hm] at hroom hres
    cases ok with
    | false =>
      subst hres
      show Going files (hand, sys) (hand, undoFrames s start 0 done sys₁)
      refine (hroom.going hand).trans (undoFrames_going done 0 sys₁ (h.moves (hroom.going hand)) ?_ hdone
        fun j g hg => ?_)
      · have hle : 0 + done.length ≤ done.length + (fs.length + 1) := by omega
        exact Nat.le_trans (Nat.add_le_add_left (Nat.mul_le_mul_right PAGE64_SIZE hle) start) hfit
      · rw [Nat.zero_add, hroom.calm.entry]
        exact hmap j g hg
    | true =>
      -- the reference is given: there is room for an owner more
      have howned : 0 < sys.pmm.frameOwners f := h.file_owned hi
      have hpmm : sys₁.pmm = sys₂.pmm := by
        simp only [if_true] at hres
        rw [hres, (Sys.setPte_fields ..).1]
      have hkept : sys₁.pmm.frameOwners f = sys.pmm.frameOwners f := by
        rw [hpmm]
        exact hroom.calm.owners f howned
      have hmax := href.room f (List.mem_cons_self ..)
      cases hr : sys₁.pmm.refFrame f with
      | none =>
        have hwf : sys₁.pmm.Wf := by
          rw [hpmm]
          exact (h.moves (hroom.going hand)).sound.wf
        rcases Pmm.refFrame_none hwf hr with hz | hfull <;> omega
      | some pmm =>
        obtain ⟨hgo, hentry, howners⟩ := mapFrame_going h hlow hs he ⟨i, hi⟩ hm hr
        obtain ⟨hnot, hnodup⟩ := List.nodup_cons.mp href.nodup
        simp only [hr]
        refine hgo.trans (ih (done ++ [f]) _ (h.moves hgo)
          (fun hn => hs (((h.steady hgo).here s).mp hn)) ?_ ⟨hnodup, ?_, ?_⟩ ?_ ?_ ?_)
        · rw [List.length_append, List.length_singleton]
          rw [show done.length + 1 + fs.length = done.length + (fs.length + 1) by omega]
          exact hfit
        · exact fun g hg => href.file g (List.mem_cons_of_mem _ hg)
        · intro g hg
          show pmm.frameOwners g ≤ _
          obtain ⟨j, hj⟩ := href.file g (List.mem_cons_of_mem _ hg)
          rw [howners g (ne_of_mem_of_not_mem hg hnot) (h.file_owned hj)]
          exact href.room g (List.mem_cons_of_mem _ hg)
        · intro g hg
          rcases List.mem_append.mp hg with hg | hg
          · exact hdone g hg
          · exact ⟨i, List.mem_singleton.mp hg ▸ hi⟩
        · intro j g hg
          rw [hentry]
          by_cases hj : j < done.length
          · rw [List.getElem?_append_left hj] at hg
            rw [if_neg (by omega)]
            exact hmap j g hg
          · rw [List.getElem?_append_right (by omega)] at hg
            have hj0 : j = done.length := by
              by_contra hne
              rw [List.getElem?_eq_none (by simp; omega)] at hg
              cases hg
            subst hj0
            rw [Nat.sub_self] at hg
            cases hg
            exact ⟨_, if_pos ⟨rfl, rfl⟩, rfl⟩
        · intro j hj
          rw [List.length_append, List.length_singleton, hentry, if_neg (by omega),
            show done.length + 1 + j = done.length + (j + 1) by omega]
          exact hnone (j + 1) (by omega)

/-! ## The call -/

/-- The pages a fixed mapping displaces. -/
def displacedPages (addr : Nat) (fixed : Bool) (n : Nat) : List Nat :=
  if fixed && fitsInUserHalf (pageDown addr) (n * PAGE64_SIZE) then pagesFrom (pageDown addr) n else []

/-- When `map_frames` keeps the count of owners right: no page it displaces
is the zero page, and once they are displaced no frame has all the owners it
can have. -/
structure FramesFit (sys : Sys) (p : Proc) (addr : Nat) (fixed : Bool) (fs : List Nat) : Prop where
  noZero : NoZeroPage sys p.space (displacedPages addr fixed fs.length)
  room : ∀ f ∈ fs, sys.pmm.frameOwners f ≤
    Pmm64.REF_MAX + mappedOn sys p.space (displacedPages addr fixed fs.length) f

theorem pagesFrom_eq (hfit : start + n * PAGE64_SIZE ≤ USPACE64_LIMIT) :
    pagesFrom start n = (List.range n).map fun i => start / PAGE64_SIZE + i :=
  List.map_congr_left fun _ hi => (pageOf_from hfit (List.mem_range.mp hi)).1

theorem nodup_pagesFrom (hfit : start + n * PAGE64_SIZE ≤ USPACE64_LIMIT) :
    (pagesFrom start n).Nodup := by
  rw [pagesFrom_eq hfit]
  exact List.nodup_range.map fun i j h => by simpa using h

theorem mem_pagesFrom (hfit : start + n * PAGE64_SIZE ≤ USPACE64_LIMIT) (hi : i < n) :
    start / PAGE64_SIZE + i ∈ pagesFrom start n := by
  rw [pagesFrom_eq hfit]
  exact List.mem_map.mpr ⟨i, List.mem_range.mpr hi, rfl⟩

theorem clearForFrames_called (bound : Option Nat) (h : Ledger files base hand sys)
    (hs : sys.spaces p.space ≠ none) (hb : Below p.resv)
    (hfit : start + n * PAGE64_SIZE ≤ USPACE64_LIMIT)
    (hz : NoZeroPage sys p.space (pagesFrom start n)) (halign : start % PAGE64_SIZE = 0) :
    Called files hand sys p (clearForFrames bound sys p start n).1 (clearForFrames bound sys p start n).2 ∧
      (∀ i < n, (clearForFrames bound sys p start n).1.entry p.space (start / PAGE64_SIZE + i) = none) ∧
      ∀ f, 0 < sys.pmm.frameOwners f →
        (clearForFrames bound sys p start n).1.pmm.frameOwners f + mappedOn sys p.space (pagesFrom start n) f =
          sys.pmm.frameOwners f := by
  have hwrap : wrap (n * PAGE64_SIZE) = n * PAGE64_SIZE := by
    simp only [wrap, USPACE64_LIMIT] at *
    omega
  unfold clearForFrames
  rw [hwrap]
  have hdrop := dropResv_called bound h hs hb start (start + n * PAGE64_SIZE)
  have haside : Aside p.space (start / PAGE64_SIZE + n) sys
      (dropResv bound sys p start (start + n * PAGE64_SIZE)).1 := by
    refine dropResv_aside bound h hs hb start ?_
    simp only [PAGE64_SIZE] at *
    omega
  rcases hd : dropResv bound sys p start (start + n * PAGE64_SIZE) with ⟨sys₁, p₁⟩
  rw [hd] at hdrop haside
  simp only at hdrop haside ⊢
  have hled := h.moves hdrop.going
  -- the pages of the range are as they were
  have hsame : ∀ v ∈ pagesFrom start n, sys₁.entry p.space v = sys.entry p.space v := by
    intro v hv
    rw [pagesFrom_eq hfit] at hv
    obtain ⟨i, hi, rfl⟩ := List.mem_map.mp hv
    refine haside.entry _ _ fun hp => ?_
    have := List.mem_range.mp hi
    omega
  have hz₁ : NoZeroPage sys₁ p.space (pagesFrom start n) := by
    intro v hv e he
    rw [hsame v hv] at he
    have hne := hz v hv e he
    exact haside.zero _ (h.owned (Ledger.held_entry files he hne)) hne
  have hmapped : ∀ f, mappedOn sys₁ p.space (pagesFrom start n) f =
      mappedOn sys p.space (pagesFrom start n) f := by
    intro f
    refine List.countP_congr fun v hv => ?_
    rw [hsame v hv]
  have hpages : ((List.range n).map fun i => start + i * PAGE64_SIZE).map pageOf = pagesFrom start n := by
    rw [List.map_map]
    rfl
  have hfold : (List.range n).foldl (fun sys i => displacePage p₁.space sys (start + i * PAGE64_SIZE)) sys₁ =
      ((List.range n).map fun i => start + i * PAGE64_SIZE).foldl (displacePage p.space) sys₁ := by
    rw [List.foldl_map, hdrop.space]
  obtain ⟨hgo, hdisp⟩ := displaceAll_going (s := p.space)
    ((List.range n).map fun i => start + i * PAGE64_SIZE) sys₁ hled (fun va hva => by
      obtain ⟨i, hi, rfl⟩ := List.mem_map.mp hva
      obtain ⟨hpage, hlow⟩ := pageOf_from hfit (List.mem_range.mp hi)
      rwa [hpage]) (by rw [hpages]; exact nodup_pagesFrom hfit) (by rw [hpages]; exact hz₁)
  rw [hpages] at hdisp
  rw [hfold]
  refine ⟨hdrop.going_after hgo, fun i hi => ?_, fun f hf => ?_⟩
  · rw [hdisp.entry, if_pos ⟨rfl, mem_pagesFrom hfit hi⟩]
  · have howners := hdisp.owners f
    rwa [hmapped, haside.owners f hf] at howners

/-- `map_frames` of a file's frames, where it keeps the count. -/
theorem mapFrames_called (bound : Option Nat) (h : Ledger files base hand sys)
    (hs : sys.spaces p.space ≠ none) (hb : Below p.resv) {addr : Nat} {fixed : Bool} {fs : List Nat}
    (prot : Nat) (cow : Bool) (hnodup : fs.Nodup) (hfile : ∀ f ∈ fs, ∃ i, f ∈ files i)
    (hlen : fs.length * PAGE64_SIZE < 0x10000000000000000) (hok : FramesFit sys p addr fixed fs) :
    Called files hand sys p (mapFrames bound sys p addr fixed fs prot cow).2.1
      (mapFrames bound sys p addr fixed fs prot cow).2.2 := by
  have howned : ∀ f ∈ fs, 0 < sys.pmm.frameOwners f := by
    intro f hf
    obtain ⟨i, hi⟩ := hfile f hf
    exact h.file_owned hi
  have hwrap : wrap (fs.length * PAGE64_SIZE) = fs.length * PAGE64_SIZE := Nat.mod_eq_of_lt hlen
  unfold mapFrames
  split
  · exact .refl hb
  · rw [hwrap]
    split
    · exact .refl hb
    · rename_i start hplace
      -- where it goes, there is nothing by the time the frames come
      have hready : ∃ sys₁ p₁, (if fixed then clearForFrames bound sys p start fs.length else (sys, p)) =
          (sys₁, p₁) ∧ Called files hand sys p sys₁ p₁ ∧
          start + fs.length * PAGE64_SIZE ≤ USPACE64_LIMIT ∧
          (∀ i < fs.length, sys₁.entry p.space (start / PAGE64_SIZE + i) = none) ∧
          ∀ f ∈ fs, sys₁.pmm.frameOwners f ≤ Pmm64.REF_MAX := by
        unfold framesPlace at hplace
        cases fixed with
        | true =>
          simp only [if_true, Bool.not_true, Bool.false_and, Bool.false_eq_true, if_false] at hplace
          split at hplace
          · cases hplace
          · rename_i hfits
            cases hplace
            have hfits : fitsInUserHalf (pageDown addr) (fs.length * PAGE64_SIZE) = true := by
              simpa using hfits
            have hfit := (fitsInUserHalf_iff.mp hfits).2
            have hpages : displacedPages addr true fs.length = pagesFrom (pageDown addr) fs.length := by
              simp [displacedPages, hfits]
            have hz := hok.noZero
            rw [hpages] at hz
            obtain ⟨hcalled, hnone, howners⟩ := clearForFrames_called bound h hs hb hfit hz
              (by simp [pageDown])
            refine ⟨(clearForFrames bound sys p (pageDown addr) fs.length).1,
              (clearForFrames bound sys p (pageDown addr) fs.length).2, rfl, hcalled, hfit, hnone,
              fun f hf => ?_⟩
            have hroom := hok.room f hf
            have := howners f (howned f hf)
            rw [hpages] at hroom
            omega
        | false =>
          simp only [Bool.false_eq_true, if_false, Bool.not_false, Bool.true_and, decide_eq_true_eq] at hplace
          split at hplace
          · cases hplace
          · rename_i hne
            split at hplace
            · cases hplace
            · rename_i hfits
              cases hplace
              have hfit := (fitsInUserHalf_iff.mp (by simpa using hfits)).2
              refine ⟨sys, p, rfl, .refl hb, hfit, fun i hi => ?_, fun f hf => ?_⟩
              · rw [← (pageOf_from hfit hi).1]
                refine findFreeLoop_free h.sound.trees _ _ hne _ ?_ ?_
                · simp only [pageDown, findFree, PAGE64_SIZE]
                  omega
                · simp only [findFree, PAGE64_SIZE]
                  omega
              · have hroom := hok.room f hf
                simpa [displacedPages, mappedOn] using hroom
      obtain ⟨sys₁, p₁, hclear, hcalled, hfit, hnone, hroom⟩ := hready
      simp only [hclear]
      have hloop := mapFramesLoop_going (frameFlags prot cow) fs [] sys₁ (h.moves hcalled.going)
        (hcalled.here h hs) (by simpa using hfit) ⟨hnodup, hfile, hroom⟩ (by simp)
        (fun i f hf => by simp at hf) (by simpa [hcalled.space] using hnone)
      split
      · rename_i heq
        rw [heq] at hloop
        exact hcalled.going_after hloop
      · rename_i heq
        rw [heq] at hloop
        split
        · exact hcalled.going_after hloop
        · exact (hcalled.going_after hloop).bumpPast _

end NovarisOS.Uspace64
