/-
NovarisOS.Uspace64.CallMoves — the memory calls of a process as moves of
frames.

The pages of a call are found by walking a range, and the range may reach
into the kernel's half: `munmap`, `mprotect` and `madvise` do not look at the
limit, and neither does `brk`. As long as nothing is mapped there that the
walk would come to (`Confined`), what they touch is the process's own.
Regions of the reservation list stay below the limit (`Below`), so what is
spilled does too.
-/
import NovarisOS.Uspace64.PageMoves
import NovarisOS.Uspace64.ReservationRuns

namespace NovarisOS.Uspace64

open NovarisOS.Span
open Pmm64 (wrap)


variable {files : Nat → List Nat} {base : Nat → Nat} {hand : List Nat} {sys : Sys} {s : Nat}

/-! ## Addresses -/

variable {va stop i start length addr : Nat}

theorem pageOf_low (h : va < USPACE64_LIMIT) : pageOf va < LOW_PAGES := by
  simp only [pageOf, PAGE64_SIZE, LOW_PAGES, USPACE64_LIMIT] at *
  omega

theorem pageDown_pageDown (va : Nat) : pageDown (pageDown va) = pageDown va := by
  simp only [pageDown, PAGE64_SIZE]
  omega

/-! ## Loops -/

variable {I : Sys → Prop}

theorem forPages_keep {body : Sys → Nat → Bool × Sys}
    (hbody : ∀ sys va, I sys → va < stop → I (body sys va).2) :
    ∀ (n : Nat) (sys : Sys) (va : Nat), (∀ i < n, va + i * PAGE64_SIZE < stop) → I sys →
      I (forPages body n sys va).2 := by
  intro n
  induction n with
  | zero => intro sys va _ hI; exact hI
  | succ n ih =>
    intro sys va hrange hI
    have hI' := hbody sys va hI (by simpa using hrange 0 (by omega))
    rw [forPages]
    rcases hb : body sys va with ⟨ok, sys'⟩
    rw [hb] at hI'
    cases ok with
    | false => exact hI'
    | true =>
      have hnext : ∀ i < n, va + PAGE64_SIZE + i * PAGE64_SIZE < stop := by
        intro i hi
        have := hrange (i + 1) (by omega)
        rw [Nat.add_mul, Nat.one_mul] at this
        omega
      exact ih sys' (va + PAGE64_SIZE) hnext hI'

theorem forPages_going {body : Sys → Nat → Bool × Sys}
    (hbody : ∀ sys va, Ledger files base hand sys → I sys → va < stop →
      Going files (hand, sys) (hand, (body sys va).2) ∧ I (body sys va).2)
    (n : Nat) (sys : Sys) (va : Nat) (hrange : ∀ i < n, va + i * PAGE64_SIZE < stop)
    (h : Ledger files base hand sys) (hI : I sys) :
    Going files (hand, sys) (hand, (forPages body n sys va).2) ∧ I (forPages body n sys va).2 := by
  refine forPages_keep (I := fun sys' => Going files (hand, sys) (hand, sys') ∧ I sys')
    (fun sys' va hkept hva => ?_) n sys va hrange ⟨.refl, hI⟩
  obtain ⟨hgo, hI'⟩ := hbody sys' va (h.moves hkept.1) hkept.2 hva
  exact ⟨hkept.1.trans hgo, hI'⟩

theorem pageSteps_lt (h : i < pageSteps start stop) : start + i * PAGE64_SIZE < stop := by
  simp only [pageSteps, PAGE64_SIZE] at *
  omega

theorem nextMappedLoop_spec (sys : Sys) (s stop : Nat) : ∀ (n va : Nat),
    nextMappedLoop sys s stop n va < stop →
      ∀ k, sys.look s (pageOf (nextMappedLoop sys s stop n va)) ≠ .absent k := by
  intro n
  induction n with
  | zero =>
    intro va h
    exact absurd h (by simp [nextMappedLoop])
  | succ n ih =>
    intro va h
    rw [nextMappedLoop] at h ⊢
    split at h
    · rename_i hlt
      rw [if_pos hlt]
      cases hlook : sys.look s (pageOf va) with
      | absent skip =>
        rw [hlook] at h
        exact ih _ h
      | huge f => simp [hlook]
      | page e => simp [hlook]
    · exact absurd h (Nat.lt_irrefl _)

/-- From here on a walk may go round the top of the address space: the skip
over an absent entry is at most this far from the end. -/
abbrev WALK_TOP : Nat := 0xFFFFFF8000000000

/-- Nothing of the kernel's lies where a walk from `start` to `stop` comes
by. One that ends close to the top goes round and comes by everything. -/
def Confined (sys : Sys) (start stop : Nat) : Prop :=
  ∀ va < stop, start ≤ va ∨ WALK_TOP < stop → ¬ pageOf va < LOW_PAGES →
    ∃ n, sys.upper.look (pageOf va) = .absent n

theorem confined_of_le (sys : Sys) (start : Nat) (h : stop ≤ USPACE64_LIMIT) :
    Confined sys start stop :=
  fun _ hva _ hup => absurd (pageOf_low (Nat.lt_of_lt_of_le hva h)) hup

variable {sys' : Sys}

theorem Confined.congr (h : Confined sys start stop)
    (hupper : sys'.upper = sys.upper) : Confined sys' start stop := by
  intro va hva hwhere hup
  rw [hupper]
  exact h va hva hwhere hup

theorem PageTree.look_absent_le {t : PageTree} {v skip : Nat} (h : t.look v = .absent skip) :
    skip = 0x8000000000 ∨ skip = 0x40000000 ∨ skip = 0x200000 ∨ skip = PAGE64_SIZE := by
  unfold look at h
  split at h
  · cases h
    exact Or.inl rfl
  · split at h
    · cases h
    · split at h
      · cases h
        exact Or.inr (Or.inl rfl)
      · split at h
        · cases h
        · split at h
          · cases h
            exact Or.inr (Or.inr (Or.inl rfl))
          · split at h
            · cases h
              exact Or.inr (Or.inr (Or.inr rfl))
            · cases h

theorem nextMappedLoop_le (sys : Sys) (s : Nat) (hstop : stop ≤ WALK_TOP) :
    ∀ (n va : Nat), nextMappedLoop sys s stop n va < stop → va ≤ nextMappedLoop sys s stop n va := by
  intro n
  induction n with
  | zero =>
    intro va h
    exact absurd h (by simp [nextMappedLoop])
  | succ n ih =>
    intro va h
    rw [nextMappedLoop] at h ⊢
    split at h
    · rename_i hlt
      rw [if_pos hlt]
      cases hlook : sys.look s (pageOf va) with
      | absent skip =>
        rw [hlook] at h
        have hskip := PageTree.look_absent_le hlook
        have hnext := ih _ h
        have hle : va ≤ wrap (va / skip * skip + skip) := by
          simp only [wrap, WALK_TOP, PAGE64_SIZE] at *
          rcases hskip with rfl | rfl | rfl | rfl <;> omega
        exact Nat.le_trans hle hnext
      | huge f => exact Nat.le_refl _
      | page e => exact Nat.le_refl _
    · exact absurd h (Nat.lt_irrefl _)

theorem nextMapped_where (sys : Sys) (s : Nat)
    (hva : start ≤ pageDown va ∨ WALK_TOP < stop) (h : nextMapped sys s va stop < stop) :
    start ≤ nextMapped sys s va stop ∨ WALK_TOP < stop := by
  by_cases htop : stop ≤ WALK_TOP
  · rcases hva with hva | hva
    · exact Or.inl (Nat.le_trans hva (nextMappedLoop_le sys s htop _ _ h))
    · exact Or.inr hva
  · exact Or.inr (Nat.not_le.mp htop)

theorem nextMappedLoop_aligned (sys : Sys) (s stop : Nat) : ∀ (n va : Nat), va % PAGE64_SIZE = 0 →
    nextMappedLoop sys s stop n va < stop → nextMappedLoop sys s stop n va % PAGE64_SIZE = 0 := by
  intro n
  induction n with
  | zero =>
    intro va _ h
    exact absurd h (by simp [nextMappedLoop])
  | succ n ih =>
    intro va halign h
    rw [nextMappedLoop] at h ⊢
    split at h
    · rename_i hlt
      rw [if_pos hlt]
      cases hlook : sys.look s (pageOf va) with
      | absent skip =>
        rw [hlook] at h
        have hskip := PageTree.look_absent_le hlook
        refine ih _ ?_ h
        simp only [wrap, PAGE64_SIZE] at *
        rcases hskip with rfl | rfl | rfl | rfl <;> omega
      | huge f => exact halign
      | page e => exact halign
    · exact absurd h (Nat.lt_irrefl _)

/-- A page the walk from `start` to `stop` may come by. -/
def Passed (start stop va : Nat) : Prop := va < stop ∧ (pageDown start ≤ va ∨ WALK_TOP < stop)

theorem overMapped_keep {body : Sys → Nat → Sys}
    (hbody : ∀ sys va, I sys → Passed start stop va → (∀ n, sys.look s (pageOf va) ≠ .absent n) →
      I (body sys va)) (h : I sys) : I (overMapped s body sys start stop) := by
  have hloop : ∀ (n : Nat) (sys : Sys) (va : Nat), pageDown start ≤ pageDown va ∨ WALK_TOP < stop →
      I sys → I (forMapped (fun sys va => nextMapped sys s va stop) body stop n sys va) := by
    intro n
    induction n with
    | zero =>
      intro sys va _ h
      exact h
    | succ n ih =>
      intro sys va hva h
      rw [forMapped]
      split
      · rename_i hlt
        have hwhere := nextMapped_where sys s hva hlt
        refine ih _ _ ?_ (hbody sys _ h ⟨hlt, hwhere⟩ (nextMappedLoop_spec sys s stop _ _ hlt))
        by_cases htop : WALK_TOP < stop
        · exact Or.inr htop
        · refine hwhere.imp (fun hle => ?_) id
          simp only [pageDown, wrap, WALK_TOP, PAGE64_SIZE] at *
          omega
      · exact h
  exact hloop _ sys start (Or.inl (Nat.le_refl _)) h

theorem Confined.low (hc : Confined sys (pageDown start) stop)
    (hva : Passed start stop va) (hfound : ∀ n, sys.look s (pageOf va) ≠ .absent n) :
    pageOf va < LOW_PAGES := by
  by_contra hup
  obtain ⟨n, hn⟩ := hc va hva.1 hva.2 hup
  refine hfound n ?_
  rw [Sys.look, Sys.tree, if_neg hup, hn]

theorem overMapped_going {body : Sys → Nat → Sys}
    (hbody : ∀ sys va, Ledger files base hand sys → pageOf va < LOW_PAGES →
      Going files (hand, sys) (hand, body sys va))
    (h : Ledger files base hand sys) (hc : Confined sys (pageDown start) stop) :
    Going files (hand, sys) (hand, overMapped s body sys start stop) := by
  refine overMapped_keep (I := fun sys' => Going files (hand, sys) (hand, sys'))
    (fun sys' va hgo hva hfound => ?_) .refl
  have hlow := (hc.congr (h.steady hgo).upper).low hva hfound
  exact hgo.trans (hbody sys' va (h.moves hgo) hlow)

/-! ## Spilling -/

theorem getZeroFrame_going (h : Ledger files base hand sys) :
    Going files (hand, sys) (hand, (getZeroFrame sys).2) ∧
      ((getZeroFrame sys).1 ≠ 0 → (getZeroFrame sys).1 = (getZeroFrame sys).2.zero) := by
  unfold getZeroFrame
  split
  · exact ⟨.refl, fun _ => rfl⟩
  · rename_i h0
    have h0 : sys.zero = 0 := by simpa using h0
    have htook := Sys.allocFrame_took h.sound.wf
    rcases ha : sys.allocFrame with ⟨f, sys₁⟩
    rw [ha] at htook
    simp only at htook ⊢
    split
    · rename_i hf
      subst hf
      exact ⟨.one (.refused htook), fun hne => absurd rfl hne⟩
    · rename_i hf
      have hled := h.take htook hf
      have hgo : Going files (hand, sys) (f :: hand, sys₁.zeroFrame f) := .fresh htook hf _
      refine ⟨hgo.tail (.zeroed rfl ?_ hf (htook.pmm.fresh hf).2.2 hled.pages), fun _ => rfl⟩
      show sys₁.zero = 0
      rw [htook.zero, h0]

theorem Move.zero_keep {watch : Nat → Bool} {x y : List Nat × Sys} (hm : Move watch files x y)
    (h0 : x.2.zero ≠ 0) : y.2.zero = x.2.zero := by
  have hset : ∀ (sys : Sys) (s v : Nat) (t : PageTree), (sys.setTree s v t).zero = sys.zero := by
    intro sys s v t
    rw [Sys.setTree]
    split
    · split <;> rfl
    · rfl
  cases hm with
  | refused ht => exact ht.zero
  | take ht _ => exact ht.zero
  | refer => rfl
  | give => rfl
  | table _ _ _ ht =>
    cases ht with
    | refused _ htook => exact htook.zero
    | widened => exact hset ..
    | made lvl f sys₁ l _ htook => exact (hset ..).trans htook.zero
  | put => exact hset ..
  | putZero => exact hset ..
  | swap => exact hset ..
  | repage => exact hset ..
  | pick => exact hset ..
  | dropZero => exact hset ..
  | memory => rfl
  | zeroed _ hz => exact absurd hz h0

theorem Going.zero_keep {hand' : List Nat}
    (hm : Going files (hand, sys) (hand', sys')) (h0 : sys.zero ≠ 0) : sys'.zero = sys.zero :=
  Moves.keep (I := fun x => x.2.zero = sys.zero)
    (fun _ _ hI hone => (hone.zero_keep (hI ▸ h0)).trans hI) hm rfl

theorem spillToZeroPage_going (h : Ledger files base hand sys)
    (hs : sys.spaces s ≠ none) (hstop : stop ≤ USPACE64_LIMIT) :
    Going files (hand, sys) (hand, (spillToZeroPage sys s start stop).2) := by
  unfold spillToZeroPage
  obtain ⟨hgo, hzero⟩ := getZeroFrame_going h
  rcases hz : getZeroFrame sys with ⟨z, sys₁⟩
  rw [hz] at hgo hzero
  simp only at hgo hzero ⊢
  split
  · exact hgo
  · rename_i h0
    have hz₁ := hzero h0
    have hs₁ : sys₁.spaces s ≠ none := fun hnone => hs (((h.steady hgo).here s).mp hnone)
    refine hgo.trans (forPages_going (I := fun sys => sys.zero = z ∧ sys.spaces s ≠ none)
      ?_ _ _ _ (fun i hi => pageSteps_lt hi) (h.moves hgo) ⟨hz₁.symm, hs₁⟩).1
    intro sys va h hI hva
    have hv := pageOf_low (Nat.lt_of_lt_of_le hva hstop)
    rw [Sys.translate_eq h.sound.trees hv]
    cases he : sys.entry s (pageOf va) with
    | some e => exact ⟨.refl, hI⟩
    | none =>
      have hmap := pagingMap_zero h (PAGE64_PRESENT ||| PAGE64_USER) hv hI.2 he
        (by rw [hI.1]; exact h0) (by decide) (by decide)
      rw [hI.1] at hmap
      refine ⟨hmap, (hmap.zero_keep (by rw [hI.1]; exact h0)).trans hI.1, fun hnone => ?_⟩
      exact hI.2 (((h.steady hmap).here s).mp hnone)

variable {x : Resv}

theorem spillRange_going (h : Ledger files base hand sys) (hs : sys.spaces s ≠ none)
    (hstop : x.stop ≤ USPACE64_LIMIT) : Going files (hand, sys) (hand, (spillRange sys s x).2) := by
  unfold spillRange
  split
  · exact spillToZeroPage_going h hs hstop
  · refine (forPages_going (I := fun sys => sys.spaces s ≠ none) ?_ _ _ _
      (fun i hi => pageSteps_lt hi) h hs).1
    intro sys va h hs hva
    have hv := pageOf_low (Nat.lt_of_lt_of_le hva hstop)
    rw [Sys.translate_eq h.sound.trees hv]
    cases he : sys.entry s (pageOf va) with
    | some e => exact ⟨.refl, hs⟩
    | none =>
      have hback := backPage_going h hv hs he x.flags
      exact ⟨hback, fun hnone => hs (((h.steady hback).here s).mp hnone)⟩

/-! ## Regions below the limit -/

/-- Every region ends by `USPACE64_LIMIT`. -/
def Below (r : List Resv) : Prop := ∀ x ∈ r, x.stop ≤ USPACE64_LIMIT

variable {r : List Resv}

theorem Below.set (h : Below r) (hx : x.stop ≤ USPACE64_LIMIT) : Below (r.set i x) := by
  intro y hy
  rcases List.mem_or_eq_of_mem_set hy with hy | rfl
  · exact h y hy
  · exact hx

theorem Below.delete (h : Below r) (i : Nat) : Below (resvDelete r i) :=
  fun y hy => h y ((List.eraseIdx_sublist r i).mem hy)

theorem Below.insert {bound : Option Nat} {r' : List Resv} (h : Below r)
    (hx : x.stop ≤ USPACE64_LIMIT) (hr : resvInsert bound r i x = some r') : Below r' := by
  unfold resvInsert at hr
  split at hr
  · cases hr
  · cases hr
    intro y hy
    rcases List.eq_or_mem_of_mem_insertIdx hy with rfl | hy
    · exact hx
    · exact h y hy

theorem Below.getD (h : Below r) (i : Nat) : (r.getD i ⟨0, 0, 0⟩).stop ≤ USPACE64_LIMIT := by
  rw [List.getD_eq_getElem?_getD]
  cases hx : r[i]? with
  | none => simp
  | some x => exact h x (List.mem_of_getElem? hx)

theorem removeLoop_below (bound : Option Nat) (hstart : start ≤ USPACE64_LIMIT) :
    ∀ (n : Nat) (r : List Resv) (i : Nat), Below r →
      Below (removeLoop bound start stop n r i).1 ∧
      ∀ x, (removeLoop bound start stop n r i).2 = some x → x.stop ≤ USPACE64_LIMIT ∧ x.start = stop := by
  intro n
  induction n with
  | zero => intro r i h; exact ⟨h, fun x hx => by simp [removeLoop] at hx⟩
  | succ n ih =>
    intro r i h
    rw [removeLoop]
    split
    · exact ⟨h, fun x hx => by cases hx⟩
    · rename_i x hx
      have hxs := h x (List.mem_of_getElem? hx)
      split
      · split
        · have hset := h.set (i := i) (x := { x with stop := start }) hstart
          simp only
          split
          · rename_i r' hins
            exact ⟨hset.insert (x := { x with start := stop }) hxs hins, fun y hy => by cases hy⟩
          · refine ⟨hset, fun y hy => ?_⟩
            cases hy
            exact ⟨hxs, rfl⟩
        · split
          · exact ih _ _ (h.set (x := { x with stop := start }) hstart)
          · split
            · exact ⟨h.set (x := { x with start := stop }) hxs, fun y hy => by cases hy⟩
            · exact ih _ _ (h.delete i)
      · exact ⟨h, fun y hy => by cases hy⟩

theorem firstAfterLoop_all (h : ∀ i, (r.getD i ⟨0, 0, 0⟩).stop ≤ va) :
    ∀ (n lo hi : Nat), lo ≤ hi → hi ≤ lo + n → firstAfterLoop r va n lo hi = hi := by
  intro n
  induction n with
  | zero => intro lo hi h1 h2; rw [firstAfterLoop]; omega
  | succ n ih =>
    intro lo hi h1 h2
    rw [firstAfterLoop]
    split
    · simp only
      rw [if_pos (h _)]
      exact ih _ _ (by omega) (by omega)
    · omega

theorem resvRemove_below (bound : Option Nat) (h : Below r) (start stop : Nat) :
    Below (resvRemove bound r start stop).1 ∧
      ∀ x, (resvRemove bound r start stop).2 = some x → x.stop ≤ USPACE64_LIMIT ∧ x.start = stop := by
  by_cases hstart : start ≤ USPACE64_LIMIT
  · exact removeLoop_below bound hstart _ _ _ h
  · -- every region ends before `start`
    have hall : ∀ i, (r.getD i ⟨0, 0, 0⟩).stop ≤ start := fun i => by
      have := h.getD i
      omega
    rw [resvRemove, resvFirstAfter, firstAfterLoop_all hall _ _ _ (Nat.zero_le _) (by omega), removeLoop,
      List.getElem?_eq_none (Nat.le_refl _)]
    exact ⟨h, fun x hx => by cases hx⟩

theorem resvAdd_below (bound : Option Nat) (h : Below r) (start : Nat)
    (flags : Nat) (hstop : stop ≤ USPACE64_LIMIT) :
    Below (resvAdd bound r start stop flags).1 ∧
      ∀ x, (resvAdd bound r start stop flags).2 = some x → x.stop ≤ USPACE64_LIMIT := by
  unfold resvAdd
  simp only
  split
  · exact ⟨(h.set (x := { r.getD (resvFirstAfter r start - 1) ⟨0, 0, 0⟩ with
      stop := (r.getD (resvFirstAfter r start) ⟨0, 0, 0⟩).stop }) (h.getD _)).delete _,
      fun x hx => by cases hx⟩
  · split
    · exact ⟨h.set (x := { r.getD (resvFirstAfter r start - 1) ⟨0, 0, 0⟩ with stop := stop }) hstop,
        fun x hx => by cases hx⟩
    · split
      · exact ⟨h.set (x := { r.getD (resvFirstAfter r start) ⟨0, 0, 0⟩ with start := start }) (h.getD _),
          fun x hx => by cases hx⟩
      · split
        · rename_i r' hins
          exact ⟨h.insert (x := ⟨start, stop, flags⟩) hstop hins, fun x hx => by cases hx⟩
        · refine ⟨h, fun x hx => ?_⟩
          cases hx
          exact hstop

/-! ## The reservation list, with what it spills -/

/-- What a call leaves behind: moves of frames, and a process with the same
space whose regions are below the limit. -/
structure Called (files : Nat → List Nat) (hand : List Nat) (sys : Sys) (p : Proc) (sys' : Sys)
    (p' : Proc) : Prop where
  going : Going files (hand, sys) (hand, sys')
  space : p'.space = p.space
  below : Below p'.resv

variable {p p' : Proc}

theorem Called.refl (h : Below p.resv) : Called files hand sys p sys p := ⟨.refl, rfl, h⟩

theorem Called.trans {sys'' : Sys} {p'' : Proc} (h : Called files hand sys p sys' p')
    (h' : Called files hand sys' p' sys'' p'') : Called files hand sys p sys'' p'' :=
  ⟨h.going.trans h'.going, h'.space.trans h.space, h'.below⟩

theorem Called.here (h : Called files hand sys p sys' p')
    (hled : Ledger files base hand sys) (hs : sys.spaces p.space ≠ none) :
    sys'.spaces p'.space ≠ none := by
  rw [h.space]
  exact fun hnone => hs (((hled.steady h.going).here _).mp hnone)

theorem Called.going_after {sys'' : Sys} (h : Called files hand sys p sys' p')
    (hgo : Going files (hand, sys') (hand, sys'')) : Called files hand sys p sys'' p' :=
  ⟨h.going.trans hgo, h.space, h.below⟩

theorem dropResv_called (bound : Option Nat) (h : Ledger files base hand sys)
    (hs : sys.spaces p.space ≠ none) (hb : Below p.resv) (start stop : Nat) :
    Called files hand sys p (dropResv bound sys p start stop).1 (dropResv bound sys p start stop).2 := by
  obtain ⟨hbelow, hspill⟩ := resvRemove_below bound hb start stop
  unfold dropResv
  rcases hr : resvRemove bound p.resv start stop with ⟨r, - | x⟩
  · rw [hr] at hbelow
    exact ⟨.refl, rfl, hbelow⟩
  · rw [hr] at hbelow hspill
    exact ⟨spillRange_going h hs (hspill x rfl).1, rfl, hbelow⟩

theorem addResv_called (bound : Option Nat) (h : Ledger files base hand sys)
    (hs : sys.spaces p.space ≠ none) (hb : Below p.resv) (start : Nat) (flags : Nat)
    (hstop : stop ≤ USPACE64_LIMIT) :
    Called files hand sys p (addResv bound sys p start stop flags).2.1
      (addResv bound sys p start stop flags).2.2 := by
  obtain ⟨hbelow, hspill⟩ := resvAdd_below bound hb start flags hstop
  unfold addResv
  rcases hr : resvAdd bound p.resv start stop flags with ⟨r, - | x⟩
  · rw [hr] at hbelow
    exact ⟨.refl, rfl, hbelow⟩
  · rw [hr] at hbelow hspill
    exact ⟨spillRange_going h hs (hspill x rfl), rfl, hbelow⟩

theorem replace_called (bound : Option Nat) (h : Ledger files base hand sys)
    (hs : sys.spaces p.space ≠ none) (hb : Below p.resv) (start : Nat) (flags : Nat)
    (hstop : stop ≤ USPACE64_LIMIT) (mid : Sys → Sys)
    (hmid : ∀ sys, Ledger files base hand sys → Going files (hand, sys) (hand, mid sys)) :
    Called files hand sys p
      (addResv bound (mid (dropResv bound sys p start stop).1) (dropResv bound sys p start stop).2
        start stop flags).2.1
      (addResv bound (mid (dropResv bound sys p start stop).1) (dropResv bound sys p start stop).2
        start stop flags).2.2 := by
  have hdrop := dropResv_called bound h hs hb start stop
  have hled := h.moves hdrop.going
  have hmids := hdrop.going_after (hmid _ hled)
  exact hmids.trans (addResv_called bound (h.moves hmids.going) (hmids.here h hs) hmids.below start flags
    hstop)

theorem mapAnon_called (bound : Option Nat) (h : Ledger files base hand sys)
    (hs : sys.spaces p.space ≠ none) (hb : Below p.resv) (start : Nat) (flags : Nat)
    (zeroExisting : Bool) (hstop : stop ≤ USPACE64_LIMIT) :
    Called files hand sys p (mapAnon bound sys p start stop flags zeroExisting).2.1
      (mapAnon bound sys p start stop flags zeroExisting).2.2 := by
  exact replace_called bound h hs hb start flags hstop
    (fun sys' => overMapped (dropResv bound sys p start stop).2.space
      (anonPage (dropResv bound sys p start stop).2.space flags zeroExisting) sys' start stop)
    fun sys' hled => overMapped_going (fun sys va h hv => anonPage_going h hv flags zeroExisting) hled
      (confined_of_le _ _ hstop)

/-! ## The calls -/

theorem fitsInUserHalf_iff :
    fitsInUserHalf start length = true ↔
      start < USPACE64_LIMIT ∧ start + length ≤ USPACE64_LIMIT := by
  unfold fitsInUserHalf
  split
  · simp only [Bool.false_eq_true, false_iff]
    omega
  · rw [decide_eq_true_eq]
    omega

theorem findFreeLoop_found : ∀ (n at' : Nat), findFreeLoop sys p length n at' ≠ 0 →
    fitsInUserHalf (findFreeLoop sys p length n at') length = true ∧
      ¬ nextMapped sys p.space (findFreeLoop sys p length n at') (findFreeLoop sys p length n at' + length) <
        findFreeLoop sys p length n at' + length := by
  intro n
  induction n with
  | zero => intro at' h; exact absurd rfl h
  | succ n ih =>
    intro at' h
    rw [findFreeLoop] at h ⊢
    split at h
    · exact absurd rfl h
    · rename_i hfits
      rw [if_neg hfits]
      simp only at h ⊢
      split at h
      · rename_i hover
        rw [if_pos hover]
        exact ih _ h
      · rename_i hover
        rw [if_neg hover]
        split at h
        · rename_i hmapped
          rw [if_pos hmapped]
          exact ih _ h
        · rename_i hmapped
          rw [if_neg hmapped]
          exact ⟨by simpa using hfits, hmapped⟩

theorem mmapPlace_fits {flags : Nat}
    (h : mmapPlace sys p addr length flags = .ok start) : start + length ≤ USPACE64_LIMIT := by
  refine (fitsInUserHalf_iff.mp ?_).2
  unfold mmapPlace at h
  simp only at h
  split at h
  · split at h
    · cases h
    · rename_i hfits
      split at h
      · cases h
      · cases h
        simpa using hfits
  · split at h
    · split at h
      · cases h
      · rename_i hfits
        cases h
        simpa using hfits
    · split at h
      · split at h
        · cases h
        · rename_i hne
          cases h
          exact (findFreeLoop_found _ _ hne).1
      · rename_i hhint
        split at h
        · cases h
        · cases h
          simp only [Bool.or_eq_true, decide_eq_true_eq, Bool.not_eq_true', not_or,
            Bool.not_eq_false, Bool.and_eq_true] at hhint
          exact hhint.2.1

theorem bumpPast_space (p : Proc) (stop : Nat) : (bumpPast p stop).space = p.space := by
  unfold bumpPast
  split <;> rfl

theorem Called.bumpPast (h : Called files hand sys p sys' p') (stop : Nat) :
    Called files hand sys p sys' (bumpPast p' stop) :=
  ⟨h.going, (bumpPast_space _ _).trans h.space, by rw [bumpPast_resv]; exact h.below⟩

theorem unmapPages_going (h : Ledger files base hand sys)
    (hc : Confined sys (pageDown start) stop) :
    Going files (hand, sys) (hand, unmapPages sys s start stop) :=
  overMapped_going (fun _ _ h hv => unmapPage_going h hv) h hc

theorem mmapAt_called (bound : Option Nat) (h : Ledger files base hand sys) (hs : sys.spaces p.space ≠ none)
    (hb : Below p.resv) (start prot flags : Nat) (hstop : stop ≤ USPACE64_LIMIT) :
    Called files hand sys p (mmapAt bound sys p start stop prot flags).2.1
      (mmapAt bound sys p start stop prot flags).2.2 := by
  unfold mmapAt
  split
  · have hgo : Going files (hand, sys) (hand, unmapPages sys p.space start stop) :=
      unmapPages_going h (confined_of_le sys _ hstop)
    have hfirst : Called files hand sys p _ p := ⟨hgo, rfl, hb⟩
    exact hfirst.trans (replace_called bound (h.moves hgo) (hfirst.here h hs) hb start 0 hstop id
      fun _ _ => .refl)
  · exact mapAnon_called bound h hs hb start _ _ hstop

theorem mmap_called (bound : Option Nat) (h : Ledger files base hand sys)
    (hs : sys.spaces p.space ≠ none) (hb : Below p.resv) (addr length prot flags : Nat) :
    Called files hand sys p (mmap bound sys p addr length prot flags).2.1
      (mmap bound sys p addr length prot flags).2.2 := by
  unfold mmap
  split
  · exact .refl hb
  · simp only
    split
    · exact .refl hb
    · rename_i start hplace
      have hmade := mmapAt_called bound h hs hb start prot flags (mmapPlace_fits hplace)
      split
      · rename_i heq
        rw [heq] at hmade
        exact hmade
      · rename_i heq
        rw [heq] at hmade
        split
        · exact hmade
        · exact hmade.bumpPast _

theorem brk_called (bound : Option Nat) (h : Ledger files base hand sys)
    (hs : sys.spaces p.space ≠ none) (hb : Below p.resv)
    (hlow : p.brkBase ≤ addr → p.brkCurrent < pageUp addr → pageUp addr ≤ USPACE64_LIMIT) :
    Called files hand sys p (brk bound sys p addr).2.1 (brk bound sys p addr).2.2 := by
  unfold brk
  split
  · exact .refl hb
  · rename_i hok
    simp only
    split
    · rename_i hgrow
      have hanon := mapAnon_called bound h hs hb p.brkCurrent
        (PAGE64_PRESENT ||| PAGE64_WRITE ||| PAGE64_USER) false (hlow (by omega) hgrow)
      split <;> (rename_i heq; rw [heq] at hanon; exact ⟨hanon.going, hanon.space, hanon.below⟩)
    · exact ⟨.refl, rfl, hb⟩

theorem munmap_called (bound : Option Nat) (h : Ledger files base hand sys)
    (hs : sys.spaces p.space ≠ none) (hb : Below p.resv)
    (hc : Confined sys (pageDown addr) (wrap (pageDown addr + pageUp length))) :
    Called files hand sys p (munmap bound sys p addr length).2.1 (munmap bound sys p addr length).2.2 := by
  unfold munmap
  split
  · exact .refl hb
  · have hdrop := dropResv_called bound h hs hb (pageDown addr) (wrap (pageDown addr + pageUp length))
    refine hdrop.going_after (unmapPages_going (h.moves hdrop.going) ?_)
    rw [pageDown_pageDown]
    exact hc.congr (h.steady hdrop.going).upper

theorem discardPage_going {p : Proc} (h : Ledger files base hand sys) (hb : Below p.resv) :
    Going files (hand, sys) (hand, discardPage p sys va) := by
  unfold discardPage
  split
  · exact .refl
  · rename_i x hx
    split
    · have hi := (List.getElem?_eq_some_iff.mp hx).1
      have hpast := (resvFirstAfter_past hi).2
      rw [List.getD_eq_getElem?_getD, hx] at hpast
      exact unmapPage_going h (pageOf_low (Nat.lt_of_lt_of_le hpast (hb x (List.mem_of_getElem? hx))))
    · exact .refl

theorem discard_going (h : Ledger files base hand sys) (hb : Below p.resv) :
    Going files (hand, sys) (hand, discard sys p addr length) :=
  overMapped_keep (I := fun sys' => Going files (hand, sys) (hand, sys'))
    (fun _ _ hgo _ _ => hgo.trans (discardPage_going (h.moves hgo) hb)) .refl

theorem protectLoop_called (bound : Option Nat) (stop nf : Nat) : ∀ (n : Nat) (sys : Sys) (p : Proc)
    (at' : Nat), Ledger files base hand sys → sys.spaces p.space ≠ none → Below p.resv →
    Called files hand sys p (protectLoop bound stop nf n sys p at').1
      (protectLoop bound stop nf n sys p at').2 := by
  intro n
  induction n with
  | zero => intro sys p at' _ _ hb; exact .refl hb
  | succ n ih =>
    intro sys p at' h hs hb
    rw [protectLoop]
    split
    · split
      · exact .refl hb
      · rename_i x hx
        have hxs := hb x (List.mem_of_getElem? hx)
        split
        · exact .refl hb
        · simp only
          split
          · -- the region's part takes the new flags
            have hend : (if x.stop > stop then stop else x.stop) ≤ USPACE64_LIMIT := by
              split <;> omega
            have hone := replace_called bound h hs hb (if x.start < at' then at' else x.start) nf hend id
              fun _ _ => .refl
            exact hone.trans (ih _ _ _ (h.moves hone.going) (hone.here h hs) hone.below)
          · exact ih _ _ _ h hs hb
    · exact .refl hb

theorem protect_called (bound : Option Nat) (h : Ledger files base hand sys)
    (hs : sys.spaces p.space ≠ none) (hb : Below p.resv) {prot : Nat}
    (hc : Confined sys (pageDown addr) (wrap (pageDown addr + pageUp length))) :
    Called files hand sys p (protect bound sys p addr length prot).1
      (protect bound sys p addr length prot).2 := by
  have hloop := protectLoop_called bound (wrap (pageDown addr + pageUp length))
    (if prot = 0 then 0 else protFlags prot) (wrap (pageDown addr + pageUp length) + 1) sys p
    (pageDown addr) h hs hb
  refine hloop.going_after (overMapped_going (fun _ _ h hv => setWritable_going h hv _)
    (h.moves hloop.going) ?_)
  rw [pageDown_pageDown]
  exact hc.congr (h.steady hloop.going).upper

end NovarisOS.Uspace64
