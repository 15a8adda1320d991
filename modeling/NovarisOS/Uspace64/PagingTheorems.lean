/-
NovarisOS.Uspace64.PagingTheorems — what the paging functions do to a
process's half of memory.

The lower half of every space is built by these functions alone, from an empty
tree.
-/
import NovarisOS.Pmm64.FramesTheorems
import NovarisOS.Uspace64.Memory

namespace NovarisOS.Uspace64

open Function (update update_of_ne update_self)
open Pmm64 (Pmm)
open Vmspace64 (Pte tableKey)

/-! ## §1 Lower halves -/

namespace PageTree

/-- A tree of small pages below `USPACE64_LIMIT`, each under its tables. -/
structure Wf (t : PageTree) : Prop where
  plain : ∀ k, t.huge k = none
  low : ∀ v e, t.pages.get v = some e → v < LOW_PAGES
  rooted : ∀ v e, t.pages.get v = some e → ∀ lvl < 3, t.tables.get (tableKey lvl v) ≠ none

theorem empty_wf : empty.Wf :=
  ⟨fun _ => rfl, fun _ _ h => absurd h (by simp [empty]), fun _ _ h => absurd h (by simp [empty])⟩

/-- Whether all the tables above page `v` are there. -/
def Open (t : PageTree) (v : Nat) : Prop := ∀ lvl < 3, t.tables.get (tableKey lvl v) ≠ none

variable {t : PageTree}

theorem Wf.look_cases (h : t.Wf) (v : Nat) :
    (∃ e, t.look v = .page e ∧ t.pages.get v = some e) ∨
      (∃ n, t.look v = .absent n ∧ t.pages.get v = none) := by
  have hclosed : ∀ lvl < 3, t.tables.get (tableKey lvl v) = none → t.pages.get v = none := by
    intro lvl hlvl hnone
    cases hv : t.pages.get v with
    | none => rfl
    | some e => exact absurd hnone (h.rooted v e hv lvl hlvl)
  unfold look
  cases h0 : t.tables.get (tableKey 0 v) with
  | none => exact Or.inr ⟨_, rfl, hclosed 0 (by omega) h0⟩
  | some l0 =>
    simp only [h.plain]
    cases h1 : t.tables.get (tableKey 1 v) with
    | none => exact Or.inr ⟨_, rfl, hclosed 1 (by omega) h1⟩
    | some l1 =>
      cases h2 : t.tables.get (tableKey 2 v) with
      | none => exact Or.inr ⟨_, rfl, hclosed 2 (by omega) h2⟩
      | some l2 =>
        cases hv : t.pages.get v with
        | none => exact Or.inr ⟨_, rfl, rfl⟩
        | some e => exact Or.inl ⟨e, rfl, rfl⟩

theorem Wf.setTable (h : t.Wf) (k : Nat × Nat) (l : Link) :
    ({ t with tables := t.tables.set k l } : PageTree).Wf where
  plain := h.plain
  low := h.low
  rooted := by
    intro v e hv lvl hlvl
    show update t.tables.get k (some l) (tableKey lvl v) ≠ none
    by_cases hk : tableKey lvl v = k
    · rw [hk, update_self]
      simp
    · rw [update_of_ne hk]
      exact h.rooted v e hv lvl hlvl

theorem Wf.setPage (h : t.Wf) {v : Nat} (hv : v < LOW_PAGES) (hopen : t.Open v)
    (e : Pte) : ({ t with pages := t.pages.set v e } : PageTree).Wf where
  plain := h.plain
  low := by
    intro v' e' hv'
    by_cases heq : v' = v
    · rw [heq]
      exact hv
    · exact h.low v' e' (by simpa [update_of_ne heq] using hv')
  rooted := by
    intro v' e' hv'
    by_cases heq : v' = v
    · rw [heq]
      exact hopen
    · exact h.rooted v' e' (by simpa [update_of_ne heq] using hv')

theorem Wf.erasePage (h : t.Wf) (v : Nat) :
    ({ t with pages := t.pages.erase v } : PageTree).Wf where
  plain := h.plain
  low := by
    intro v' e' hv'
    by_cases heq : v' = v
    · simp [heq] at hv'
    · exact h.low v' e' (by simpa [update_of_ne heq] using hv')
  rooted := by
    intro v' e' hv'
    by_cases heq : v' = v
    · simp [heq] at hv'
    · exact h.rooted v' e' (by simpa [update_of_ne heq] using hv')

end PageTree

namespace Sys

/-- Every space's lower half is well formed. -/
def Trees (sys : Sys) : Prop := ∀ s t, sys.spaces s = some t → t.Wf

/-- The entry of page `v` in the space `s`. -/
def entry (sys : Sys) (s v : Nat) : Option Pte := (sys.spaces s).bind fun t => t.pages.get v

/-- The space `s` with the tree `t` for its lower half. -/
def withTree (sys : Sys) (s : Nat) (t : PageTree) : Sys :=
  { sys with spaces := update sys.spaces s (some t) }

@[simp] theorem withTree_spaces_self (sys : Sys) (s : Nat) (t : PageTree) :
    (sys.withTree s t).spaces s = some t := update_self ..

theorem withTree_spaces_ne (sys : Sys) {s s' : Nat} (t : PageTree) (h : s' ≠ s) :
    (sys.withTree s t).spaces s' = sys.spaces s' := update_of_ne h ..

theorem entry_of_space {sys : Sys} {s : Nat} {t : PageTree} (h : sys.spaces s = some t) (v : Nat) :
    sys.entry s v = t.pages.get v := by
  rw [entry, h]
  rfl

theorem Trees.withTree {sys : Sys} (h : sys.Trees) (s : Nat) {t : PageTree} (ht : t.Wf) :
    (sys.withTree s t).Trees := by
  intro s' t' hs
  by_cases heq : s' = s
  · subst heq
    rw [withTree_spaces_self] at hs
    cases hs
    exact ht
  · rw [withTree_spaces_ne _ _ heq] at hs
    exact h s' t' hs

section Low

variable {sys : Sys} {s v : Nat}

theorem tree_low (hv : v < LOW_PAGES) : sys.tree s v = (sys.spaces s).getD PageTree.empty := by
  rw [tree, if_pos hv]

variable {t : PageTree}

theorem tree_of_space (hv : v < LOW_PAGES) (hs : sys.spaces s = some t) : sys.tree s v = t := by
  rw [tree_low hv, hs]
  rfl

theorem setTree_of_space (hv : v < LOW_PAGES) (hs : sys.spaces s = some t)
    (t' : PageTree) : sys.setTree s v t' = sys.withTree s t' := by
  rw [setTree, if_pos hv, hs]
  rfl

theorem setPte_low (hv : v < LOW_PAGES) (hs : sys.spaces s = some t) (e : Pte) :
    sys.setPte s v e = sys.withTree s { t with pages := t.pages.set v e } := by
  rw [setPte, setTree_of_space hv hs, tree_of_space hv hs]

theorem clearPte_low (hv : v < LOW_PAGES) (hs : sys.spaces s = some t) :
    sys.clearPte s v = sys.withTree s { t with pages := t.pages.erase v } := by
  rw [clearPte, setTree_of_space hv hs, tree_of_space hv hs]

theorem entry_setPte (hv : v < LOW_PAGES) (hs : sys.spaces s = some t) (e : Pte)
    (s' v' : Nat) : (sys.setPte s v e).entry s' v' =
      if s' = s ∧ v' = v then some e else sys.entry s' v' := by
  rw [setPte_low hv hs]
  by_cases hss : s' = s
  · subst hss
    rw [entry_of_space (withTree_spaces_self ..), entry_of_space hs]
    show update t.pages.get v (some e) v' = _
    by_cases hvv : v' = v
    · rw [hvv, update_self, if_pos ⟨rfl, rfl⟩]
    · rw [update_of_ne hvv, if_neg fun h => hvv h.2]
  · rw [if_neg fun h => hss h.1, entry, entry, withTree_spaces_ne _ _ hss]

theorem entry_clearPte (hv : v < LOW_PAGES) (hs : sys.spaces s = some t)
    (s' v' : Nat) : (sys.clearPte s v).entry s' v' =
      if s' = s ∧ v' = v then none else sys.entry s' v' := by
  rw [clearPte_low hv hs]
  by_cases hss : s' = s
  · subst hss
    rw [entry_of_space (withTree_spaces_self ..), entry_of_space hs]
    show update t.pages.get v none v' = _
    by_cases hvv : v' = v
    · rw [hvv, update_self, if_pos ⟨rfl, rfl⟩]
    · rw [update_of_ne hvv, if_neg fun h => hvv h.2]
  · rw [if_neg fun h => hss h.1, entry, entry, withTree_spaces_ne _ _ hss]

theorem space_of_entry {e : Pte} (h : sys.entry s v = some e) :
    ∃ t, sys.spaces s = some t ∧ t.pages.get v = some e := by
  rw [entry] at h
  cases hs : sys.spaces s with
  | none => simp [hs] at h
  | some t => exact ⟨t, rfl, by simpa [hs] using h⟩

theorem setPte_fields (sys : Sys) (s v : Nat) (e : Pte) :
    (sys.setPte s v e).pmm = sys.pmm ∧ (sys.setPte s v e).mem = sys.mem ∧
      (sys.setPte s v e).zero = sys.zero ∧ (sys.setPte s v e).live = sys.live := by
  rw [setPte, setTree]
  split
  · split <;> exact ⟨rfl, rfl, rfl, rfl⟩
  · exact ⟨rfl, rfl, rfl, rfl⟩

theorem setPte_here (s v : Nat) (e : Pte) (s' : Nat) :
    (sys.setPte s v e).spaces s' = none ↔ sys.spaces s' = none := by
  rw [setPte, setTree]
  split
  · split
    · exact Iff.rfl
    · rename_i t hs
      by_cases hss : s' = s
      · subst hss
        simp [hs]
      · show update sys.spaces s _ s' = none ↔ _
        rw [update_of_ne hss]
  · exact Iff.rfl

theorem setPte_upper (hv : v < LOW_PAGES) (e : Pte) : (sys.setPte s v e).upper = sys.upper := by
  rw [setPte, setTree, if_pos hv]
  split <;> rfl

theorem look_low (h : sys.Trees) (hv : v < LOW_PAGES) :
    (∃ e, sys.look s v = .page e ∧ sys.entry s v = some e) ∨
      (∃ n, sys.look s v = .absent n ∧ sys.entry s v = none) := by
  rw [look, tree_low hv, entry]
  cases hs : sys.spaces s with
  | none => exact Or.inr ⟨_, rfl, rfl⟩
  | some t => exact (h s t hs).look_cases v

theorem pte_eq_entry (h : sys.Trees) (hv : v < LOW_PAGES) : sys.pte s v = sys.entry s v := by
  rw [pte]
  rcases look_low (s := s) h hv with ⟨e, hlook, hentry⟩ | ⟨n, hlook, hentry⟩ <;>
    rw [hlook, hentry]

theorem translate_eq (h : sys.Trees) (hv : v < LOW_PAGES) :
    pagingTranslate sys s v = (sys.entry s v).map Pte.frame := by
  rw [pagingTranslate]
  rcases look_low (s := s) h hv with ⟨e, hlook, hentry⟩ | ⟨n, hlook, hentry⟩ <;>
    rw [hlook, hentry] <;> rfl

theorem unmap_low (h : sys.Trees) (hv : v < LOW_PAGES) :
    pagingUnmap sys s v = if (sys.entry s v).isSome then sys.clearPte s v else sys := by
  rw [pagingUnmap]
  rcases look_low (s := s) h hv with ⟨e, hlook, hentry⟩ | ⟨n, hlook, hentry⟩ <;>
    rw [hlook, hentry] <;> rfl

end Low

/-! ## §2 Allocations -/

/-- The machine after an allocation that returned `f`. -/
structure Took (sys : Sys) (f : Nat) (sys' : Sys) : Prop where
  pmm : Pmm.Took sys.pmm f sys'.pmm
  same : sys' = { sys with pmm := sys'.pmm, starved := sys'.starved }

namespace Took

variable {sys sys' : Sys} {f : Nat}

theorem spaces (h : Took sys f sys') : sys'.spaces = sys.spaces := by rw [h.same]

theorem upper (h : Took sys f sys') : sys'.upper = sys.upper := by rw [h.same]

theorem zero (h : Took sys f sys') : sys'.zero = sys.zero := by rw [h.same]

theorem mem (h : Took sys f sys') : sys'.mem = sys.mem := by rw [h.same]

theorem live (h : Took sys f sys') : sys'.live = sys.live := by rw [h.same]

theorem tree (h : Took sys f sys') (s v : Nat) : sys'.tree s v = sys.tree s v := by
  rw [Sys.tree, Sys.tree, h.spaces, h.upper]

theorem entry (h : Took sys f sys') (s v : Nat) : sys'.entry s v = sys.entry s v := by
  rw [Sys.entry, Sys.entry, h.spaces]

theorem owners (h : Took sys f sys') (hf : f ≠ 0) :
    sys'.pmm.frameOwners = update sys.pmm.frameOwners f 1 := by
  funext g
  by_cases hg : g = f
  · rw [hg, update_self]
    exact (h.pmm.fresh hf).2.2
  · rw [update_of_ne hg]
    exact h.pmm.other g hg

end Took

theorem allocFrame_took {sys : Sys} (h : sys.pmm.Wf) :
    Took sys sys.allocFrame.1 sys.allocFrame.2 := ⟨Pmm.allocFrame_took h, rfl⟩

theorem allocHigh_took {sys : Sys} (h : sys.pmm.Wf) :
    Took sys sys.allocHigh.1 sys.allocHigh.2 := ⟨Pmm.allocHigh_took h, rfl⟩

theorem allocUser_took {sys : Sys} (h : sys.pmm.Wf) :
    Took sys sys.allocUser.1 sys.allocUser.2 := ⟨Pmm.allocUser_took h, rfl⟩

/-- An allocator in order, and lower halves that are well formed. -/
structure Sound (sys : Sys) : Prop where
  wf : sys.pmm.Wf
  ground : sys.pmm.Grounded
  trees : sys.Trees

namespace Sound

variable {sys : Sys}

theorem took {f : Nat} {sys' : Sys} (h : sys.Sound) (ht : Took sys f sys') : sys'.Sound where
  wf := ht.pmm.wf
  ground := ht.pmm.ground h.ground
  trees := by
    intro s t hs
    rw [ht.spaces] at hs
    exact h.trees s t hs

theorem withTree (h : sys.Sound) (s : Nat) {t : PageTree} (ht : t.Wf) : (sys.withTree s t).Sound :=
  ⟨h.wf, h.ground, h.trees.withTree s ht⟩

theorem withUpper (h : sys.Sound) (t : PageTree) : ({ sys with upper := t } : Sys).Sound :=
  ⟨h.wf, h.ground, h.trees⟩

end Sound

theorem Sound.setPte {sys : Sys} (h : sys.Sound) {s v : Nat} {t : PageTree} (hv : v < LOW_PAGES)
    (hs : sys.spaces s = some t) (hopen : t.Open v) (e : Pte) : (sys.setPte s v e).Sound := by
  rw [setPte_low hv hs]
  exact h.withTree s ((h.trees s t hs).setPage hv hopen e)

theorem Sound.refFrame {sys : Sys} (h : sys.Sound) {f : Nat} {pmm : Pmm}
    (hr : sys.pmm.refFrame f = some pmm) : ({ sys with pmm := pmm } : Sys).Sound :=
  ⟨(Pmm.refFrame_some h.wf hr).1, h.ground.refFrame h.wf hr, h.trees⟩

/-- There is a tree for page `v` while `s` is loaded. -/
def Real (sys : Sys) (s v : Nat) : Prop := v < LOW_PAGES → ∃ t, sys.spaces s = some t

/-- All the tables above page `v` are there. -/
def Opened (sys : Sys) (s v : Nat) : Prop := (sys.tree s v).Open v

end Sys

/-! ## §3 Tables on the way

What `ensure_table` and one level of `pte_for` can do, and from it what the
functions that call them in turn can do.
-/

/-- One step of making room for page `v`. -/
inductive Tabled (s v : Nat) (sys : Sys) : Sys → Prop where
  | refused (sys' : Sys) : sys.Took 0 sys' → Tabled s v sys sys'
  | widened (lvl : Nat) (l l' : Link) : (sys.tree s v).tables.get (tableKey lvl v) = some l →
      l'.frame = l.frame →
      Tabled s v sys (sys.setTree s v { sys.tree s v with
        tables := (sys.tree s v).tables.set (tableKey lvl v) l' })
  | made (lvl f : Nat) (sys' : Sys) (l : Link) :
      (sys.tree s v).tables.get (tableKey lvl v) = none → sys.Took f sys' → f ≠ 0 → l.frame = f →
      Tabled s v sys (sys'.setTree s v { sys.tree s v with
        tables := (sys.tree s v).tables.set (tableKey lvl v) l })

/-- Any number of them. -/
inductive Tables (s v : Nat) : Sys → Sys → Prop where
  | done (sys : Sys) : Tables s v sys sys
  | step {sys sys' sys'' : Sys} : Tabled s v sys sys' → Tables s v sys' sys'' → Tables s v sys sys''

variable {s v : Nat} {sys sys' : Sys}

theorem Tables.keep {I : Sys → Prop}
    (hstep : ∀ sys sys', I sys → Tabled s v sys sys' → I sys')
    (h : Tables s v sys sys') (hI : I sys) : I sys' := by
  induction h with
  | done => exact hI
  | step hone _ ih => exact ih (hstep _ _ hI hone)

theorem Tables.trans {sys'' : Sys} (h : Tables s v sys sys')
    (h' : Tables s v sys' sys'') : Tables s v sys sys'' := by
  induction h with
  | done => exact h'
  | step hone _ ih => exact .step hone (ih h')

theorem Tabled.tables (h : Tabled s v sys sys') :
    Tables s v sys sys' := .step h (.done _)

namespace Sys

theorem setTree_real {sys : Sys} {s v : Nat} (h : sys.Real s v) (t : PageTree) :
    (sys.setTree s v t).tree s v = t := by
  by_cases hv : v < LOW_PAGES
  · obtain ⟨t', ht'⟩ := h hv
    rw [setTree_of_space hv ht', tree_of_space hv (withTree_spaces_self ..)]
  · rw [setTree, if_neg hv, tree, if_neg hv]

theorem Real.setTree {sys : Sys} {s v : Nat} (h : sys.Real s v) (t : PageTree) :
    (sys.setTree s v t).Real s v := by
  intro hv
  obtain ⟨t', ht'⟩ := h hv
  exact ⟨t, by rw [setTree_of_space hv ht', withTree_spaces_self]⟩

theorem Real.took {sys sys' : Sys} {s v f : Nat} (h : sys.Real s v) (ht : Took sys f sys') :
    sys'.Real s v := by
  intro hv
  rw [ht.spaces]
  exact h hv

theorem Sound.setTree {sys : Sys} (h : sys.Sound) {s v : Nat} (hreal : sys.Real s v) {t : PageTree}
    (ht : v < LOW_PAGES → t.Wf) : (sys.setTree s v t).Sound := by
  by_cases hv : v < LOW_PAGES
  · obtain ⟨t', ht'⟩ := hreal hv
    rw [setTree_of_space hv ht']
    exact h.withTree s (ht hv)
  · rw [Sys.setTree, if_neg hv]
    exact h.withUpper t

end Sys

theorem Tabled.real (h : Tabled s v sys sys') (hr : sys.Real s v) : sys'.Real s v := by
  cases h with
  | refused _ htook => exact hr.took htook
  | widened => exact hr.setTree _
  | made lvl f sys₁ l _ htook => exact (hr.took htook).setTree _

theorem Tabled.sound (h : Tabled s v sys sys') (hr : sys.Real s v)
    (hsound : sys.Sound) : sys'.Sound := by
  have hwf : v < LOW_PAGES → (sys.tree s v).Wf := by
    intro hv
    obtain ⟨t, ht⟩ := hr hv
    rw [Sys.tree_of_space hv ht]
    exact hsound.trees s t ht
  cases h with
  | refused _ htook => exact hsound.took htook
  | widened => exact hsound.setTree hr fun hv => (hwf hv).setTable _ _
  | made lvl f sys₁ l _ htook =>
    exact (hsound.took htook).setTree (hr.took htook) fun hv => (hwf hv).setTable _ _

theorem Tabled.opened (h : Tabled s v sys sys') (hr : sys.Real s v)
    {k : Nat × Nat} (hk : (sys.tree s v).tables.get k ≠ none) :
    (sys'.tree s v).tables.get k ≠ none := by
  have hset : ∀ (k' : Nat × Nat) (l : Link),
      ((sys.tree s v).tables.set k' l).get k ≠ none := by
    intro k' l
    rw [Table.get_set]
    by_cases hkk : k = k'
    · rw [hkk, update_self]
      simp
    · rwa [update_of_ne hkk]
  cases h with
  | refused _ htook => rwa [htook.tree]
  | widened =>
    rw [Sys.setTree_real hr]
    exact hset _ _
  | made lvl f sys₁ l _ htook =>
    rw [Sys.setTree_real (hr.took htook)]
    exact hset _ _

/-- What making sure of one table is, for the caller: some steps, after which
the table is there unless the answer is no. -/
structure Ensured (s v lvl : Nat) (sys : Sys) (r : Bool × Sys) : Prop where
  tables : Tables s v sys r.2
  there : r.1 = true → (r.2.tree s v).tables.get (tableKey lvl v) ≠ none

theorem ensureTable_spec (h : sys.Sound) (hr : sys.Real s v)
    (lvl flags : Nat) : Ensured s v lvl sys (ensureTable sys s v lvl flags) := by
  unfold ensureTable
  simp only
  cases hl : (sys.tree s v).tables.get (tableKey lvl v) with
  | some l =>
    refine ⟨(Tabled.widened lvl l
      ⟨l.frame, l.write || flags.testBit 1, l.user || flags.testBit 2⟩ hl rfl).tables, fun _ => ?_⟩
    rw [Sys.setTree_real hr, Table.get_set, update_self]
    simp
  | none =>
    have htook := Sys.allocFrame_took h.wf
    simp only
    split
    · rename_i h0
      rw [h0] at htook
      exact ⟨(Tabled.refused _ htook).tables, fun h => absurd h (by simp)⟩
    · rename_i h0
      refine ⟨(Tabled.made lvl _ _ _ hl htook h0 rfl).tables, fun _ => ?_⟩
      rw [Sys.setTree_real (hr.took htook), Table.get_set, update_self]
      simp

theorem makeTable_spec (h : sys.Sound) (hr : sys.Real s v) (lvl : Nat) :
    Ensured s v lvl sys (makeTable sys s v lvl) := by
  unfold makeTable
  simp only
  cases hl : (sys.tree s v).tables.get (tableKey lvl v) with
  | some l => exact ⟨.done _, fun _ => by rw [hl]; simp⟩
  | none =>
    have htook := Sys.allocFrame_took h.wf
    simp only
    split
    · rename_i h0
      rw [h0] at htook
      exact ⟨(Tabled.refused _ htook).tables, fun h => absurd h (by simp)⟩
    · rename_i h0
      refine ⟨(Tabled.made lvl _ _ _ hl htook h0 rfl).tables, fun _ => ?_⟩
      rw [Sys.setTree_real (hr.took htook), Table.get_set, update_self]
      simp

theorem Tables.sound (h : Tables s v sys sys') (hsound : sys.Sound)
    (hr : sys.Real s v) : sys'.Sound ∧ sys'.Real s v :=
  h.keep (I := fun sys => sys.Sound ∧ sys.Real s v)
    (fun _ _ hI hone => ⟨hone.sound hI.2 hI.1, hone.real hI.2⟩) ⟨hsound, hr⟩

theorem Tables.opened (h : Tables s v sys sys') (hr : sys.Real s v)
    {k : Nat × Nat} (hk : (sys.tree s v).tables.get k ≠ none) :
    (sys'.tree s v).tables.get k ≠ none :=
  (h.keep (I := fun sys => sys.Real s v ∧ (sys.tree s v).tables.get k ≠ none)
    (fun _ _ hI hone => ⟨hone.real hI.1, hone.opened hI.1 hI.2⟩) ⟨hr, hk⟩).2

/-- What the walk that makes room for `v` is, for the caller. -/
structure Roomed (s v : Nat) (sys : Sys) (ok : Bool) (sys' : Sys) : Prop where
  tables : Tables s v sys sys'
  sound : sys'.Sound
  real : sys'.Real s v
  opened : ok = true → sys'.Opened s v

theorem opened_of_levels
    (h0 : (sys.tree s v).tables.get (tableKey 0 v) ≠ none)
    (h1 : (sys.tree s v).tables.get (tableKey 1 v) ≠ none)
    (h2 : (sys.tree s v).tables.get (tableKey 2 v) ≠ none) : sys.Opened s v := by
  intro lvl hlvl
  match lvl, hlvl with
  | 0, _ => exact h0
  | 1, _ => exact h1
  | 2, _ => exact h2

theorem makeTables_spec (h : sys.Sound) (hr : sys.Real s v) :
    Roomed s v sys (makeTables sys s v).1 (makeTables sys s v).2 := by
  unfold makeTables
  have h0 := makeTable_spec h hr 0
  rcases hm0 : makeTable sys s v 0 with ⟨ok0, sys0⟩
  rw [hm0] at h0
  obtain ⟨hsound0, hreal0⟩ := h0.tables.sound h hr
  cases ok0 with
  | false => exact ⟨h0.tables, hsound0, hreal0, fun h => absurd h (by simp)⟩
  | true =>
    simp only
    split
    · exact ⟨h0.tables, hsound0, hreal0, fun h => absurd h (by simp)⟩
    · have h1 := makeTable_spec hsound0 hreal0 1
      rcases hm1 : makeTable sys0 s v 1 with ⟨ok1, sys1⟩
      rw [hm1] at h1
      obtain ⟨hsound1, hreal1⟩ := h1.tables.sound hsound0 hreal0
      cases ok1 with
      | false => exact ⟨h0.tables.trans h1.tables, hsound1, hreal1, fun h => absurd h (by simp)⟩
      | true =>
        simp only
        split
        · exact ⟨h0.tables.trans h1.tables, hsound1, hreal1, fun h => absurd h (by simp)⟩
        · have h2 := makeTable_spec hsound1 hreal1 2
          obtain ⟨hsound2, hreal2⟩ := h2.tables.sound hsound1 hreal1
          refine ⟨(h0.tables.trans h1.tables).trans h2.tables, hsound2, hreal2, fun hok => ?_⟩
          exact opened_of_levels
            ((h1.tables.trans h2.tables).opened hreal0 (h0.there rfl))
            (h2.tables.opened hreal1 (h1.there rfl)) (h2.there hok)

theorem pagingMap_spec (h : sys.Sound) (hr : sys.Real s v)
    (frame flags : Nat) :
    ∃ sys', Roomed s v sys (pagingMap sys s v frame flags).1 sys' ∧
      (pagingMap sys s v frame flags).2 =
        if (pagingMap sys s v frame flags).1 then sys'.setPte s v (pteOf frame flags) else sys' := by
  unfold pagingMap
  have h0 := ensureTable_spec h hr 0 flags
  rcases hm0 : ensureTable sys s v 0 flags with ⟨ok0, sys0⟩
  rw [hm0] at h0
  obtain ⟨hsound0, hreal0⟩ := h0.tables.sound h hr
  cases ok0 with
  | false => exact ⟨sys0, ⟨h0.tables, hsound0, hreal0, fun h => absurd h (by simp)⟩, rfl⟩
  | true =>
    simp only
    split
    · exact ⟨sys0, ⟨h0.tables, hsound0, hreal0, fun h => absurd h (by simp)⟩, rfl⟩
    · have h1 := ensureTable_spec hsound0 hreal0 1 flags
      rcases hm1 : ensureTable sys0 s v 1 flags with ⟨ok1, sys1⟩
      rw [hm1] at h1
      obtain ⟨hsound1, hreal1⟩ := h1.tables.sound hsound0 hreal0
      have h01 := h0.tables.trans h1.tables
      cases ok1 with
      | false => exact ⟨sys1, ⟨h01, hsound1, hreal1, fun h => absurd h (by simp)⟩, rfl⟩
      | true =>
        simp only
        split
        · exact ⟨sys1, ⟨h01, hsound1, hreal1, fun h => absurd h (by simp)⟩, rfl⟩
        · have h2 := ensureTable_spec hsound1 hreal1 2 flags
          rcases hm2 : ensureTable sys1 s v 2 flags with ⟨ok2, sys2⟩
          rw [hm2] at h2
          obtain ⟨hsound2, hreal2⟩ := h2.tables.sound hsound1 hreal1
          have h02 := h01.trans h2.tables
          cases ok2 with
          | false => exact ⟨sys2, ⟨h02, hsound2, hreal2, fun h => absurd h (by simp)⟩, rfl⟩
          | true =>
            refine ⟨sys2, ⟨h02, hsound2, hreal2, fun _ => ?_⟩, rfl⟩
            exact opened_of_levels
              ((h1.tables.trans h2.tables).opened hreal0 (h0.there rfl))
              (h2.tables.opened hreal1 (h1.there rfl)) (h2.there rfl)

/-! ## §4 What making room leaves alone -/

/-- The memory, the entries and the frames that have owners are as they were. -/
structure Calm (sys sys' : Sys) : Prop where
  entry : ∀ s v, sys'.entry s v = sys.entry s v
  here : ∀ s, sys'.spaces s = none ↔ sys.spaces s = none
  zero : sys'.zero = sys.zero
  mem : sys'.mem = sys.mem
  live : sys'.live = sys.live
  owners : ∀ f, 0 < sys.pmm.frameOwners f → sys'.pmm.frameOwners f = sys.pmm.frameOwners f
  ready : sys'.pmm.ready = sys.pmm.ready
  frameCount : sys'.pmm.frameCount = sys.pmm.frameCount
  ram : sys'.pmm.ram = sys.pmm.ram

namespace Calm

variable {sys sys' sys'' : Sys}

theorem refl (sys : Sys) : Calm sys sys :=
  ⟨fun _ _ => rfl, fun _ => Iff.rfl, rfl, rfl, rfl, fun _ _ => rfl, rfl, rfl, rfl⟩

theorem trans (h : Calm sys sys') (h' : Calm sys' sys'') : Calm sys sys'' where
  entry s v := (h'.entry s v).trans (h.entry s v)
  here s := (h'.here s).trans (h.here s)
  zero := h'.zero.trans h.zero
  mem := h'.mem.trans h.mem
  live := h'.live.trans h.live
  owners f hf := by
    have hsame := h.owners f hf
    rw [h'.owners f (by omega), hsame]
  ready := h'.ready.trans h.ready
  frameCount := h'.frameCount.trans h.frameCount
  ram := h'.ram.trans h.ram

theorem owns (h : Calm sys sys') (f : Nat) : sys'.pmm.owns f = sys.pmm.owns f := by
  rw [Pmm.owns, Pmm.owns, h.ready, h.frameCount, h.ram]

theorem took {f : Nat} (h : sys.Took f sys') (hground : sys.pmm.Grounded) : Calm sys sys' where
  entry := h.entry
  here s := by rw [h.spaces]
  zero := h.zero
  mem := h.mem
  live := h.live
  owners g hg := by
    by_cases hgf : g = f
    · subst hgf
      by_cases h0 : g = 0
      · rw [h.pmm.none h0 hground]
      · have := (h.pmm.fresh h0).2.1
        omega
    · exact h.pmm.other g hgf
  ready := h.pmm.ready
  frameCount := h.pmm.frameCount
  ram := h.pmm.ram

theorem setTree {s v : Nat} {t : PageTree} (ht : t.pages = (sys.tree s v).pages) :
    Calm sys (sys.setTree s v t) := by
  by_cases hv : v < LOW_PAGES
  · cases hs : sys.spaces s with
    | none =>
      have hsame : sys.setTree s v t = sys := by rw [Sys.setTree, if_pos hv, hs]
      rw [hsame]
      exact refl sys
    | some t₀ =>
      rw [Sys.setTree_of_space hv hs]
      rw [Sys.tree_of_space hv hs] at ht
      refine ⟨fun s' v' => ?_, fun s' => ?_, rfl, rfl, rfl, fun _ _ => rfl, rfl, rfl, rfl⟩
      · by_cases hss : s' = s
        · subst hss
          rw [Sys.entry_of_space (Sys.withTree_spaces_self ..), Sys.entry_of_space hs, ht]
        · rw [Sys.entry, Sys.entry, Sys.withTree_spaces_ne _ _ hss]
      · by_cases hss : s' = s
        · subst hss
          simp [hs]
        · rw [Sys.withTree_spaces_ne _ _ hss]
  · rw [Sys.setTree, if_neg hv]
    exact ⟨fun _ _ => rfl, fun _ => Iff.rfl, rfl, rfl, rfl, fun _ _ => rfl, rfl, rfl, rfl⟩

end Calm

theorem Tabled.calm (h : Tabled s v sys sys') (hground : sys.pmm.Grounded) : Calm sys sys' := by
  cases h with
  | refused _ htook => exact .took htook hground
  | widened => exact .setTree rfl
  | made lvl f sys₁ l _ htook =>
    refine (Calm.took htook hground).trans (.setTree ?_)
    rw [htook.tree]

theorem Tables.calm (h : Tables s v sys sys') (hsound : sys.Sound)
    (hr : sys.Real s v) : Calm sys sys' :=
  (h.keep (I := fun sys' => sys'.Sound ∧ sys'.Real s v ∧ Calm sys sys')
    (fun _ _ hI hone => ⟨hone.sound hI.2.1 hI.1, hone.real hI.2.1,
      hI.2.2.trans (hone.calm hI.1.ground)⟩) ⟨hsound, hr, .refl sys⟩).2.2

namespace Sys

/-- The zero frame, once there is one, has an owner. -/
def ZeroHeld (sys : Sys) : Prop := sys.zero ≠ 0 → 0 < sys.pmm.frameOwners sys.zero

theorem ZeroHeld.calm {sys sys' : Sys} (h : sys.ZeroHeld) (hc : Calm sys sys') : sys'.ZeroHeld := by
  intro h0
  rw [hc.zero] at h0 ⊢
  have := h h0
  rw [hc.owners _ this]
  exact this

theorem ZeroHeld.fresh {sys sys' : Sys} (h : sys.ZeroHeld) {f : Nat} (ht : sys.Took f sys')
    (hf : f ≠ 0) : f ≠ sys'.zero := by
  intro heq
  rw [ht.zero] at heq
  have hfree := (ht.pmm.fresh hf).2.1
  have := h (heq ▸ hf)
  rw [← heq] at this
  omega

end Sys

theorem Tables.upper (h : Tables s v sys sys') (hv : v < LOW_PAGES) : sys'.upper = sys.upper := by
  have hset : ∀ (sys : Sys) (t : PageTree), (sys.setTree s v t).upper = sys.upper := by
    intro sys t
    rw [Sys.setTree, if_pos hv]
    split <;> rfl
  refine h.keep (I := fun sys' => sys'.upper = sys.upper) (fun _ _ hI hone => ?_) rfl
  cases hone with
  | refused _ htook => rw [htook.upper, hI]
  | widened => rw [hset, hI]
  | made lvl f sys₁ l _ htook => rw [hset, htook.upper, hI]

namespace Roomed

variable {s v : Nat} {sys sys' : Sys} {ok : Bool}

theorem space (h : Roomed s v sys true sys') (hv : v < LOW_PAGES) :
    ∃ t, sys'.spaces s = some t ∧ t.Open v := by
  obtain ⟨t, ht⟩ := h.real hv
  refine ⟨t, ht, ?_⟩
  have hopen := h.opened rfl
  rwa [Sys.Opened, Sys.tree_of_space hv ht] at hopen

end Roomed

end NovarisOS.Uspace64
