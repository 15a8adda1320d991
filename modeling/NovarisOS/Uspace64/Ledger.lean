/-
NovarisOS.Uspace64.Ledger — who owns a frame.

The places that hold frames are the entries of the spaces, their tables and
their PML4s, the files, and `get_zero_frame`. An entry of the zero page does
not hold the frame it names, and the kernel's other frames are held nowhere
here: they are the `base` of the count.
-/
import NovarisOS.Lib.Owners
import NovarisOS.Uspace64.PagingTheorems

namespace NovarisOS.Uspace64

open Function (update update_eq_self update_of_ne update_self)
open Pmm64 (Pmm)
open Vmspace64 (Pte tableKey)

/-- Where a frame can be held. -/
inductive Place where
  | page (s v : Nat)
  | table (s : Nat) (k : Nat × Nat)
  | root (s : Nat)
  | file (i j : Nat)
  | zero
  deriving DecidableEq

namespace Sys

/-- The frame an entry holds; the zero page's is nobody's in particular. -/
def holds (sys : Sys) (e : Pte) : Option Nat := if e.frame = sys.zero then none else some e.frame

/-- What the places hold: of the spaces under watch (the zero frame is the
kernel's), and of the files. -/
def held (watch : Nat → Bool) (files : Nat → List Nat) (sys : Sys) : Place → Option Nat
  | .page s v => if watch s then (sys.entry s v).bind sys.holds else none
  | .table s k => if watch s then (sys.spaces s).bind fun t => (t.tables.get k).map Link.frame else none
  | .root s => if watch s then (sys.spaces s).map fun _ => s else none
  | .file i j => (files i)[j]?
  | .zero => if watch KERNEL_SPACE && sys.zero != 0 then some sys.zero else none

theorem held_congr {watch : Nat → Bool} {files : Nat → List Nat} {sys sys' : Sys}
    (hspaces : sys'.spaces = sys.spaces) (hzero : sys'.zero = sys.zero) :
    sys'.held watch files = sys.held watch files := by
  have hholds : sys'.holds = sys.holds := by
    funext e
    rw [holds, holds, hzero]
  funext k
  cases k <;> simp only [held, entry, hspaces, hholds, hzero]

section Held

variable {watch : Nat → Bool} {files : Nat → List Nat} {sys : Sys} {s : Nat} {t : PageTree}

/-- A place that a change of one space's tree does not touch. -/
theorem held_withTree_of (hs : sys.spaces s = some t) {t' : PageTree} (k : Place)
    (hpage : ∀ v, k = .page s v → t'.pages.get v = t.pages.get v)
    (htable : ∀ x, k = .table s x → t'.tables.get x = t.tables.get x) :
    (sys.withTree s t').held watch files k = sys.held watch files k := by
  have hother : ∀ s', s' ≠ s → (sys.withTree s t').spaces s' = sys.spaces s' := fun s' hss => withTree_spaces_ne _ _ hss
  cases k with
  | page s' v' =>
    by_cases hss : s' = s
    · subst hss
      rw [held, held, entry_of_space (withTree_spaces_self ..), entry_of_space hs, hpage v' rfl]
      rfl
    · simp only [held, entry, hother s' hss]
      rfl
  | table s' k' =>
    by_cases hss : s' = s
    · subst hss
      simp only [held, withTree_spaces_self, hs, Option.bind_some, htable k' rfl]
    · simp only [held, hother s' hss]
  | root s' =>
    by_cases hss : s' = s
    · subst hss
      simp [held, hs]
    · simp only [held, hother s' hss]
  | file i j => rfl
  | zero => rfl

theorem held_pages (hs : sys.spaces s = some t) (hw : watch s = true) {v : Nat}
    {pages : Table Nat Pte} {e : Option Pte} (hpages : pages.get = update t.pages.get v e) :
    (sys.withTree s { t with pages := pages }).held watch files =
      update (sys.held watch files) (.page s v) (e.bind sys.holds) := by
  funext k
  by_cases hk : k = .page s v
  · rw [hk, update_self, held, if_pos hw, entry_of_space (withTree_spaces_self ..), hpages, update_self]
    rfl
  · rw [update_of_ne hk]
    refine held_withTree_of hs k (fun v' hv => ?_) fun _ _ => rfl
    rw [hpages, update_of_ne (by rintro rfl; exact hk hv)]

theorem held_setTable (hs : sys.spaces s = some t) (hw : watch s = true) (k : Nat × Nat) (l : Link) :
    (sys.withTree s { t with tables := t.tables.set k l }).held watch files =
      update (sys.held watch files) (.table s k) (some l.frame) := by
  funext x
  by_cases hx : x = .table s k
  · rw [hx, update_self]
    simp [held, hw]
  · rw [update_of_ne hx]
    refine held_withTree_of hs x (fun _ _ => rfl) fun k' hk => ?_
    rw [Table.get_set, update_of_ne (by rintro rfl; exact hx hk)]

theorem held_unwatched (hw : watch s = false) (t : PageTree) :
    (sys.withTree s t).held watch files = sys.held watch files := by
  funext k
  cases k with
  | page s' v' =>
    by_cases hss : s' = s
    · subst hss
      simp [held, hw]
    · simp only [held, entry, withTree_spaces_ne _ _ hss]
      rfl
  | table s' k' =>
    by_cases hss : s' = s
    · subst hss
      simp [held, hw]
    · simp only [held, withTree_spaces_ne _ _ hss]
  | root s' =>
    by_cases hss : s' = s
    · subst hss
      simp [held, hw]
    · simp only [held, withTree_spaces_ne _ _ hss]
  | file i j => rfl
  | zero => rfl

end Held

end Sys

/-- The owner counts are right. -/
structure Books (watch : Nat → Bool) (files : Nat → List Nat) (base : Nat → Nat) (hand : List Nat)
    (sys : Sys) : Prop where
  sound : sys.Sound
  ground : sys.pmm.ready = true → 0 < sys.pmm.frameCount → 0 < base 0
  tally : Tallied (sys.held watch files) base hand sys.pmm.frameOwners

namespace Books

variable {watch : Nat → Bool} {files : Nat → List Nat} {base : Nat → Nat} {hand : List Nat}
  {sys : Sys}

/-! ## The allocator -/

theorem congr {sys' : Sys} (h : Books watch files base hand sys) (hpmm : sys'.pmm = sys.pmm)
    (hspaces : sys'.spaces = sys.spaces) (hzero : sys'.zero = sys.zero) :
    Books watch files base hand sys' where
  sound := by
    refine ⟨?_, ?_, ?_⟩
    · rw [hpmm]
      exact h.sound.wf
    · rw [hpmm]
      exact h.sound.ground
    · intro s t hs
      rw [hspaces] at hs
      exact h.sound.trees s t hs
  ground := by
    rw [hpmm]
    exact h.ground
  tally := by
    rw [Sys.held_congr hspaces hzero, hpmm]
    exact h.tally

theorem took {sys' : Sys} {f : Nat} (h : Books watch files base hand sys) (ht : sys.Took f sys')
    (hf : f ≠ 0) : Books watch files base (f :: hand) sys' where
  sound := h.sound.took ht
  ground := by
    rw [ht.pmm.ready, ht.pmm.frameCount]
    exact h.ground
  tally := by
    have hfree : sys.pmm.frameOwners f = 0 := (ht.pmm.fresh hf).2.1
    have htally := h.tally.take f
    rw [hfree] at htally
    rw [Sys.held_congr ht.spaces ht.zero, ht.owners hf]
    exact htally

theorem refused {sys' : Sys} (h : Books watch files base hand sys) (ht : sys.Took 0 sys') :
    Books watch files base hand sys' where
  sound := h.sound.took ht
  ground := by
    rw [ht.pmm.ready, ht.pmm.frameCount]
    exact h.ground
  tally := by
    rw [Sys.held_congr ht.spaces ht.zero, ht.pmm.none rfl h.sound.ground]
    exact h.tally

theorem ref {pmm : Pmm} {f : Nat} (h : Books watch files base hand sys)
    (hr : sys.pmm.refFrame f = some pmm) :
    Books watch files base (f :: hand) { sys with pmm := pmm } := by
  obtain ⟨hwf, howners, -, -, hready, hcount, -, -⟩ := Pmm.refFrame_some h.sound.wf hr
  refine ⟨⟨hwf, h.sound.ground.refFrame h.sound.wf hr, h.sound.trees⟩, ?_, ?_⟩
  · rw [hready, hcount]
    exact h.ground
  · refine (h.tally.take f).congr (fun k => ?_) fun g => by rw [howners]
    cases k <;> rfl

theorem free {f : Nat} (h : Books watch files base (f :: hand) sys) :
    Books watch files base hand (sys.free f) := by
  obtain ⟨hready, hcount, -⟩ := Pmm.freeFrame_fields sys.pmm f
  have htally : Tallied ((sys.free f).held watch files) base hand (sys.free f).pmm.frameOwners := by
    refine h.tally.give.congr (fun k => ?_) fun g => ?_
    · cases k <;> rfl
    · show (sys.pmm.freeFrame f).frameOwners g = _
      rw [Pmm.frameOwners_freeFrame]
  refine ⟨⟨h.sound.wf.freeFrame f, h.sound.ground.freeFrame fun hr h0 => ?_, h.sound.trees⟩, ?_, htally⟩
  · have := h.ground hr h0
    have : _ ≤ (sys.pmm.freeFrame f).frameOwners 0 := htally.outside_le 0
    omega
  · show (sys.pmm.freeFrame f).ready = true → 0 < (sys.pmm.freeFrame f).frameCount → _
    rw [hready, hcount]
    exact h.ground

/-! ## Entries and tables -/

section Space

variable {s v : Nat} {t : PageTree}

theorem held_page (hw : watch s = true) : sys.held watch files (.page s v) =
    (sys.entry s v).bind sys.holds := by
  rw [Sys.held, if_pos hw]

theorem withTree {hand' : List Nat} (h : Books watch files base hand sys) (ht : t.Wf)
    (htally : Tallied ((sys.withTree s t).held watch files) base hand' sys.pmm.frameOwners) :
    Books watch files base hand' (sys.withTree s t) :=
  ⟨h.sound.withTree s ht, h.ground, htally⟩

/-- A page that holds as much as before. -/
theorem samePage (h : Books watch files base hand sys) (hs : sys.spaces s = some t) {pages : Table Nat Pte}
    (ht : PageTree.Wf { t with pages := pages }) {e : Option Pte} (hpages : pages.get = update t.pages.get v e)
    (hold : (t.pages.get v).bind sys.holds = e.bind sys.holds) :
    Books watch files base hand (sys.withTree s { t with pages := pages }) := by
  refine h.withTree ht ?_
  by_cases hw : watch s = true
  · rw [Sys.held_pages hs hw hpages, ← hold, ← Sys.entry_of_space hs, ← held_page hw, update_eq_self]
    exact h.tally
  · rw [Sys.held_unwatched (by simpa using hw)]
    exact h.tally

theorem repage (h : Books watch files base hand sys) (hs : sys.spaces s = some t) {e e' : Pte}
    (he : t.pages.get v = some e) (hframe : e'.frame = e.frame) :
    Books watch files base hand (sys.setPte s v e') := by
  have ht := h.sound.trees s t hs
  rw [Sys.setPte_low (ht.low v e he) hs]
  refine h.samePage hs (ht.setPage (ht.low v e he) (ht.rooted v e he) e') (t.pages.get_set v e') ?_
  simp [he, Sys.holds, hframe]

theorem putPage {e : Pte} (h : Books watch files base (e.frame :: hand) sys) (hw : watch s = true)
    (hv : v < LOW_PAGES) (hs : sys.spaces s = some t) (hopen : t.Open v)
    (hnone : (t.pages.get v).bind sys.holds = none) (hz : e.frame ≠ sys.zero) :
    Books watch files base hand (sys.setPte s v e) := by
  have ht := h.sound.trees s t hs
  rw [Sys.setPte_low hv hs]
  refine h.withTree (ht.setPage hv hopen e) ?_
  rw [Sys.held_pages hs hw (t.pages.get_set v e)]
  have hholds : (some e).bind sys.holds = some e.frame := by simp [Sys.holds, hz]
  rw [hholds]
  exact h.tally.put (by rw [held_page hw, Sys.entry_of_space hs, hnone])

theorem putZero {e : Pte} (h : Books watch files base hand sys)
    (hv : v < LOW_PAGES) (hs : sys.spaces s = some t) (hopen : t.Open v)
    (hnone : (t.pages.get v).bind sys.holds = none) (hz : e.frame = sys.zero) :
    Books watch files base hand (sys.setPte s v e) := by
  have ht := h.sound.trees s t hs
  rw [Sys.setPte_low hv hs]
  refine h.samePage hs (ht.setPage hv hopen e) (t.pages.get_set v e) ?_
  rw [hnone]
  simp [Sys.holds, hz]

theorem pickPage {e : Pte} (h : Books watch files base hand sys) (hw : watch s = true)
    (hs : sys.spaces s = some t) (he : t.pages.get v = some e) (hz : e.frame ≠ sys.zero) :
    Books watch files base (e.frame :: hand) (sys.clearPte s v) := by
  have ht := h.sound.trees s t hs
  rw [Sys.clearPte_low (ht.low v e he) hs]
  refine h.withTree (ht.erasePage v) ?_
  rw [Sys.held_pages hs hw (t.pages.get_erase v)]
  refine h.tally.pick ?_
  rw [held_page hw, Sys.entry_of_space hs, he]
  simp [Sys.holds, hz]

theorem dropZero {e : Pte} (h : Books watch files base hand sys)
    (hs : sys.spaces s = some t) (he : t.pages.get v = some e) (hz : e.frame = sys.zero) :
    Books watch files base hand (sys.clearPte s v) := by
  have ht := h.sound.trees s t hs
  rw [Sys.clearPte_low (ht.low v e he) hs]
  refine h.samePage hs (ht.erasePage v) (t.pages.get_erase v) ?_
  simp [he, Sys.holds, hz]

end Space

theorem tabled {s v : Nat} {sys' : Sys} (h : Books watch files base hand sys)
    (hw : watch s = true) (hv : v < LOW_PAGES) (hr : sys.Real s v) (hstep : Tabled s v sys sys') :
    Books watch files base hand sys' := by
  obtain ⟨t, hs⟩ := hr hv
  have ht := h.sound.trees s t hs
  have htree : sys.tree s v = t := Sys.tree_of_space hv hs
  have hplace : ∀ k, sys.held watch files (.table s k) = (t.tables.get k).map Link.frame := by
    intro k
    simp [Sys.held, hw, hs]
  cases hstep with
  | refused _ htook => exact h.refused htook
  | widened lvl l l' hl hframe =>
    rw [htree] at hl ⊢
    rw [Sys.setTree_of_space hv hs]
    refine h.withTree (ht.setTable _ _) ?_
    have hold : sys.held watch files (.table s (tableKey lvl v)) = some l'.frame := by
      rw [hplace, hl, hframe]
      rfl
    rw [Sys.held_setTable hs hw, ← hold, update_eq_self]
    exact h.tally
  | made lvl f sys₁ l hnone htook hf hframe =>
    have htaken := h.took htook hf
    have hs' : sys₁.spaces s = some t := by rw [htook.spaces, hs]
    rw [htree] at hnone ⊢
    rw [Sys.setTree_of_space hv hs']
    refine htaken.withTree (ht.setTable _ _) ?_
    rw [Sys.held_setTable hs' hw, hframe]
    refine htaken.tally.put ?_
    rw [Sys.held_congr htook.spaces htook.zero, hplace, hnone]
    rfl

end Books

end NovarisOS.Uspace64
