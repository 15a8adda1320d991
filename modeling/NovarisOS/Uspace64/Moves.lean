/-
NovarisOS.Uspace64.Moves — the memory calls as moves of frames.

A `Move` is one thing that a function of `kernel/vmspace64.c` or
`kernel/uspace64.c` does: a frame is allocated, referred to or given up, an
entry is written or taken away, a table put in. Between the moves of one
function some frames are in its hands. What a function is made of is said
once, in the sections below; what the moves keep is said once per property
(`Books.move` here), and every call keeps it then.
-/
import NovarisOS.Uspace64.Ledger

namespace NovarisOS.Uspace64

open Function (update update_idem update_of_ne update_self)
open Pmm64 (Pmm)
open Vmspace64 (Pte)

/-- An entry or a file has the frame `f`, and it is not the zero frame. -/
def Named (files : Nat → List Nat) (sys : Sys) (f : Nat) : Prop :=
  (∃ s v e, sys.entry s v = some e ∧ e.frame = f ∧ f ≠ sys.zero) ∨ ∃ i, f ∈ files i

/-- The entry is one that nobody writes through, or a copy of another. -/
def Quiet (sys : Sys) (e : Pte) : Prop :=
  (e.write = false ∧ e.cow = false ∧ sys.zero ≠ 0) ∨ ∃ s v, sys.entry s v = some e

/-- One move, of the frames in hand and the machine. -/
inductive Move (watch : Nat → Bool) (files : Nat → List Nat) :
    List Nat × Sys → List Nat × Sys → Prop where
  | refused {hand : List Nat} {sys sys' : Sys} : sys.Took 0 sys' →
      Move watch files (hand, sys) (hand, sys')
  | take {hand : List Nat} {sys sys' : Sys} {f : Nat} : sys.Took f sys' → f ≠ 0 →
      Move watch files (hand, sys) (f :: hand, sys')
  | refer {hand : List Nat} {sys : Sys} {pmm : Pmm} {f : Nat} :
      sys.pmm.refFrame f = some pmm → Named files sys f →
      Move watch files (hand, sys) (f :: hand, { sys with pmm := pmm })
  | give {hand : List Nat} {sys : Sys} {f : Nat} :
      Move watch files (f :: hand, sys) (hand, sys.free f)
  | table {hand : List Nat} {sys sys' : Sys} {s v : Nat} : watch s = true → v < LOW_PAGES →
      sys.Real s v → Tabled s v sys sys' → Move watch files (hand, sys) (hand, sys')
  | put {hand : List Nat} {sys : Sys} {s v : Nat} {t : PageTree} {e : Pte} : watch s = true →
      v < LOW_PAGES → sys.spaces s = some t → t.Open v → (t.pages.get v).bind sys.holds = none →
      e.frame ≠ sys.zero → Move watch files (e.frame :: hand, sys) (hand, sys.setPte s v e)
  | putZero {hand : List Nat} {sys : Sys} {s v : Nat} {t : PageTree} {e : Pte} : v < LOW_PAGES →
      sys.spaces s = some t → t.Open v → (t.pages.get v).bind sys.holds = none →
      e.frame = sys.zero → Quiet sys e → Move watch files (hand, sys) (hand, sys.setPte s v e)
  | swap {hand : List Nat} {sys : Sys} {s v : Nat} {t : PageTree} {e e' : Pte} : watch s = true →
      sys.spaces s = some t → t.pages.get v = some e → e.frame ≠ sys.zero → e'.frame ≠ sys.zero →
      Move watch files (e'.frame :: hand, sys) (e.frame :: hand, sys.setPte s v e')
  | repage {hand : List Nat} {sys : Sys} {s v : Nat} {t : PageTree} {e e' : Pte} :
      sys.spaces s = some t → t.pages.get v = some e → e'.frame = e.frame →
      (e.frame = sys.zero → e'.write = false ∧ e'.cow = e.cow) →
      Move watch files (hand, sys) (hand, sys.setPte s v e')
  | pick {hand : List Nat} {sys : Sys} {s v : Nat} {t : PageTree} {e : Pte} : watch s = true →
      sys.spaces s = some t → t.pages.get v = some e → e.frame ≠ sys.zero →
      Move watch files (hand, sys) (e.frame :: hand, sys.clearPte s v)
  | dropZero {hand : List Nat} {sys : Sys} {s v : Nat} {t : PageTree} {e : Pte} :
      sys.spaces s = some t → t.pages.get v = some e → e.frame = sys.zero →
      Move watch files (hand, sys) (hand, sys.clearPte s v)
  | memory {hand : List Nat} {sys : Sys} (mem : Nat → Mem) :
      Move watch files (hand, sys) (hand, { sys with mem := mem })
  | zeroed {hand : List Nat} {sys : Sys} {f : Nat} : watch KERNEL_SPACE = true → sys.zero = 0 →
      f ≠ 0 → sys.pmm.frameOwners f = 1 → (∀ s v e, sys.entry s v = some e → e.frame ≠ 0) →
      Move watch files (f :: hand, sys) (hand, { sys with zero := f })

/-- Any number of moves. -/
abbrev Moves (watch : Nat → Bool) (files : Nat → List Nat) :
    List Nat × Sys → List Nat × Sys → Prop :=
  Relation.ReflTransGen (Move watch files)

section

variable {watch : Nat → Bool} {files : Nat → List Nat} {base : Nat → Nat}

theorem Moves.keep {I : List Nat × Sys → Prop} (hstep : ∀ x y, I x → Move watch files x y → I y)
    {x y : List Nat × Sys} (h : Moves watch files x y) (hI : I x) : I y := by
  induction h with
  | refl => exact hI
  | tail _ hone ih => exact hstep _ _ ih hone

variable {sys sys' : Sys} {hand hand' : List Nat}

theorem Books.zeroed {f : Nat}
    (h : Books watch files base (f :: hand) sys) (hw : watch KERNEL_SPACE = true)
    (h0 : sys.zero = 0) (hf : f ≠ 0) (hone : sys.pmm.frameOwners f = 1)
    (hpages : ∀ s v e, sys.entry s v = some e → e.frame ≠ 0) :
    Books watch files base hand { sys with zero := f } where
  sound := ⟨h.sound.wf, h.sound.ground, h.sound.trees⟩
  ground := h.ground
  tally := by
    have hnot : ∀ k, sys.held watch files k ≠ some f := by
      intro k hk
      have := h.tally.held_pos hk
      rw [List.count_cons_self, hone] at this
      omega
    have hzero : sys.held watch files .zero = none := by simp [Sys.held, h0]
    refine (h.tally.put hzero).congr (fun k => ?_) fun _ => rfl
    cases k with
    | page s v =>
      rw [update_of_ne (by simp)]
      have hk := hnot (.page s v)
      simp only [Sys.held] at hk ⊢
      by_cases hws : watch s = true
      · rw [if_pos hws] at hk
        rw [if_pos hws, if_pos hws]
        cases he : sys.entry s v with
        | none =>
          have : ({ sys with zero := f } : Sys).entry s v = none := he
          rw [this]
          rfl
        | some e =>
          have : ({ sys with zero := f } : Sys).entry s v = some e := he
          have hne0 : e.frame ≠ 0 := hpages s v e he
          rw [this]
          rw [he] at hk
          simp only [Option.bind_some, Sys.holds, h0, hne0, if_false] at hk ⊢
          have hnef : e.frame ≠ f := fun h => hk (by rw [h])
          rw [if_neg hnef]
      · rw [if_neg hws, if_neg hws]
    | table s k =>
      rw [update_of_ne (by simp)]
      rfl
    | root s =>
      rw [update_of_ne (by simp)]
      rfl
    | file i j =>
      rw [update_of_ne (by simp)]
      rfl
    | zero =>
      rw [update_self]
      simp [Sys.held, hw, hf]

theorem Books.swap {hand : List Nat} {sys : Sys} {s v : Nat} {t : PageTree} {e e' : Pte}
    (h : Books watch files base (e'.frame :: hand) sys) (hw : watch s = true)
    (hs : sys.spaces s = some t) (he : t.pages.get v = some e) (hz : e.frame ≠ sys.zero)
    (hz' : e'.frame ≠ sys.zero) : Books watch files base (e.frame :: hand) (sys.setPte s v e') := by
  have ht := h.sound.trees s t hs
  rw [Sys.setPte_low (ht.low v e he) hs]
  refine h.withTree (ht.setPage (ht.low v e he) (ht.rooted v e he) e') ?_
  rw [Sys.held_pages hs hw (t.pages.get_set v e')]
  have hholds : (some e').bind sys.holds = some e'.frame := by simp [Sys.holds, hz']
  have hheld : sys.held watch files (.page s v) = some e.frame := by
    rw [Books.held_page hw, Sys.entry_of_space hs, he]
    simp [Sys.holds, hz]
  have hpicked := h.tally.pick hheld
  have hswapped : Tallied (update (sys.held watch files) (.page s v) none) base
      (e'.frame :: e.frame :: hand) sys.pmm.frameOwners := by
    intro f
    obtain ⟨K, hK, hcount⟩ := hpicked f
    refine ⟨K, hK, ?_⟩
    rw [← hcount, List.Perm.count_eq (List.Perm.swap ..)]
  have hput := hswapped.put (k := .page s v) (update_self ..)
  rw [update_idem] at hput
  rw [hholds]
  exact hput

theorem Books.move (h : Books watch files base hand sys)
    (hm : Move watch files (hand, sys) (hand', sys')) : Books watch files base hand' sys' := by
  cases hm with
  | refused ht => exact h.refused ht
  | take ht hf => exact h.took ht hf
  | refer hr _ => exact h.ref hr
  | give => exact h.free
  | table hw hv hreal ht => exact h.tabled hw hv hreal ht
  | put hw hv hs hopen hnone hz => exact h.putPage hw hv hs hopen hnone hz
  | putZero hv hs hopen hnone hz _ => exact h.putZero hv hs hopen hnone hz
  | swap hw hs he hz hz' => exact h.swap hw hs he hz hz'
  | repage hs he hframe _ => exact h.repage hs he hframe
  | pick hw hs he hz => exact h.pickPage hw hs he hz
  | dropZero hs he hz => exact h.dropZero hs he hz
  | memory mem => exact h.congr rfl rfl rfl
  | zeroed hw h0 hf hone hpages => exact h.zeroed hw h0 hf hone hpages

theorem Books.moves (h : Books watch files base hand sys)
    (hm : Moves watch files (hand, sys) (hand', sys')) : Books watch files base hand' sys' :=
  hm.keep (I := fun x => Books watch files base x.1 x.2) (fun _ _ hI hone => hI.move hone) h

/-- What no move touches: the kernel's half, which spaces there are, the
table of live ones, and how many frames the machine has. -/
structure Steady (sys sys' : Sys) : Prop where
  upper : sys'.upper = sys.upper
  here : ∀ s, sys'.spaces s = none ↔ sys.spaces s = none
  live : sys'.live = sys.live
  frameCount : sys'.pmm.frameCount = sys.pmm.frameCount

theorem Steady.refl (sys : Sys) : Steady sys sys := ⟨rfl, fun _ => Iff.rfl, rfl, rfl⟩

theorem Steady.trans {sys'' : Sys} (h : Steady sys sys') (h' : Steady sys' sys'') :
    Steady sys sys'' :=
  ⟨h'.upper.trans h.upper, fun s => (h'.here s).trans (h.here s), h'.live.trans h.live,
    h'.frameCount.trans h.frameCount⟩

theorem Steady.setTree {s v : Nat} (hv : v < LOW_PAGES) (t : PageTree) :
    Steady sys (sys.setTree s v t) := by
  rw [Sys.setTree, if_pos hv]
  cases hs : sys.spaces s with
  | none => exact .refl sys
  | some t₀ =>
    refine ⟨rfl, fun s' => ?_, rfl, rfl⟩
    show update sys.spaces s (some t) s' = none ↔ _
    by_cases hss : s' = s
    · subst hss
      simp [hs]
    · rw [update_of_ne hss]

theorem Steady.took {f : Nat} (h : sys.Took f sys') : Steady sys sys' :=
  ⟨h.upper, fun s => by rw [h.spaces], h.live, h.pmm.frameCount⟩

theorem Tabled.steady {s v : Nat} (h : Tabled s v sys sys') (hv : v < LOW_PAGES) :
    Steady sys sys' := by
  cases h with
  | refused _ htook => exact .took htook
  | widened => exact .setTree hv _
  | made lvl f sys₁ l _ htook => exact (Steady.took htook).trans (.setTree hv _)

theorem Move.steady (hsound : sys.Sound)
    (hm : Move watch files (hand, sys) (hand', sys')) : Steady sys sys' := by
  have hlow : ∀ {s v : Nat} {t : PageTree} {e : Pte}, sys.spaces s = some t →
      t.pages.get v = some e → v < LOW_PAGES := fun hs he => (hsound.trees _ _ hs).low _ _ he
  cases hm with
  | refused ht => exact .took ht
  | take ht _ => exact .took ht
  | refer hr _ =>
    exact ⟨rfl, fun _ => Iff.rfl, rfl, (Pmm.refFrame_some hsound.wf hr).2.2.2.2.2.1⟩
  | give => exact ⟨rfl, fun _ => Iff.rfl, rfl, (Pmm.freeFrame_fields sys.pmm _).2.1⟩
  | table _ hv _ ht => exact ht.steady hv
  | put _ hv => exact .setTree hv _
  | putZero hv => exact .setTree hv _
  | swap _ hs he => exact .setTree (hlow hs he) _
  | repage hs he => exact .setTree (hlow hs he) _
  | pick _ hs he => exact .setTree (hlow hs he) _
  | dropZero hs he => exact .setTree (hlow hs he) _
  | memory => exact ⟨rfl, fun _ => Iff.rfl, rfl, rfl⟩
  | zeroed => exact ⟨rfl, fun _ => Iff.rfl, rfl, rfl⟩

end

end NovarisOS.Uspace64
