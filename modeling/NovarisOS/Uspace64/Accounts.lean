/-
NovarisOS.Uspace64.Accounts — what holds of the whole machine between any two
moves.

With every space under watch the books say who owns a frame, and more can be
said (`Ledger`): what is held is memory and none of the kernel's own; a table,
a PML4 and the zero frame have one owner; no entry that names the zero frame
can be written through, now or after a fault. `Ledger.move` is the step,
`Ledger.moves` the run.
-/
import NovarisOS.Uspace64.Lifetimes

namespace NovarisOS.Uspace64

open Function (update update_eq_self update_of_ne update_self)
open Pmm64 (Pmm)
open Vmspace64 (Pte)

/-- Every space is under watch. -/
def everywhere : Nat → Bool := fun _ => true

/-- Places that share their frame with nobody. -/
def Place.Sole : Place → Prop
  | .table _ _ | .root _ | .zero => True
  | .page _ _ | .file _ _ => False

/-- The books of the whole machine. -/
structure Ledger (files : Nat → List Nat) (base : Nat → Nat) (hand : List Nat) (sys : Sys) :
    Prop where
  books : Books everywhere files base hand sys
  clean : sys.pmm.ready = true → ∀ f < sys.pmm.frameCount, sys.pmm.frameOwners f = 0 →
    sys.pmm.ram f = true
  handled : ∀ f ∈ hand, sys.pmm.ram f = true ∧ base f = 0
  memory : ∀ k f, sys.held everywhere files k = some f → sys.pmm.ram f = true ∧ base f = 0
  sole : ∀ k f, k.Sole → sys.held everywhere files k = some f → sys.pmm.frameOwners f = 1
  pages : ∀ s v e, sys.entry s v = some e → e.frame ≠ 0
  quiet : ∀ s v e, sys.entry s v = some e → e.frame = sys.zero → e.write = false ∧ e.cow = false

namespace Ledger

variable {files : Nat → List Nat} {base : Nat → Nat} {hand : List Nat} {sys : Sys}

theorem sound (h : Ledger files base hand sys) : sys.Sound := h.books.sound

variable {s v f : Nat} {e : Pte}

theorem held_entry (files : Nat → List Nat) (he : sys.entry s v = some e) (hz : e.frame ≠ sys.zero) :
    sys.held everywhere files (.page s v) = some e.frame := by
  rw [Books.held_page rfl, he]
  simp [Sys.holds, hz]

theorem owned (h : Ledger files base hand sys) {k : Place}
    (hk : sys.held everywhere files k = some f) : 0 < sys.pmm.frameOwners f := by
  have := h.books.tally.held_pos hk
  omega

theorem hand_ne_zero (h : Ledger files base (f :: hand) sys) : f ≠ 0 := by
  rintro rfl
  have hle := h.books.tally.outside_le 0
  rw [List.count_cons_self] at hle
  obtain ⟨hready, hlt⟩ := Pmm.lt_of_owned (p := sys.pmm) (f := 0) (by omega)
  have := h.books.ground hready hlt
  have := (h.handled 0 (List.mem_cons_self ..)).2
  omega

theorem zeroHeld (h : Ledger files base hand sys) : sys.ZeroHeld := by
  intro h0
  exact h.owned (k := .zero) (by simp [Sys.held, everywhere, h0])

theorem page_owns (h : Ledger files base hand sys)
    (he : sys.entry s v = some e) : sys.pmm.owns e.frame = true ∨ e.frame = sys.zero := by
  by_cases hz : e.frame = sys.zero
  · exact Or.inr hz
  · have hheld := held_entry files he hz
    exact Or.inl (Pmm.owns_of_owned (h.owned hheld) (h.memory _ _ hheld).1)

theorem named_held (hn : Named files sys f) :
    ∃ k, ¬ k.Sole ∧ sys.held everywhere files k = some f := by
  rcases hn with ⟨s, v, e, he, rfl, hz⟩ | ⟨i, hi⟩
  · exact ⟨.page s v, id, held_entry files he hz⟩
  · obtain ⟨j, hj⟩ := List.getElem?_of_mem hi
    exact ⟨.file i j, id, hj⟩

/-! ## One lemma for each move -/

variable {sys' : Sys}

theorem refused (h : Ledger files base hand sys) (ht : sys.Took 0 sys') :
    Ledger files base hand sys' := by
  have howners := ht.pmm.none rfl h.sound.ground
  have hheld : sys'.held everywhere files = sys.held everywhere files :=
    Sys.held_congr ht.spaces ht.zero
  refine ⟨h.books.refused ht, ?_, ?_, ?_, ?_, ?_, ?_⟩
  · rw [ht.pmm.ready, ht.pmm.frameCount, howners, ht.pmm.ram]
    exact h.clean
  · rw [ht.pmm.ram]
    exact h.handled
  · rw [ht.pmm.ram, hheld]
    exact h.memory
  · rw [hheld, howners]
    exact h.sole
  · intro s v e he
    rw [ht.entry] at he
    exact h.pages s v e he
  · intro s v e he hz
    rw [ht.entry] at he
    rw [ht.zero] at hz
    exact h.quiet s v e he hz

theorem take (h : Ledger files base hand sys) (ht : sys.Took f sys')
    (hf : f ≠ 0) : Ledger files base (f :: hand) sys' := by
  obtain ⟨hlt, hfree, hone⟩ := ht.pmm.fresh hf
  have howners := ht.owners hf
  have hheld : sys'.held everywhere files = sys.held everywhere files :=
    Sys.held_congr ht.spaces ht.zero
  refine ⟨h.books.took ht hf, ?_, ?_, ?_, ?_, ?_, ?_⟩
  · rw [ht.pmm.ready, ht.pmm.frameCount, ht.pmm.ram]
    intro hready g hg hzero
    refine h.clean hready g hg ?_
    by_cases hgf : g = f
    · rw [hgf]
      exact hfree
    · rwa [ht.pmm.other g hgf] at hzero
  · rw [ht.pmm.ram]
    intro g hg
    rcases List.mem_cons.mp hg with rfl | hg
    · -- it was free, and what is free is memory
      have hready : sys.pmm.ready = true := by
        rw [← ht.pmm.ready]
        exact (Pmm.lt_of_owned (f := g) (by omega)).1
      have := h.books.tally.outside_le g
      exact ⟨h.clean hready g hlt hfree, by omega⟩
    · exact h.handled g hg
  · rw [ht.pmm.ram, hheld]
    exact h.memory
  · rw [hheld, howners]
    intro k g hk hkg
    have hg := h.sole k g hk hkg
    rwa [update_of_ne (by rintro rfl; omega)]
  · intro s v e he
    rw [ht.entry] at he
    exact h.pages s v e he
  · intro s v e he hz
    rw [ht.entry] at he
    rw [ht.zero] at hz
    exact h.quiet s v e he hz

theorem refer {pmm : Pmm} (h : Ledger files base hand sys)
    (hr : sys.pmm.refFrame f = some pmm) (hn : Named files sys f) :
    Ledger files base (f :: hand) { sys with pmm := pmm } := by
  obtain ⟨-, howners, hpos, -, hready, hcount, hram, -⟩ := Pmm.refFrame_some h.sound.wf hr
  obtain ⟨k₀, hk₀, hheld₀⟩ := named_held hn
  refine ⟨h.books.ref hr, ?_, ?_, ?_, ?_, h.pages, h.quiet⟩
  · show pmm.ready = true → ∀ g < pmm.frameCount, pmm.frameOwners g = 0 → pmm.ram g = true
    rw [hready, hcount, hram, howners]
    intro hrdy g hg hzero
    refine h.clean hrdy g hg ?_
    by_cases hgf : g = f
    · rw [hgf, update_self] at hzero
      omega
    · rwa [update_of_ne hgf] at hzero
  · show ∀ g ∈ f :: hand, pmm.ram g = true ∧ base g = 0
    rw [hram]
    intro g hg
    rcases List.mem_cons.mp hg with rfl | hg
    · exact h.memory k₀ g hheld₀
    · exact h.handled g hg
  · show ∀ k g, _ → pmm.ram g = true ∧ base g = 0
    rw [hram]
    exact h.memory
  · show ∀ k g, _ → _ → pmm.frameOwners g = 1
    rw [howners]
    intro k g hk hkg
    have hg := h.sole k g hk hkg
    by_cases hgf : g = f
    · -- held by `k₀` too, so it had two owners
      subst hgf
      exact absurd (h.books.tally.unique hg hkg hheld₀ ▸ hk) hk₀
    · rwa [update_of_ne hgf]

theorem give (h : Ledger files base (f :: hand) sys) : Ledger files base hand (sys.free f) := by
  obtain ⟨hready, hcount, hram⟩ := Pmm.freeFrame_fields sys.pmm f
  have howners := Pmm.frameOwners_freeFrame sys.pmm f
  refine ⟨h.books.free, ?_, ?_, ?_, ?_, h.pages, h.quiet⟩
  · show (sys.pmm.freeFrame f).ready = true → ∀ g < (sys.pmm.freeFrame f).frameCount,
      (sys.pmm.freeFrame f).frameOwners g = 0 → (sys.pmm.freeFrame f).ram g = true
    rw [hready, hcount, hram, howners]
    intro hrdy g hg hzero
    by_cases hgf : g = f
    · rw [hgf]
      exact (h.handled f (List.mem_cons_self ..)).1
    · rw [update_of_ne hgf] at hzero
      exact h.clean hrdy g hg hzero
  · show ∀ g ∈ hand, (sys.pmm.freeFrame f).ram g = true ∧ base g = 0
    rw [hram]
    exact fun g hg => h.handled g (List.mem_cons_of_mem _ hg)
  · show ∀ k g, _ → (sys.pmm.freeFrame f).ram g = true ∧ base g = 0
    rw [hram]
    exact h.memory
  · show ∀ k g, _ → _ → (sys.pmm.freeFrame f).frameOwners g = 1
    rw [howners]
    intro k g hk hkg
    have hg := h.sole k g hk hkg
    by_cases hgf : g = f
    · -- in hand as well: it had two owners
      subst hgf
      have := h.books.tally.held_pos hkg
      rw [List.count_cons_self] at this
      omega
    · rwa [update_of_ne hgf]

variable {hand' : List Nat}

/-- A change that shows in the entries of one page only. The books are the
caller's; what is left to say is about that page. -/
theorem page (h : Ledger files base hand sys)
    (hbooks : Books everywhere files base hand' sys') (hpmm : sys'.pmm = sys.pmm)
    (hzero : sys'.zero = sys.zero)
    (hheld : ∀ k, k ≠ .page s v → sys'.held everywhere files k = sys.held everywhere files k)
    (hentry : ∀ s' v', ¬ (s' = s ∧ v' = v) → sys'.entry s' v' = sys.entry s' v')
    (hhand : ∀ f ∈ hand', sys.pmm.ram f = true ∧ base f = 0)
    (hpage : ∀ e, sys'.entry s v = some e → e.frame ≠ 0 ∧
      (e.frame = sys.zero → e.write = false ∧ e.cow = false) ∧
      (e.frame ≠ sys.zero → sys.pmm.ram e.frame = true ∧ base e.frame = 0)) :
    Ledger files base hand' sys' := by
  refine ⟨hbooks, ?_, ?_, ?_, ?_, ?_, ?_⟩
  · rw [hpmm]
    exact h.clean
  · rw [hpmm]
    exact hhand
  · rw [hpmm]
    intro k f hk
    by_cases hkp : k = .page s v
    · subst hkp
      rw [Books.held_page rfl] at hk
      cases he : sys'.entry s v with
      | none => simp [he] at hk
      | some e =>
        rw [he] at hk
        simp only [Option.bind_some, Sys.holds, hzero] at hk
        split at hk
        · cases hk
        · rename_i hz
          cases hk
          exact (hpage e he).2.2 hz
    · rw [hheld k hkp] at hk
      exact h.memory k f hk
  · rw [hpmm]
    intro k f hk hkf
    have hkp : k ≠ .page s v := by
      rintro rfl
      exact hk
    rw [hheld k hkp] at hkf
    exact h.sole k f hk hkf
  · intro s' v' e he
    by_cases hp : s' = s ∧ v' = v
    · obtain ⟨rfl, rfl⟩ := hp
      exact (hpage e he).1
    · rw [hentry s' v' hp] at he
      exact h.pages s' v' e he
  · intro s' v' e he hz
    rw [hzero] at hz
    by_cases hp : s' = s ∧ v' = v
    · obtain ⟨rfl, rfl⟩ := hp
      exact (hpage e he).2.1 hz
    · rw [hentry s' v' hp] at he
      exact h.quiet s' v' e he hz

variable {t : PageTree}

theorem setPte
    (h : Ledger files base hand sys) (hv : v < LOW_PAGES) (hs : sys.spaces s = some t)
    (hbooks : Books everywhere files base hand' (sys.setPte s v e))
    (hhand : ∀ f ∈ hand', sys.pmm.ram f = true ∧ base f = 0) (hne : e.frame ≠ 0)
    (hquiet : e.frame = sys.zero → e.write = false ∧ e.cow = false)
    (hmem : e.frame ≠ sys.zero → sys.pmm.ram e.frame = true ∧ base e.frame = 0) :
    Ledger files base hand' (sys.setPte s v e) := by
  obtain ⟨hpmm, -, hzero, -⟩ := Sys.setPte_fields sys s v e
  refine h.page (s := s) (v := v) hbooks hpmm hzero (fun k hk => ?_) (fun s' v' hp => ?_) hhand
    fun e' he' => ?_
  · rw [Sys.setPte_low hv hs, Sys.held_pages hs rfl (t.pages.get_set v e), update_of_ne hk]
  · rw [Sys.entry_setPte hv hs, if_neg hp]
  · rw [Sys.entry_setPte hv hs, if_pos ⟨rfl, rfl⟩] at he'
    cases he'
    exact ⟨hne, hquiet, hmem⟩

theorem clearPte (h : Ledger files base hand sys)
    (hv : v < LOW_PAGES) (hs : sys.spaces s = some t)
    (hbooks : Books everywhere files base hand' (sys.clearPte s v))
    (hhand : ∀ f ∈ hand', sys.pmm.ram f = true ∧ base f = 0) :
    Ledger files base hand' (sys.clearPte s v) := by
  have hclear := Sys.clearPte_low hv hs
  refine h.page (s := s) (v := v) hbooks (by rw [hclear]; rfl) (by rw [hclear]; rfl) (fun k hk => ?_)
    (fun s' v' hp => ?_) hhand fun e' he' => ?_
  · rw [hclear, Sys.held_pages hs rfl (t.pages.get_erase v), update_of_ne hk]
  · rw [Sys.entry_clearPte hv hs, if_neg hp]
  · rw [Sys.entry_clearPte hv hs, if_pos ⟨rfl, rfl⟩] at he'
    cases he'

theorem entry_tables (hs : sys.spaces s = some t) (tables : Table (Nat × Nat) Link) :
    (sys.withTree s { t with tables := tables }).entry = sys.entry := by
  funext s' v'
  by_cases hss : s' = s
  · subst hss
    rw [Sys.entry_of_space (Sys.withTree_spaces_self ..), Sys.entry_of_space hs]
  · rw [Sys.entry, Sys.entry, Sys.withTree_spaces_ne _ _ hss]

theorem putTable {k : Nat × Nat} {l : Link}
    (h : Ledger files base (l.frame :: hand) sys) (hs : sys.spaces s = some t)
    (hnone : t.tables.get k = none) (hone : sys.pmm.frameOwners l.frame = 1) :
    Ledger files base hand (sys.withTree s { t with tables := t.tables.set k l }) := by
  have hheld : (sys.withTree s { t with tables := t.tables.set k l }).held everywhere files =
      update (sys.held everywhere files) (.table s k) (some l.frame) :=
    Sys.held_setTable hs rfl k l
  have hplace : sys.held everywhere files (.table s k) = none := by
    simp [Sys.held, hs, hnone]
  have hbooks : Books everywhere files base hand
      (sys.withTree s { t with tables := t.tables.set k l }) := by
    refine h.books.withTree ((h.sound.trees s t hs).setTable _ _) ?_
    rw [hheld]
    exact h.books.tally.put hplace
  refine ⟨hbooks, h.clean, fun f hf => h.handled f (List.mem_cons_of_mem _ hf), ?_, ?_, ?_, ?_⟩
  · rw [hheld]
    intro k' f hk
    by_cases hkk : k' = .table s k
    · rw [hkk, update_self] at hk
      cases hk
      exact h.handled _ (List.mem_cons_self ..)
    · rw [update_of_ne hkk] at hk
      exact h.memory k' f hk
  · rw [hheld]
    intro k' f hsole hk
    by_cases hkk : k' = .table s k
    · rw [hkk, update_self] at hk
      cases hk
      exact hone
    · rw [update_of_ne hkk] at hk
      exact h.sole k' f hsole hk
  · rw [entry_tables hs]
    exact h.pages
  · rw [entry_tables hs]
    exact h.quiet

theorem widened {k : Nat × Nat} {l l' : Link}
    (h : Ledger files base hand sys) (hs : sys.spaces s = some t)
    (hl : t.tables.get k = some l) (hframe : l'.frame = l.frame) :
    Ledger files base hand (sys.withTree s { t with tables := t.tables.set k l' }) := by
  have hplace : sys.held everywhere files (.table s k) = some l'.frame := by
    simp [Sys.held, everywhere, hs, hl, hframe]
  have hheld : (sys.withTree s { t with tables := t.tables.set k l' }).held everywhere files =
      sys.held everywhere files := by
    rw [Sys.held_setTable hs rfl, ← hplace, update_eq_self]
  refine ⟨h.books.withTree ((h.sound.trees s t hs).setTable _ _) ?_, h.clean, h.handled, ?_, ?_, ?_, ?_⟩
  · rw [hheld]
    exact h.books.tally
  · rw [hheld]
    exact h.memory
  · rw [hheld]
    exact h.sole
  · rw [entry_tables hs]
    exact h.pages
  · rw [entry_tables hs]
    exact h.quiet

theorem tabled (h : Ledger files base hand sys) (hv : v < LOW_PAGES)
    (hr : sys.Real s v) (hstep : Tabled s v sys sys') : Ledger files base hand sys' := by
  obtain ⟨t, hs⟩ := hr hv
  have htree : sys.tree s v = t := Sys.tree_of_space hv hs
  cases hstep with
  | refused _ htook => exact h.refused htook
  | widened lvl l l' hl hframe =>
    rw [htree] at hl ⊢
    rw [Sys.setTree_of_space hv hs]
    exact h.widened hs hl hframe
  | made lvl f sys₁ l hnone htook hf hframe =>
    subst hframe
    have hs' : sys₁.spaces s = some t := by rw [htook.spaces, hs]
    rw [htree] at hnone ⊢
    rw [Sys.setTree_of_space hv hs']
    exact (h.take htook hf).putTable hs' hnone (htook.pmm.fresh hf).2.2

theorem zeroed (h : Ledger files base (f :: hand) sys) (h0 : sys.zero = 0) (hf : f ≠ 0)
    (hone : sys.pmm.frameOwners f = 1) : Ledger files base hand { sys with zero := f } := by
  have hbooks := h.books.zeroed rfl h0 hf hone h.pages
  have hnot : ∀ k, sys.held everywhere files k ≠ some f := by
    intro k hk
    have := h.books.tally.held_pos hk
    rw [List.count_cons_self, hone] at this
    omega
  -- no page is the new zero page
  have hfresh : ∀ s v e, sys.entry s v = some e → e.frame ≠ f := by
    intro s v e he heq
    have hz : e.frame ≠ sys.zero := by
      rw [h0]
      exact h.pages s v e he
    exact hnot (.page s v) (heq ▸ held_entry files he hz)
  have hheld : ∀ k g, ({ sys with zero := f } : Sys).held everywhere files k = some g →
      (k = .zero ∧ g = f) ∨ sys.held everywhere files k = some g := by
    intro k g hk
    cases k with
    | zero =>
      refine Or.inl ⟨rfl, ?_⟩
      simpa [Sys.held, everywhere, hf] using hk.symm
    | page s v =>
      refine Or.inr ?_
      rw [Books.held_page rfl] at hk
      cases he : sys.entry s v with
      | none =>
        have : ({ sys with zero := f } : Sys).entry s v = none := he
        simp [this] at hk
      | some e =>
        have : ({ sys with zero := f } : Sys).entry s v = some e := he
        rw [this] at hk
        have hz : e.frame ≠ sys.zero := by
          rw [h0]
          exact h.pages s v e he
        have hg : e.frame = g := by simpa [Sys.holds, hfresh s v e he] using hk
        rw [← hg]
        exact held_entry files he hz
    | table s k => exact Or.inr hk
    | root s => exact Or.inr hk
    | file i j => exact Or.inr hk
  refine ⟨hbooks, h.clean, fun g hg => h.handled g (List.mem_cons_of_mem _ hg), ?_, ?_, h.pages, ?_⟩
  · intro k g hk
    rcases hheld k g hk with ⟨-, rfl⟩ | hk
    · exact h.handled g (List.mem_cons_self ..)
    · exact h.memory k g hk
  · intro k g hsole hk
    rcases hheld k g hk with ⟨-, rfl⟩ | hk
    · exact hone
    · exact h.sole k g hsole hk
  · intro s v e he hz
    exact absurd hz (hfresh s v e he)

theorem move (h : Ledger files base hand sys)
    (hm : Move everywhere files (hand, sys) (hand', sys')) : Ledger files base hand' sys' := by
  have hbooks := h.books.move hm
  cases hm with
  | refused ht => exact h.refused ht
  | take ht hf => exact h.take ht hf
  | refer hr hn => exact h.refer hr hn
  | give => exact h.give
  | table _ hv hreal ht => exact h.tabled hv hreal ht
  | put _ hv hs _ _ hz =>
    have hhand := h.handled _ (List.mem_cons_self ..)
    exact h.setPte hv hs hbooks (fun f hf => h.handled f (List.mem_cons_of_mem _ hf)) h.hand_ne_zero
      (fun heq => absurd heq hz) fun _ => hhand
  | putZero hv hs _ _ hz hq =>
    refine h.setPte hv hs hbooks h.handled ?_ (fun _ => ?_) fun hne => absurd hz hne
    · rcases hq with ⟨-, -, h0⟩ | ⟨s', v', he⟩
      · rwa [hz]
      · exact h.pages s' v' _ he
    · rcases hq with ⟨hw, hc, -⟩ | ⟨s', v', he⟩
      · exact ⟨hw, hc⟩
      · exact h.quiet s' v' _ he hz
  | swap _ hs he hz hz' =>
    have hv := (h.sound.trees _ _ hs).low _ _ he
    have hheld := held_entry files ((Sys.entry_of_space hs _).trans he) hz
    refine h.setPte hv hs hbooks (fun f hf => ?_) h.hand_ne_zero (fun heq => absurd heq hz')
      fun _ => h.handled _ (List.mem_cons_self ..)
    rcases List.mem_cons.mp hf with rfl | hf
    · exact h.memory _ _ hheld
    · exact h.handled f (List.mem_cons_of_mem _ hf)
  | repage hs he hframe hq =>
    have hv := (h.sound.trees _ _ hs).low _ _ he
    have hentry := (Sys.entry_of_space hs _).trans he
    refine h.setPte hv hs hbooks h.handled ?_ (fun heq => ?_) fun hne => ?_
    · rw [hframe]
      exact h.pages _ _ _ hentry
    · rw [hframe] at heq
      obtain ⟨hw, hc⟩ := hq heq
      exact ⟨hw, hc.trans (h.quiet _ _ _ hentry heq).2⟩
    · rw [hframe] at hne ⊢
      exact h.memory _ _ (held_entry files hentry hne)
  | pick _ hs he hz =>
    have hv := (h.sound.trees _ _ hs).low _ _ he
    have hheld := held_entry files ((Sys.entry_of_space hs _).trans he) hz
    refine h.clearPte hv hs hbooks fun f hf => ?_
    rcases List.mem_cons.mp hf with rfl | hf
    · exact h.memory _ _ hheld
    · exact h.handled f hf
  | dropZero hs he hz =>
    exact h.clearPte ((h.sound.trees _ _ hs).low _ _ he) hs hbooks h.handled
  | memory mem => exact ⟨hbooks, h.clean, h.handled, h.memory, h.sole, h.pages, h.quiet⟩
  | zeroed _ h0 hf hone _ => exact h.zeroed h0 hf hone

theorem moves (h : Ledger files base hand sys)
    (hm : Moves everywhere files (hand, sys) (hand', sys')) : Ledger files base hand' sys' :=
  hm.keep (I := fun x => Ledger files base x.1 x.2) (fun _ _ hI hone => hI.move hone) h

theorem steady (h : Ledger files base hand sys)
    (hm : Moves everywhere files (hand, sys) (hand', sys')) : Steady sys sys' :=
  (hm.keep (I := fun x => Ledger files base x.1 x.2 ∧ Steady sys x.2)
    (fun _ _ hI hone => ⟨hI.1.move hone, hI.2.trans (hone.steady hI.1.sound)⟩) ⟨h, .refl _⟩).2

end Ledger

end NovarisOS.Uspace64
