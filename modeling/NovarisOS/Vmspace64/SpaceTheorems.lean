/-
NovarisOS.Vmspace64.SpaceTheorems — a fork that shares is a fork that copies.

Run the calls on two systems at once: the one of `kernel/vmspace64.c`, whose
fork shares frames copy-on-write, and one whose fork copies every page.
Programs cannot tell them apart (`cow_eager`): the calls answer the same, and
every space reads the same bytes.
-/
import Mathlib.Data.Finset.Lattice.Fold
import Mathlib.Order.Lattice.Nat
import NovarisOS.Lib.Owners
import NovarisOS.Vmspace64.Space

namespace NovarisOS.Vmspace64

open Function (update update_eq_self update_idem update_of_ne update_self)

/-! ## Places that hold frames -/

inductive Place where
  | zero
  | root (s : Nat)
  | table (s : Nat) (k : Nat × Nat)
  | page (s v : Nat)
  deriving DecidableEq

/-- The frame an entry owns: the zero page is nobody's. -/
def own (z : Nat) (e : Pte) : Option Nat := if e.frame = z then none else some e.frame

def Sys.held (sys : Sys) : Place → Option Nat
  | .zero => some sys.zero
  | .root s => (sys.spaces s).map Space.pml4
  | .table s k => (sys.spaces s).bind fun sp => sp.tables.get k
  | .page s v => (sys.pte s v).bind (own sys.zero)

variable {f : Nat} {e : Pte}

theorem own_eq_some {z : Nat} : own z e = some f ↔ e.frame ≠ z ∧ f = e.frame := by
  rw [own]
  split
  · rename_i h
    simp [h]
  · rename_i h
    simp [h, eq_comm]

theorem own_of_ne {z : Nat} (h : e.frame ≠ z) : own z e = some e.frame := if_neg h

namespace Sys

variable {sys : Sys} {s v : Nat} {e : Pte}

@[simp] theorem zero_setPte : (sys.setPte s v e).zero = sys.zero := by
  rw [setPte]; split <;> rfl

@[simp] theorem mem_setPte : (sys.setPte s v e).mem = sys.mem := by
  rw [setPte]; split <;> rfl

@[simp] theorem pmm_setPte : (sys.setPte s v e).pmm = sys.pmm := by
  rw [setPte]; split <;> rfl

@[simp] theorem count_setPte : (sys.setPte s v e).count = sys.count := by
  rw [setPte]; split <;> rfl

theorem isSome_setPte (s' : Nat) : ((sys.setPte s v e).spaces s').isSome = (sys.spaces s').isSome := by
  rw [setPte]
  split
  · rfl
  · rename_i sp hsp
    by_cases hs : s' = s
    · subst hs; simp [hsp]
    · simp [hs]

theorem pte_setPte (hs : (sys.spaces s).isSome = true) (s' v' : Nat) :
    (sys.setPte s v e).pte s' v' = if s' = s ∧ v' = v then some e else sys.pte s' v' := by
  obtain ⟨sp, hsp⟩ := Option.isSome_iff_exists.mp hs
  simp only [setPte, hsp, pte]
  by_cases hs' : s' = s
  · subst hs'
    by_cases hv : v' = v
    · subst hv; simp
    · simp [hv, hsp]
  · simp [hs']

theorem pte_edit (hs : (sys.spaces s).isSome = true) (pmm : Pmm) (mem : Nat → Mem) (s' v' : Nat) :
    (({ sys with pmm := pmm, mem := mem } : Sys).setPte s v e).pte s' v' =
      if s' = s ∧ v' = v then some e else sys.pte s' v' := by
  have hs' : (({ sys with pmm := pmm, mem := mem } : Sys).spaces s).isSome = true := hs
  rw [pte_setPte hs']
  rfl

theorem held_setPte (hs : (sys.spaces s).isSome = true) :
    (sys.setPte s v e).held = update sys.held (.page s v) (own sys.zero e) := by
  obtain ⟨sp, hsp⟩ := Option.isSome_iff_exists.mp hs
  funext k
  cases k with
  | zero => simp [held]
  | root s' =>
    by_cases hs' : s' = s
    · subst hs'; simp [held, setPte, hsp]
    · simp [held, setPte, hsp, hs']
  | table s' k =>
    by_cases hs' : s' = s
    · subst hs'; simp [held, setPte, hsp]
    · simp [held, setPte, hsp, hs']
  | page s' v' =>
    rw [held, pte_setPte hs, zero_setPte]
    by_cases hk : s' = s ∧ v' = v
    · obtain ⟨rfl, rfl⟩ := hk
      simp
    · rw [if_neg hk, update_of_ne (by simpa using hk)]
      rfl

theorem held_page (h : sys.pte s v = some e) : sys.held (.page s v) = own sys.zero e := by
  simp [held, h]

theorem isSome_of_pte (h : sys.pte s v = some e) : (sys.spaces s).isSome = true := by
  rw [pte] at h
  cases hs : sys.spaces s with
  | none => simp [hs] at h
  | some sp => rfl

end Sys

/-! ## Owner counts -/

theorem frameOwners_alloc (A : Allocator) (pool : Pool) (pmm : Pmm) :
    frameOwners pmm (allocFrame A pool pmm).1 = 0 ∧
    ∀ f, update (frameOwners pmm) (allocFrame A pool pmm).1
      (frameOwners pmm (allocFrame A pool pmm).1 + 1) f ≤
        frameOwners (allocFrame A pool pmm).2 f := by
  have hfree : frameOwners pmm (allocFrame A pool pmm).1 = 0 :=
    if_pos (A.pick_free pool pmm.used)
  refine ⟨hfree, fun f => ?_⟩
  rw [hfree]
  by_cases hf : f = (allocFrame A pool pmm).1
  · subst hf
    simp [frameOwners, allocFrame]
  · rw [update_of_ne hf]
    have hne : f ≠ A.pick pool pmm.used := hf
    simp [frameOwners, allocFrame, hne]

theorem frameOwners_free (pmm : Pmm) (f : Nat) :
    frameOwners (freeFrame pmm f) =
      update (frameOwners pmm) f (frameOwners pmm f - 1) := by
  funext g
  rw [freeFrame]
  by_cases hg : g = f
  · subst hg
    rw [update_self]
    split
    · rename_i hused
      simp [frameOwners, hused]
    · rename_i hused
      split
      · rename_i hrefs
        simp only [frameOwners, hused, if_false, update_self]
        omega
      · rename_i hrefs
        simp only [frameOwners, hused, if_false]
        simp_all
  · rw [update_of_ne hg]
    split
    · rfl
    · split <;> simp [frameOwners, hg]

theorem frameOwners_ref {pmm pmm' : Pmm} (h : refFrame pmm f = some pmm') :
    frameOwners pmm' = update (frameOwners pmm) f (frameOwners pmm f + 1) := by
  rw [refFrame] at h
  split at h
  · exact absurd h (by simp)
  · rename_i hused
    split at h
    · exact absurd h (by simp)
    · obtain rfl := Option.some.inj h
      funext g
      by_cases hg : g = f
      · subst hg
        simp only [frameOwners, hused, if_false, update_self]
        omega
      · simp [frameOwners, hg]

/-! ## The invariant -/

/-- What an entry of a private page can be. -/
structure EntryOk (A : Allocator) (z : Nat) (e : Pte) : Prop where
  ram : A.ram e.frame = true
  notShared : e.shared = false
  cowClean : e.cow = true → e.write = false
  rwCow : e.cowRw = true → e.cow = true
  zeroPlain : e.frame = z → e.write = false ∧ e.cow = false

/-- Every page of every space is private memory. -/
structure Private (A : Allocator) (sys : Sys) : Prop where
  counted : Counted sys.held (frameOwners sys.pmm)
  alone : ∀ s v e, sys.pte s v = some e → e.cow = false → e.frame ≠ sys.zero →
    ∀ k, sys.held k = some e.frame → k = .page s v
  entry : ∀ s v e, sys.pte s v = some e → EntryOk A sys.zero e
  zeros : ∀ i, i < PAGE64_SIZE → sys.mem sys.zero i = 0
  unmade : ∀ s, sys.count ≤ s → sys.spaces s = none

/-- A page of the copying system for an entry of the sharing one. -/
def PageRel (mem : Nat → Mem) : Option Pte → Option Page → Prop
  | none, none => True
  | some e, some p => (∀ i, i < PAGE64_SIZE → p.bytes i = mem e.frame i) ∧
      p.user = e.user ∧ p.write = (e.write || (e.cow && e.cowRw))
  | _, _ => False

structure Shows (sys : Sys) (g : Eager) : Prop where
  count : g.count = sys.count
  live : ∀ s, (g.spaces s).isSome = (sys.spaces s).isSome
  page : ∀ s v, PageRel sys.mem (sys.pte s v) (g.page s v)

section

variable {A : Allocator} {sys : Sys} {g : Eager} {s v : Nat} {e : Pte}

variable {mem : Nat → Mem}

theorem PageRel.exists_page {o : Option Page} (h : PageRel mem (some e) o) : ∃ p, o = some p := by
  cases o with
  | none => exact h.elim
  | some p => exact ⟨p, rfl⟩

theorem PageRel.none_page {o : Option Page} (h : PageRel mem none o) : o = none := by
  cases o with
  | none => rfl
  | some p => exact h.elim

theorem PageRel.congr {mem' : Nat → Mem} {o : Option Pte} {p : Option Page}
    (h : PageRel mem o p)
    (hsame : ∀ q, o = some q → ∀ i, i < PAGE64_SIZE → mem' q.frame i = mem q.frame i) :
    PageRel mem' o p := by
  cases o with
  | none => rw [h.none_page]; trivial
  | some q =>
    obtain ⟨p, rfl⟩ := h.exists_page
    exact ⟨fun i hi => (h.1 i hi).trans (hsame q rfl i hi).symm, h.2⟩

theorem Eager.page_setPage (hs : (g.spaces s).isSome = true) (p : Page) (s' v' : Nat) :
    (g.setPage s v p).page s' v' = if s' = s ∧ v' = v then some p else g.page s' v' := by
  obtain ⟨sp, hsp⟩ := Option.isSome_iff_exists.mp hs
  simp only [Eager.setPage, hsp, Eager.page]
  by_cases hs' : s' = s
  · subst hs'
    by_cases hv : v' = v
    · subst hv; simp
    · simp [hv, hsp]
  · simp [hs']

theorem Eager.isSome_setPage (p : Page) (s' : Nat) :
    ((g.setPage s v p).spaces s').isSome = (g.spaces s').isSome := by
  rw [Eager.setPage]
  split
  · rfl
  · rename_i sp hsp
    by_cases hs : s' = s
    · subst hs; simp [hsp]
    · simp [hs]

theorem Eager.count_setPage (p : Page) : (g.setPage s v p).count = g.count := by
  rw [Eager.setPage]; split <;> rfl

namespace Private

variable (h : Private A sys)
include h

theorem zero_owned {f : Nat} (hf : frameOwners sys.pmm f = 0) : f ≠ sys.zero := by
  rintro rfl
  exact h.counted.not_held hf .zero rfl

theorem frame_ne {f : Nat} (hf : frameOwners sys.pmm f = 0) (he : sys.pte s v = some e) :
    e.frame ≠ f := by
  rintro rfl
  have hz := h.zero_owned hf
  exact h.counted.not_held hf (.page s v) (by rw [Sys.held_page he, own_of_ne hz])

theorem held_ne {f : Nat} (hf : frameOwners sys.pmm f = 0) (k : Place) : sys.held k ≠ some f :=
  h.counted.not_held hf k

theorem edit (hs : (sys.spaces s).isSome = true) (pmm : Pmm) (mem : Nat → Mem) (e : Pte)
    (hcounted : Counted (update sys.held (.page s v) (own sys.zero e)) (frameOwners pmm))
    (hok : EntryOk A sys.zero e)
    (halone : e.cow = false → e.frame ≠ sys.zero → ∀ k, k ≠ .page s v →
      sys.held k ≠ some e.frame)
    (hother : ∀ s' v' q, ¬ (s' = s ∧ v' = v) → sys.pte s' v' = some q → q.cow = false →
      q.frame ≠ sys.zero → own sys.zero e ≠ some q.frame)
    (hzeros : ∀ i, i < PAGE64_SIZE → mem sys.zero i = 0) :
    Private A (({ sys with pmm := pmm, mem := mem } : Sys).setPte s v e) := by
  generalize hsys' : ({ sys with pmm := pmm, mem := mem } : Sys) = sys'
  have hspaces : sys'.spaces = sys.spaces := by rw [← hsys']
  have hpte : ∀ s' v', sys'.pte s' v' = sys.pte s' v' := by rw [← hsys']; exact fun _ _ => rfl
  have hheld : sys'.held = sys.held := by
    rw [← hsys']
    funext k
    cases k <;> rfl
  have hzero : sys'.zero = sys.zero := by rw [← hsys']
  have hs' : (sys'.spaces s).isSome = true := by rw [hspaces]; exact hs
  have hentry : ∀ s' v' q, (sys'.setPte s v e).pte s' v' = some q →
      (s' = s ∧ v' = v ∧ q = e) ∨ (¬ (s' = s ∧ v' = v) ∧ sys.pte s' v' = some q) := by
    intro s' v' q hq
    rw [Sys.pte_setPte hs', hpte] at hq
    split at hq
    · rename_i hk
      exact .inl ⟨hk.1, hk.2, (Option.some.inj hq).symm⟩
    · rename_i hk
      exact .inr ⟨hk, hq⟩
  constructor
  · rw [Sys.held_setPte hs', hheld, hzero, Sys.pmm_setPte, ← hsys']
    exact hcounted
  · intro s' v' q hq hcow hnz k hk
    rw [Sys.zero_setPte, hzero] at hnz
    rw [Sys.held_setPte hs', hheld, hzero] at hk
    rcases hentry s' v' q hq with ⟨rfl, rfl, rfl⟩ | ⟨hne, hq⟩
    · by_contra hkne
      rw [update_of_ne hkne] at hk
      exact halone hcow hnz k hkne hk
    · by_cases hkp : k = .page s v
      · subst hkp
        rw [update_self] at hk
        exact absurd hk (hother s' v' q hne hq hcow hnz)
      · rw [update_of_ne hkp] at hk
        exact h.alone s' v' q hq hcow hnz k hk
  · intro s' v' q hq
    rw [Sys.zero_setPte, hzero]
    rcases hentry s' v' q hq with ⟨rfl, rfl, rfl⟩ | ⟨-, hq⟩
    · exact hok
    · exact h.entry s' v' q hq
  · intro i hi
    rw [Sys.mem_setPte, Sys.zero_setPte, hzero, ← hsys']
    exact hzeros i hi
  · intro s' hle
    rw [Sys.count_setPte, ← hsys'] at hle
    have hnone := h.unmade s' hle
    rw [← Option.not_isSome_iff_eq_none, Sys.isSome_setPte, hspaces, hnone]
    simp

theorem reflag (he : sys.pte s v = some e) (e' : Pte) (hframe : e'.frame = e.frame)
    (hok : EntryOk A sys.zero e')
    (halone : e'.cow = false → e.cow = true → e.frame ≠ sys.zero →
      frameOwners sys.pmm e.frame ≤ 1) :
    Private A (sys.setPte s v e') := by
  have hown : own sys.zero e' = own sys.zero e := by rw [own, own, hframe]
  have hsame : update sys.held (.page s v) (own sys.zero e') = sys.held := by
    rw [hown, ← Sys.held_page he, update_eq_self]
  refine h.edit (Sys.isSome_of_pte he) _ _ e' (by rw [hsame]; exact h.counted) hok ?_ ?_ h.zeros
  · intro hcow hnz k hk hheld
    rw [hframe] at hnz hheld
    have hhere : sys.held (.page s v) = some e.frame := by rw [Sys.held_page he, own_of_ne hnz]
    cases hc : e.cow with
    | false => exact hk (h.alone s v e he hc hnz k hheld)
    | true => exact hk (h.counted.unique (halone hcow hc hnz) hheld hhere)
  · intro s' v' q hne hq hcow hnz hsome
    rw [hown, ← Sys.held_page he] at hsome
    have := h.alone s' v' q hq hcow hnz _ hsome
    simp only [Place.page.injEq] at this
    exact hne ⟨this.1.symm, this.2.symm⟩

end Private

namespace Shows

variable (r : Shows sys g)
include r

theorem edit (hs : (sys.spaces s).isSome = true) (pmm : Pmm) (mem : Nat → Mem) (e : Pte) (p : Page)
    (hpage : PageRel mem (some e) (some p))
    (hother : ∀ s' v' q, ¬ (s' = s ∧ v' = v) → sys.pte s' v' = some q →
      ∀ i, i < PAGE64_SIZE → mem q.frame i = sys.mem q.frame i) :
    Shows (({ sys with pmm := pmm, mem := mem } : Sys).setPte s v e) (g.setPage s v p) := by
  have hs' : (g.spaces s).isSome = true := by rw [r.live]; exact hs
  constructor
  · rw [Eager.count_setPage, Sys.count_setPte]
    exact r.count
  · intro s'
    rw [Eager.isSome_setPage, Sys.isSome_setPte]
    exact r.live s'
  · intro s' v'
    rw [Eager.page_setPage hs', Sys.mem_setPte, Sys.pte_edit hs]
    split
    · exact hpage
    · rename_i hne
      exact (r.page s' v').congr fun q hq => hother s' v' q hne hq

theorem keep (hs : (sys.spaces s).isSome = true) (pmm : Pmm) (mem : Nat → Mem) (e : Pte)
    (hpage : PageRel mem (some e) (g.page s v))
    (hother : ∀ s' v' q, ¬ (s' = s ∧ v' = v) → sys.pte s' v' = some q →
      ∀ i, i < PAGE64_SIZE → mem q.frame i = sys.mem q.frame i) :
    Shows (({ sys with pmm := pmm, mem := mem } : Sys).setPte s v e) g := by
  constructor
  · rw [Sys.count_setPte]
    exact r.count
  · intro s'
    rw [Sys.isSome_setPte]
    exact r.live s'
  · intro s' v'
    rw [Sys.mem_setPte, Sys.pte_edit hs]
    split
    · rename_i hk
      obtain ⟨rfl, rfl⟩ := hk
      exact hpage
    · rename_i hne
      exact (r.page s' v').congr fun q hq => hother s' v' q hne hq

end Shows

/-! ## The calls on one page -/

theorem store_spec (h : Private A sys) (he : sys.pte s v = some e) (hw : e.write = true)
    (off : Nat) (b : UInt8) :
    Private A (sys.store e.frame off b) ∧
    ∀ g p, Shows sys g → g.page s v = some p →
      Shows (sys.store e.frame off b) (g.setPage s v (Eager.storeByte p off b)) := by
  have hok := h.entry s v e he
  have hnz : e.frame ≠ sys.zero := fun hz => by simp [(hok.zeroPlain hz).1] at hw
  have hncow : e.cow = false := by
    cases hc : e.cow with
    | false => rfl
    | true => simp [hok.cowClean hc] at hw
  have hmem : ∀ f, f ≠ e.frame → (sys.store e.frame off b).mem f = sys.mem f :=
    fun f hf => update_of_ne hf _ _
  have hother : ∀ s' v' q, ¬ (s' = s ∧ v' = v) → sys.pte s' v' = some q → q.frame ≠ e.frame := by
    intro s' v' q hne hq hframe
    have hheld : sys.held (.page s' v') = some e.frame := by
      rw [Sys.held_page hq, own_of_ne (by rw [hframe]; exact hnz), hframe]
    have := h.alone s v e he hncow hnz _ hheld
    simp only [Place.page.injEq] at this
    exact hne this
  have hheld : (sys.store e.frame off b).held = sys.held := by
    funext k
    cases k <;> rfl
  refine ⟨⟨?_, ?_, h.entry, ?_, h.unmade⟩, ?_⟩
  · rw [hheld]
    exact h.counted
  · rw [hheld]
    exact h.alone
  · intro i hi
    rw [show (sys.store e.frame off b).zero = sys.zero from rfl, hmem _ (Ne.symm hnz)]
    exact h.zeros i hi
  · intro g p r hp
    have hs : (g.spaces s).isSome = true := by
      rw [r.live]
      exact Sys.isSome_of_pte he
    have hrel := r.page s v
    rw [he, hp] at hrel
    constructor
    · rw [Eager.count_setPage]
      exact r.count
    · intro s'
      rw [Eager.isSome_setPage]
      exact r.live s'
    · intro s' v'
      rw [Eager.page_setPage hs]
      change PageRel _ (sys.pte s' v') _
      split
      · rename_i hk
        obtain ⟨rfl, rfl⟩ := hk
        rw [he]
        refine ⟨fun i hi => ?_, hrel.2⟩
        simp only [Eager.storeByte, Sys.store, update_self]
        by_cases hio : i = off
        · subst hio; simp
        · simpa [hio] using hrel.1 i hi
      · rename_i hne
        exact (r.page s' v').congr fun q hq i _ => by rw [hmem _ (hother s' v' q hne hq)]

variable {pmm : Pmm}

theorem Private.freshFrame (h : Private A sys) (hs : (sys.spaces s).isSome = true) (pool : Pool)
    (e' : Pte)
    (hframe : e'.frame = (allocFrame A pool sys.pmm).1)
    (hcounted : Counted (update sys.held (.page s v) (some e'.frame)) (frameOwners pmm))
    (hshared : e'.shared = false) (hclean : e'.cow = true → e'.write = false)
    (hrw : e'.cowRw = true → e'.cow = true)
    (hmem : ∀ f, f ≠ e'.frame → mem f = sys.mem f) :
    Private A (({ sys with pmm := pmm, mem := mem } : Sys).setPte s v e') := by
  have hfree : frameOwners sys.pmm e'.frame = 0 := by
    rw [hframe]
    exact (frameOwners_alloc A pool sys.pmm).1
  have hnz := h.zero_owned hfree
  refine h.edit hs _ _ e' (by rw [own_of_ne hnz]; exact hcounted) ⟨?_, hshared, hclean, hrw, ?_⟩ ?_ ?_ ?_
  · rw [hframe]
    exact A.pick_ram pool sys.pmm.used
  · exact fun hz => absurd hz hnz
  · exact fun _ _ k _ => h.held_ne hfree k
  · intro s' v' q _ hq _ _
    rw [own_of_ne hnz]
    intro hqe
    exact h.frame_ne hfree hq (Option.some.inj hqe).symm
  · intro i hi
    rw [hmem _ (Ne.symm hnz)]
    exact h.zeros i hi

theorem ownPage_copy (A : Allocator) (s v : Nat) (hmany : frameOwners sys.pmm e.frame > 1) :
    ownPage A sys s v e =
      ({ sys with
          pmm := freeFrame (allocFrame A .user sys.pmm).2 e.frame
          mem := update sys.mem (allocFrame A .user sys.pmm).1
            ((sys.mem (allocFrame A .user sys.pmm).1).copyAt 0 (sys.mem e.frame) PAGE64_SIZE) } :
        Sys).setPte s v { ownFlags e with frame := (allocFrame A .user sys.pmm).1 } := by
  rw [ownPage, if_pos hmany]
  rfl

/-- The page of a space becomes its own: the same bytes, writable, and in a
frame nobody else has. -/
theorem ownPage_spec (h : Private A sys) (he : sys.pte s v = some e) (hcow : e.cow = true)
    (hrw : e.cowRw = true) :
    Private A (ownPage A sys s v e) ∧
    (∀ g, Shows sys g → Shows (ownPage A sys s v e) g) ∧
    ∃ e', (ownPage A sys s v e).pte s v = some e' ∧ e'.write = true ∧ e'.user = e.user := by
  have hok := h.entry s v e he
  have hs := Sys.isSome_of_pte he
  have hnz : e.frame ≠ sys.zero := fun hz => by simp [(hok.zeroPlain hz).2] at hcow
  have hhere : sys.held (.page s v) = some e.frame := by rw [Sys.held_page he, own_of_ne hnz]
  have hlogical : ∀ e', e'.write = true → e'.user = e.user → ∀ mem g, Shows sys g →
      (∀ i, i < PAGE64_SIZE → mem e'.frame i = sys.mem e.frame i) →
      PageRel mem (some e') (g.page s v) := by
    intro e' hw hu mem g r hbytes
    have hrel := r.page s v
    rw [he] at hrel
    obtain ⟨p, hp⟩ := hrel.exists_page
    rw [hp] at hrel ⊢
    refine ⟨fun i hi => (hrel.1 i hi).trans (hbytes i hi).symm, hrel.2.1.trans hu.symm, ?_⟩
    rw [hrel.2.2, hw, hcow, hrw]
    simp
  by_cases hmany : frameOwners sys.pmm e.frame > 1
  · -- somebody else owns it: a copy
    obtain ⟨hfree, hle⟩ := frameOwners_alloc A .user sys.pmm
    generalize hfresh : (allocFrame A .user sys.pmm).1 = fresh at hfree hle
    have hne : fresh ≠ e.frame := Ne.symm (h.frame_ne hfree he)
    have hcounted : Counted (update sys.held (.page s v) (some fresh))
        (frameOwners (freeFrame (allocFrame A .user sys.pmm).2 e.frame)) := by
      have hput := (h.counted.drop hhere).put (.page s v) fresh
      rw [update_idem] at hput
      refine hput.mono fun f => ?_
      rw [frameOwners_free]
      have hlef := hle f
      by_cases hff : f = fresh
      · subst hff
        rw [update_self, update_of_ne hne, update_of_ne hne]
        rwa [update_self] at hlef
      · rw [update_of_ne hff] at hlef ⊢
        by_cases hfe : f = e.frame
        · subst hfe
          rw [update_self, update_self]
          omega
        · rwa [update_of_ne hfe, update_of_ne hfe]
    have hmem : ∀ f, f ≠ fresh → update sys.mem fresh
        ((sys.mem fresh).copyAt 0 (sys.mem e.frame) PAGE64_SIZE) f = sys.mem f :=
      fun f hf => update_of_ne hf _ _
    rw [ownPage_copy A s v hmany, hfresh]
    refine ⟨?_, ?_, ?_⟩
    · exact h.freshFrame hs .user { ownFlags e with frame := fresh } hfresh.symm hcounted
        hok.notShared (fun hc => by simp [ownFlags] at hc) (fun hc => by simp [ownFlags] at hc) hmem
    · intro g r
      refine r.keep hs _ _ { ownFlags e with frame := fresh }
        (hlogical { ownFlags e with frame := fresh } rfl rfl _ g r fun i hi => ?_)
        fun s' v' q _ hq i _ => ?_
      · rw [update_self, Mem.copyAt_inside (Nat.zero_le i) (by omega)]
        simp
      · rw [hmem _ (h.frame_ne hfree hq)]
    · exact ⟨{ ownFlags e with frame := fresh }, by rw [Sys.pte_edit hs, if_pos ⟨rfl, rfl⟩], rfl, rfl⟩
  · -- nobody else does: the frame itself
    rw [ownPage, if_neg hmany]
    refine ⟨?_, ?_, ?_⟩
    · refine h.reflag he (ownFlags e) rfl ⟨hok.ram, hok.notShared, ?_, ?_, ?_⟩ ?_
      · exact fun hc => by simp [ownFlags] at hc
      · exact fun hc => by simp [ownFlags] at hc
      · exact fun hz => absurd hz hnz
      · exact fun _ _ _ => by omega
    · intro g r
      exact r.keep hs _ _ (ownFlags e) (hlogical (ownFlags e) rfl rfl _ g r fun _ _ => rfl)
        fun _ _ _ _ _ _ _ => rfl
    · exact ⟨ownFlags e, by rw [Sys.pte_setPte hs, if_pos ⟨rfl, rfl⟩], rfl, rfl⟩

theorem Shows.page_of (r : Shows sys g) (he : sys.pte s v = some e) :
    ∃ p, g.page s v = some p ∧ PageRel sys.mem (some e) (some p) := by
  have hrel := r.page s v
  rw [he] at hrel
  obtain ⟨p, hp⟩ := hrel.exists_page
  exact ⟨p, hp, hp ▸ hrel⟩

theorem Shows.page_none (r : Shows sys g) (he : sys.pte s v = none) : g.page s v = none := by
  have hrel := r.page s v
  rw [he] at hrel
  exact hrel.none_page

/-- What one call on a page does in both systems: it answers `ok`, and where
it answers yes the page becomes `next`. -/
def OnPage (A : Allocator) (g : Eager) (s v : Nat) (may : Page → Bool) (next : Page → Page)
    (out : Bool × Sys) : Prop :=
  match g.page s v with
  | none => out.1 = false ∧ Private A out.2 ∧ Shows out.2 g
  | some p => out.1 = may p ∧ Private A out.2 ∧
      Shows out.2 (if may p then g.setPage s v (next p) else g)

variable {may : Page → Bool} {next : Page → Page}

theorem OnPage.of_none (h : Private A sys)
    (r : Shows sys g) (he : sys.pte s v = none) : OnPage A g s v may next (false, sys) := by
  rw [OnPage, r.page_none he]
  exact ⟨rfl, h, r⟩

variable {p : Page}

theorem OnPage.of_refused
    (hp : g.page s v = some p) (hmay : may p = false) (h : Private A sys) (r : Shows sys g) :
    OnPage A g s v may next (false, sys) := by
  rw [OnPage, hp]
  refine ⟨hmay.symm, h, ?_⟩
  rw [if_neg (by simp [hmay])]
  exact r

theorem OnPage.of_done
    (hp : g.page s v = some p) (hmay : may p = true)
    (h : Private A sys ∧ Shows sys (g.setPage s v (next p))) :
    OnPage A g s v may next (true, sys) := by
  rw [OnPage, hp]
  refine ⟨hmay.symm, h.1, ?_⟩
  rw [if_pos hmay]
  exact h.2

theorem OnPage.answer {out : Bool × Sys}
    (h : OnPage A g s v may next out) {ans : Sys × Out} {ans' : Eager × Out}
    (hans : ans = if out.1 then (out.2, .done) else (out.2, .refused))
    (hnone : g.page s v = none → ans' = (g, .refused))
    (hsome : ∀ p, g.page s v = some p →
      ans' = if may p then (g.setPage s v (next p), .done) else (g, .refused)) :
    ans.2 = ans'.2 ∧ Private A ans.1 ∧ Shows ans.1 ans'.1 := by
  rw [OnPage] at h
  cases hp : g.page s v with
  | none =>
    rw [hp] at h
    rw [hans, hnone hp, h.1]
    exact ⟨rfl, h.2⟩
  | some p =>
    rw [hp] at h
    rw [hans, hsome p hp, h.1]
    cases hm : may p with
    | true => simpa [hm] using h.2
    | false => simpa [hm] using h.2

theorem setWritable_spec (h : Private A sys) (r : Shows sys g) (writable : Bool) :
    OnPage A g s v (fun _ => true) (fun p => { p with write := writable })
      (setWritable A sys s v writable) := by
  rw [setWritable]
  cases he : sys.pte s v with
  | none => exact .of_none h r he
  | some e =>
    have hok := h.entry s v e he
    have hs := Sys.isSome_of_pte he
    obtain ⟨p, hp, hbytes, huser, hwrite⟩ := r.page_of he
    simp only
    split
    · -- a reservation: a page of its own, of zeros like the one it stood on
      rename_i hres
      obtain ⟨hz, rfl⟩ : e.frame = sys.zero ∧ writable = true := by simpa using hres
      obtain ⟨hfree, hle⟩ := frameOwners_alloc A .high sys.pmm
      generalize hfresh : (allocFrame A .high sys.pmm).1 = fresh at hfree hle
      have hmem : ∀ f, f ≠ fresh → update sys.mem fresh
          ((sys.mem fresh).fillAt 0 0 PAGE64_SIZE) f = sys.mem f :=
        fun f hf => update_of_ne hf _ _
      refine .of_done hp rfl ⟨?_, ?_⟩
      · exact h.freshFrame hs .high { ownFlags e with frame := fresh } hfresh.symm
          ((h.counted.put (.page s v) fresh).mono hle) hok.notShared
          (fun hc => by simp [ownFlags] at hc) (fun hc => by simp [ownFlags] at hc) hmem
      · refine r.edit hs _ _ { ownFlags e with frame := fresh } { p with write := true }
          ⟨fun i hi => ?_, huser, rfl⟩ fun s' v' q _ hq i _ => ?_
        · rw [update_self, Mem.fillAt_inside (Nat.zero_le i) (by omega), hbytes i hi, hz]
          exact h.zeros i hi
        · rw [hmem _ (h.frame_ne hfree hq)]
    · rename_i hres
      split
      · -- still shared: the permission is remembered for the write that breaks it
        rename_i hcow
        refine .of_done hp rfl ⟨?_, ?_⟩
        · refine h.reflag he { e with cowRw := writable, write := false } rfl
            ⟨hok.ram, hok.notShared, fun _ => rfl, fun _ => hcow, ?_⟩ ?_
          · exact fun hz => ⟨rfl, (hok.zeroPlain hz).2⟩
          · exact fun hc => by simp [hcow] at hc
        · refine r.edit hs _ _ { e with cowRw := writable, write := false }
            { p with write := writable } ⟨hbytes, huser, ?_⟩ fun _ _ _ _ _ _ _ => rfl
          simp [hcow]
      · rename_i hcow
        have hncow : e.cow = false := by simpa using hcow
        refine .of_done hp rfl ⟨?_, ?_⟩
        · refine h.reflag he { e with write := writable } rfl
            ⟨hok.ram, hok.notShared, fun hc => by simp [hncow] at hc, hok.rwCow, ?_⟩ ?_
          · intro hz
            have hw : writable = false := by
              cases writable with
              | false => rfl
              | true => exact absurd (by simpa using hz) hres
            exact ⟨hw, hncow⟩
          · exact fun _ hc => by simp [hncow] at hc
        · refine r.edit hs _ _ { e with write := writable } { p with write := writable }
            ⟨hbytes, huser, ?_⟩ fun _ _ _ _ _ _ _ => rfl
          simp [hncow]

theorem OnPage.of_store (h : Private A sys) (r : Shows sys g)
    (he : sys.pte s v = some e) (hp : g.page s v = some p) (hu : e.user = true)
    (hw : e.write = true) (off : Nat) (b : UInt8) :
    OnPage A g s v (fun p => p.user && p.write) (fun p => Eager.storeByte p off b)
      (true, sys.store e.frame off b) := by
  obtain ⟨hpriv, hshow⟩ := store_spec h he hw off b
  obtain ⟨p', hp', -, huser, hwrite⟩ := r.page_of he
  obtain rfl : p' = p := Option.some.inj (hp'.symm.trans hp)
  exact .of_done hp (by simp [huser, hwrite, hu, hw]) ⟨hpriv, hshow g p' r hp⟩

theorem userWrite_spec (h : Private A sys) (r : Shows sys g) (off : Nat) (b : UInt8) :
    OnPage A g s v (fun p => p.user && p.write) (fun p => Eager.storeByte p off b)
      (userWrite A sys s v off b) := by
  rw [userWrite, breakCow]
  cases he : sys.pte s v with
  | none => exact .of_none h r he
  | some e =>
    obtain ⟨p, hp, hbytes, huser, hwrite⟩ := r.page_of he
    simp only
    split
    · rename_i hnow
      obtain ⟨hu, hw⟩ : e.user = true ∧ e.write = true := by simpa using hnow
      exact .of_store h r he hp hu hw off b
    · rename_i hnow
      by_cases hrefuse : e.cow = true ∧ e.cowRw = true
      · obtain ⟨hcow, hrw⟩ := hrefuse
        obtain ⟨hpriv, hshow, e', he', hw', hu'⟩ := ownPage_spec h he hcow hrw
        simp only [hcow, hrw, he', hw', Bool.and_true, Bool.not_true, Bool.false_eq_true, if_false]
        split
        · rename_i hu
          exact .of_store hpriv (hshow g r) he' hp hu hw' off b
        · rename_i hu
          refine .of_refused hp ?_ hpriv (hshow g r)
          have : p.user = false := by rw [huser, ← hu']; simpa using hu
          simp [this]
      · have hmay : (p.user && p.write) = false := by
          rw [huser, hwrite]
          cases hu : e.user <;> cases hw : e.write <;> cases hc : e.cow <;> cases hc' : e.cowRw <;>
            simp_all
        have hout : (if (!e.cow) = true then (false, sys) else
            if (!e.cowRw) = true then (false, sys) else (true, ownPage A sys s v e)) =
              (false, sys) := by
          cases hc : e.cow <;> cases hc' : e.cowRw <;> simp_all
        rw [hout]
        exact .of_refused hp hmay h r

theorem userFrame_store_spec (h : Private A sys) (r : Shows sys g) (hv : ¬ v ≥ LOW_PAGES)
    (off : Nat) (b : UInt8) :
    OnPage A g s v (fun p => p.user && p.write) (fun p => Eager.storeByte p off b)
      (match userFrame A sys s v true with
        | (some f, sys) => (true, sys.store f off b)
        | (none, sys) => (false, sys)) := by
  rw [userFrame, if_neg hv]
  cases he : sys.pte s v with
  | none => exact .of_none h r he
  | some e =>
    have hok := h.entry s v e he
    obtain ⟨p, hp, hbytes, huser, hwrite⟩ := r.page_of he
    simp only [Bool.not_true, Bool.false_eq_true, if_false]
    by_cases hu : e.user = true
    · rw [if_neg (by simp [hu])]
      by_cases hz : e.frame = sys.zero
      · rw [if_pos hz]
        refine .of_refused hp ?_ h r
        simp [hwrite, (hok.zeroPlain hz).1, (hok.zeroPlain hz).2]
      · rw [if_neg hz]
        cases hcow : e.cow with
        | true =>
          cases hrw : e.cowRw with
          | true =>
            obtain ⟨hpriv, hshow, e', he', hw', hu'⟩ := ownPage_spec h he hcow hrw
            simp only [he', if_true, Bool.not_true, Bool.false_eq_true, if_false, Option.map_some]
            exact .of_store hpriv (hshow g r) he' hp (hu'.trans hu) hw' off b
          | false =>
            refine .of_refused hp ?_ h r
            simp [hwrite, hrw, hok.cowClean hcow]
        | false =>
          cases hw : e.write with
          | true =>
            exact .of_store h r he hp hu hw off b
          | false =>
            refine .of_refused hp ?_ h r
            simp [hwrite, hw, hcow]
    · rw [if_pos (by simpa using hu)]
      refine .of_refused hp ?_ h r
      simp [huser, hu]

/-! ## Fork -/

theorem Private.fresh (h : Private A sys) (pool : Pool) {sys' : Sys} (k : Place)
    (hheld : sys'.held = update sys.held k (some (allocFrame A pool sys.pmm).1))
    (hpmm : sys'.pmm = (allocFrame A pool sys.pmm).2) (hmem : sys'.mem = sys.mem)
    (hzero : sys'.zero = sys.zero) (hpte : ∀ s v, sys'.pte s v = sys.pte s v)
    (hunmade : ∀ s, sys'.count ≤ s → sys'.spaces s = none) : Private A sys' := by
  obtain ⟨hfree, hle⟩ := frameOwners_alloc A pool sys.pmm
  constructor
  · rw [hheld, hpmm]
    exact (h.counted.put k _).mono hle
  · intro s v e he hcow hnz k' hk'
    rw [hpte] at he
    rw [hzero] at hnz
    rw [hheld] at hk'
    by_cases hkk : k' = k
    · rw [hkk, update_self] at hk'
      exact absurd (Option.some.inj hk').symm (h.frame_ne hfree he)
    · rw [update_of_ne hkk] at hk'
      exact h.alone s v e he hcow hnz k' hk'
  · intro s v e he
    rw [hpte] at he
    rw [hzero]
    exact h.entry s v e he
  · intro i hi
    rw [hmem, hzero]
    exact h.zeros i hi
  · exact hunmade

/-- What making a table leaves as it is. -/
structure SamePages (sys sys' : Sys) : Prop where
  pte : ∀ s v, sys'.pte s v = sys.pte s v
  isSome : ∀ s, (sys'.spaces s).isSome = (sys.spaces s).isSome
  mem : sys'.mem = sys.mem
  zero : sys'.zero = sys.zero
  count : sys'.count = sys.count

theorem SamePages.refl (sys : Sys) : SamePages sys sys :=
  ⟨fun _ _ => rfl, fun _ => rfl, rfl, rfl, rfl⟩

theorem SamePages.trans {sys₁ sys₂ sys₃ : Sys} (h₁ : SamePages sys₁ sys₂)
    (h₂ : SamePages sys₂ sys₃) : SamePages sys₁ sys₃ :=
  ⟨fun s v => (h₂.pte s v).trans (h₁.pte s v), fun s => (h₂.isSome s).trans (h₁.isSome s),
    h₂.mem.trans h₁.mem, h₂.zero.trans h₁.zero, h₂.count.trans h₁.count⟩

theorem Shows.of_samePages {sys' : Sys} (r : Shows sys g) (h : SamePages sys sys') :
    Shows sys' g := by
  constructor
  · rw [r.count, h.count]
  · intro s
    rw [r.live, h.isSome]
  · intro s v
    rw [h.pte, h.mem]
    exact r.page s v

theorem ensureTable_spec (h : Private A sys) (s v lvl : Nat) :
    Private A (ensureTable A sys s v lvl) ∧ SamePages sys (ensureTable A sys s v lvl) := by
  rw [ensureTable]
  split
  · exact ⟨h, .refl sys⟩
  · rename_i sp hsp
    split
    · exact ⟨h, .refl sys⟩
    · simp only
      generalize hsys' : Sys.mk _ _ _ _ _ _ = sys'
      have hspaces : sys'.spaces = update sys.spaces s (some
          { sp with tables := sp.tables.set (tableKey lvl v) (allocFrame A .low sys.pmm).1 }) := by
        rw [← hsys']
      have hpte : ∀ s' v', sys'.pte s' v' = sys.pte s' v' := by
        intro s' v'
        rw [Sys.pte, Sys.pte, hspaces]
        by_cases hs : s' = s
        · subst hs; simp [hsp]
        · simp [hs]
      have hsome : ∀ s', (sys'.spaces s').isSome = (sys.spaces s').isSome := by
        intro s'
        rw [hspaces]
        by_cases hs : s' = s
        · subst hs; simp [hsp]
        · simp [hs]
      have hzero : sys'.zero = sys.zero := by rw [← hsys']
      refine ⟨h.fresh .low (.table s (tableKey lvl v)) ?_ ?_ ?_ hzero hpte ?_, hpte, hsome, ?_,
        hzero, ?_⟩
      · funext k
        cases k with
        | zero => simp [Sys.held, hzero]
        | root s' =>
          by_cases hs : s' = s
          · subst hs; simp [Sys.held, hspaces, hsp]
          · simp [Sys.held, hspaces, hs]
        | table s' k =>
          by_cases hs : s' = s
          · subst hs
            by_cases hk : k = tableKey lvl v
            · subst hk; simp [Sys.held, hspaces]
            · simp [Sys.held, hspaces, hk, hsp]
          · simp [Sys.held, hspaces, hs]
        | page s' v' => simp [Sys.held, hpte, hzero]
      · rw [← hsys']
      · rw [← hsys']
      · intro s' hle
        have hcount : sys'.count = sys.count := by rw [← hsys']
        rw [← Option.not_isSome_iff_eq_none, hsome, h.unmade s' (hcount ▸ hle)]
        simp
      · rw [← hsys']
      · rw [← hsys']

theorem ensureTables_spec (h : Private A sys) (s v : Nat) :
    Private A (ensureTables A sys s v) ∧ SamePages sys (ensureTables A sys s v) := by
  obtain ⟨h₀, r₀⟩ := ensureTable_spec h s v 0
  obtain ⟨h₁, r₁⟩ := ensureTable_spec h₀ s v 1
  obtain ⟨h₂, r₂⟩ := ensureTable_spec h₁ s v 2
  exact ⟨h₂, (r₀.trans r₁).trans r₂⟩

/-- The new space: no pages yet. -/
def Eager.create (g : Eager) : Eager :=
  { spaces := update g.spaces g.count (some fun _ => none), count := g.count + 1 }

theorem createSpace_spec (h : Private A sys) (r : Shows sys g) :
    Private A (createSpace A sys) ∧ Shows (createSpace A sys) g.create := by
  have hnone := h.unmade sys.count (Nat.le_refl _)
  rw [createSpace]
  simp only
  generalize hsys' : Sys.mk _ _ _ _ _ _ = sys'
  have hspaces : sys'.spaces = update sys.spaces sys.count
      (some ⟨(allocFrame A .low sys.pmm).1, Table.empty, Table.empty⟩) := by rw [← hsys']
  have hcount : sys'.count = sys.count + 1 := by rw [← hsys']
  have hmem : sys'.mem = sys.mem := by rw [← hsys']
  have hzero : sys'.zero = sys.zero := by rw [← hsys']
  have hpte : ∀ s v, sys'.pte s v = sys.pte s v := by
    intro s v
    rw [Sys.pte, Sys.pte, hspaces]
    by_cases hs : s = sys.count
    · subst hs; simp [hnone]
    · simp [hs]
  refine ⟨h.fresh .low (.root sys.count) ?_ ?_ hmem hzero hpte ?_, ?_, ?_, ?_⟩
  · funext k
    cases k with
    | zero => simp [Sys.held, hzero]
    | root s =>
      by_cases hs : s = sys.count
      · subst hs; simp [Sys.held, hspaces]
      · simp [Sys.held, hspaces, hs]
    | table s k =>
      by_cases hs : s = sys.count
      · subst hs; simp [Sys.held, hspaces, hnone]
      · simp [Sys.held, hspaces, hs]
    | page s v => simp [Sys.held, hpte, hzero]
  · rw [← hsys']
  · intro s hle
    rw [hspaces, update_of_ne (by omega)]
    exact h.unmade s (by omega)
  · rw [hcount, ← r.count]
    rfl
  · intro s
    rw [hspaces, Eager.create, r.count]
    by_cases hs : s = sys.count
    · subst hs; simp
    · simpa [hs] using r.live s
  · intro s v
    rw [hpte, hmem]
    by_cases hs : s = sys.count
    · subst hs
      rw [Sys.pte, hnone]
      simp [Eager.create, Eager.page, r.count, PageRel]
    · have := r.page s v
      simpa [Eager.create, Eager.page, r.count, hs] using this

theorem Sys.setPte_pmm (sys : Sys) (s v : Nat) (e : Pte) (pmm : Pmm) :
    ({ sys with pmm := pmm } : Sys).setPte s v e = { sys.setPte s v e with pmm := pmm } := by
  simp only [Sys.setPte]
  cases sys.spaces s <;> rfl

/-- The copying fork, one page of it. -/
def Eager.clonePage (src dst : Nat) (g : Eager) (v : Nat) : Eager :=
  match g.page src v with
  | none => g
  | some p => g.setPage dst v p

variable {src dst : Nat}

theorem share_spec (h : Private A sys) (r : Shows sys g)
    (hdst : (sys.spaces dst).isSome = true) (he : sys.pte src v = some e)
    (hp : g.page src v = some p) (hnz : e.frame ≠ sys.zero)
    (href : refFrame sys.pmm e.frame = some pmm) :
    Private A ((({ sys with pmm := pmm } : Sys).setPte src v (shareFlags e)).setPte dst v
      (shareFlags e)) ∧
    Shows ((({ sys with pmm := pmm } : Sys).setPte src v (shareFlags e)).setPte dst v
      (shareFlags e)) (g.setPage dst v p) := by
  have hok := h.entry src v e he
  have hsrc := Sys.isSome_of_pte he
  obtain ⟨p', hp', hbytes, huser, hwrite⟩ := r.page_of he
  obtain rfl : p' = p := Option.some.inj (hp'.symm.trans hp)
  have hokShare : EntryOk A sys.zero (shareFlags e) :=
    ⟨hok.ram, hok.notShared, fun _ => rfl, fun _ => rfl, fun hz => absurd hz hnz⟩
  have hrelShare : PageRel sys.mem (some (shareFlags e)) (some p') := by
    refine ⟨hbytes, huser, ?_⟩
    rw [hwrite]
    cases hc : e.cow with
    | true => simp [shareFlags, hok.cowClean hc]
    | false =>
      have : e.cowRw = false := by
        cases hrw : e.cowRw with
        | false => rfl
        | true => simp [hok.rwCow hrw] at hc
      simp [shareFlags, this]
  -- first the parent's entry, then the child's together with the owner it needs
  have h₁ : Private A (sys.setPte src v (shareFlags e)) :=
    h.reflag he (shareFlags e) rfl hokShare (fun hc => by simp [shareFlags] at hc)
  have r₁ : Shows (sys.setPte src v (shareFlags e)) g :=
    r.keep hsrc _ _ (shareFlags e) (by rw [hp]; exact hrelShare) fun _ _ _ _ _ _ _ => rfl
  rw [Sys.setPte_pmm sys src v (shareFlags e) pmm]
  generalize hsys₁ : sys.setPte src v (shareFlags e) = sys₁ at h₁ r₁
  have hpte : sys₁.pte src v = some (shareFlags e) := by
    rw [← hsys₁, Sys.pte_setPte hsrc, if_pos ⟨rfl, rfl⟩]
  have hzero : sys₁.zero = sys.zero := by rw [← hsys₁]; simp
  have hmem : sys₁.mem = sys.mem := by rw [← hsys₁]; simp
  have hpmm : sys₁.pmm = sys.pmm := by rw [← hsys₁]; simp
  have hdst₁ : (sys₁.spaces dst).isSome = true := by
    rw [← hsys₁, Sys.isSome_setPte]
    exact hdst
  have hhere : sys₁.held (.page src v) = some e.frame := by
    rw [Sys.held_page hpte]
    exact own_of_ne (by rw [hzero]; exact hnz)
  have hown : own sys₁.zero (shareFlags e) = some e.frame := by
    rw [← hhere, Sys.held_page hpte]
  have hedit := h₁.edit hdst₁ (v := v) pmm sys₁.mem (shareFlags e)
  refine ⟨hedit ?_ (hzero ▸ hokShare) (fun hc => by simp [shareFlags] at hc) ?_ h₁.zeros, ?_⟩
  · rw [hown, frameOwners_ref href, ← hpmm]
    exact h₁.counted.put _ _
  · intro s' v' q hne hq hcow hqz
    rw [hown]
    intro hframe
    -- the parent's entry holds the frame, and it is not `q`: `q` is not shared
    have hplace := h₁.alone s' v' q hq hcow hqz _ (hhere.trans hframe)
    obtain ⟨rfl, rfl⟩ : src = s' ∧ v = v' := by simpa using hplace
    obtain rfl := Option.some.inj (hq.symm.trans hpte)
    simp [shareFlags] at hcow
  · exact r₁.edit hdst₁ pmm sys₁.mem (shareFlags e) p' (hmem ▸ hrelShare)
      fun _ _ _ _ _ _ _ => rfl

theorem clonePage_spec (h : Private A sys) (r : Shows sys g)
    (hdst : (sys.spaces dst).isSome = true) :
    Private A (clonePage A src dst sys v) ∧
    Shows (clonePage A src dst sys v) (g.clonePage src dst v) ∧
    ((clonePage A src dst sys v).spaces dst).isSome = true := by
  rw [clonePage]
  cases he : sys.pte src v with
  | none =>
    rw [Eager.clonePage, r.page_none he]
    exact ⟨h, r, hdst⟩
  | some e =>
    obtain ⟨p, hp, hrel⟩ := r.page_of he
    rw [Eager.clonePage, hp]
    obtain ⟨h₁, hsame⟩ := ensureTables_spec h dst v
    simp only
    generalize ensureTables A sys dst v = sys₁ at h₁ hsame
    have r₁ := r.of_samePages hsame
    have he₁ : sys₁.pte src v = some e := by rw [hsame.pte, he]
    have hdst₁ : (sys₁.spaces dst).isSome = true := by rw [hsame.isSome, hdst]
    have hok := h₁.entry src v e he₁
    rw [← hsame.mem] at hrel
    rw [if_neg (by simp [hok.ram])]
    split
    · -- the page of all reservations, which nobody counts
      rename_i hz
      have hown : own sys₁.zero e = none := if_pos hz
      refine ⟨h₁.edit hdst₁ sys₁.pmm sys₁.mem e ?_ hok (fun _ hnz => absurd hz hnz) ?_ h₁.zeros,
        r₁.edit hdst₁ sys₁.pmm sys₁.mem e p hrel (fun _ _ _ _ _ _ _ => rfl), ?_⟩
      · refine h₁.counted.sub fun k f hk => ?_
        by_cases hkk : k = .page dst v
        · rw [hkk, update_self, hown] at hk
          exact absurd hk (by simp)
        · rwa [update_of_ne hkk] at hk
      · intro s' v' q _ _ _ _
        rw [hown]
        simp
      · rw [Sys.isSome_setPte]
        exact hdst₁
    · rename_i hnz
      cases href : refFrame sys₁.pmm e.frame with
      | some pmm =>
        simp only [hok.notShared, Bool.false_eq_true, if_false]
        obtain ⟨hpriv, hshow⟩ := share_spec h₁ r₁ hdst₁ he₁ hp hnz href
        refine ⟨hpriv, hshow, ?_⟩
        rw [Sys.isSome_setPte, Sys.isSome_setPte]
        exact hdst₁
      | none =>
        obtain ⟨hfree, hle⟩ := frameOwners_alloc A .high sys₁.pmm
        generalize hfresh : (allocFrame A .high sys₁.pmm).1 = fresh at hfree hle
        have hmem : ∀ f, f ≠ fresh → update sys₁.mem fresh
            ((sys₁.mem fresh).copyAt 0 (sys₁.mem e.frame) PAGE64_SIZE) f = sys₁.mem f :=
          fun f hf => update_of_ne hf _ _
        refine ⟨?_, ?_, ?_⟩
        · exact h₁.freshFrame hdst₁ .high { e with frame := fresh } hfresh.symm
            ((h₁.counted.put (.page dst v) fresh).mono hle) hok.notShared hok.cowClean
            hok.rwCow hmem
        · refine r₁.edit hdst₁ _ _ { e with frame := fresh } p ⟨fun i hi => ?_, hrel.2⟩
            fun s' v' q _ hq i _ => ?_
          · rw [update_self, Mem.copyAt_inside (Nat.zero_le i) (by omega)]
            simpa using hrel.1 i hi
          · rw [hmem _ (h₁.frame_ne hfree hq)]
        · rw [Sys.isSome_setPte]
          exact hdst₁

theorem cloneWalk_spec (vs : List Nat) :
    ∀ (sys : Sys) (g : Eager), Private A sys → Shows sys g → (sys.spaces dst).isSome = true →
      Private A (vs.foldl (clonePage A src dst) sys) ∧
      Shows (vs.foldl (clonePage A src dst) sys) (vs.foldl (Eager.clonePage src dst) g) := by
  induction vs with
  | nil => intro sys g h r _; exact ⟨h, r⟩
  | cons v vs ih =>
    intro sys g h r hdst
    obtain ⟨h', r', hdst'⟩ := clonePage_spec h r hdst (v := v)
    exact ih _ _ h' r' hdst'

theorem Eager.count_clonePage : (g.clonePage src dst v).count = g.count := by
  rw [Eager.clonePage]
  split
  · rfl
  · exact Eager.count_setPage _

theorem Eager.isSome_clonePage (s : Nat) :
    ((g.clonePage src dst v).spaces s).isSome = (g.spaces s).isSome := by
  rw [Eager.clonePage]
  split
  · rfl
  · exact Eager.isSome_setPage _ s

theorem Eager.page_clonePage (hdst : (g.spaces dst).isSome = true) (s v' : Nat) :
    (g.clonePage src dst v).page s v' =
      if s = dst ∧ v' = v ∧ (g.page src v).isSome = true then g.page src v else g.page s v' := by
  rw [Eager.clonePage]
  cases hp : g.page src v with
  | none => simp
  | some p => simp [Eager.page_setPage hdst]

theorem Eager.cloneWalk (hsd : src ≠ dst) (vs : List Nat) :
    ∀ g : Eager, (g.spaces dst).isSome = true →
      (vs.foldl (Eager.clonePage src dst) g).count = g.count ∧
      (∀ s, ((vs.foldl (Eager.clonePage src dst) g).spaces s).isSome = (g.spaces s).isSome) ∧
      ∀ s v, (vs.foldl (Eager.clonePage src dst) g).page s v =
        if s = dst ∧ v ∈ vs ∧ (g.page src v).isSome = true then g.page src v else g.page s v := by
  induction vs with
  | nil => intro g _; simp
  | cons w vs ih =>
    intro g hdst
    obtain ⟨hcount, hsome, hpage⟩ := ih (g.clonePage src dst w)
      (by rw [Eager.isSome_clonePage]; exact hdst)
    have hsrc : ∀ v, (g.clonePage src dst w).page src v = g.page src v := by
      intro v
      rw [Eager.page_clonePage hdst, if_neg (fun hk => hsd hk.1)]
    refine ⟨hcount.trans Eager.count_clonePage, fun s => (hsome s).trans (Eager.isSome_clonePage s),
      fun s v => ?_⟩
    rw [List.foldl_cons, hpage, hsrc, Eager.page_clonePage hdst]
    by_cases hs : s = dst
    · by_cases hv : v = w
      · subst hv
        by_cases hsome : (g.page src v).isSome = true <;> simp [hs, hsome]
      · simp [hs, hv]
    · simp [hs]

theorem Shows.congr {g' : Eager} (r : Shows sys g) (hcount : g'.count = g.count)
    (hsome : ∀ s, (g'.spaces s).isSome = (g.spaces s).isSome)
    (hpage : ∀ s v, g'.page s v = g.page s v) : Shows sys g' := by
  constructor
  · rw [hcount, r.count]
  · intro s
    rw [hsome, r.live]
  · intro s v
    rw [hpage]
    exact r.page s v

theorem fork_spec (h : Private A sys) (r : Shows sys g) {sp : Space} {pages : Nat → Option Page}
    (hsp : sys.spaces src = some sp) (hpages : g.spaces src = some pages) :
    Private A (cloneCow A (createSpace A sys) src sys.count) ∧
    Shows (cloneCow A (createSpace A sys) src sys.count)
      { spaces := update g.spaces g.count (some pages), count := g.count + 1 } := by
  have hsd : src ≠ sys.count := by
    rintro rfl
    simp [h.unmade sys.count (Nat.le_refl _)] at hsp
  obtain ⟨h₁, r₁⟩ := createSpace_spec h r
  have hsrc : (createSpace A sys).spaces src = some sp := by
    simp [createSpace, hsd, hsp]
  have hdst : ((createSpace A sys).spaces sys.count).isSome = true := by simp [createSpace]
  have hgdst : (g.create.spaces sys.count).isSome = true := by rw [r₁.live]; exact hdst
  rw [cloneCow, hsrc]
  obtain ⟨h₂, r₂⟩ := cloneWalk_spec sp.pages.keys _ _ h₁ r₁ hdst
  obtain ⟨hcount, hsome, hpage⟩ := Eager.cloneWalk hsd sp.pages.keys g.create hgdst
  refine ⟨h₂, r₂.congr ?_ ?_ ?_⟩
  · rw [hcount]
    rfl
  · intro s
    rw [hsome, Eager.create]
    by_cases hs : s = g.count
    · subst hs; simp
    · simp [hs]
  · intro s v
    rw [hpage]
    have hsrcPage : g.create.page src v = pages v := by
      simp [Eager.create, Eager.page, r.count, hsd, hpages]
    rw [hsrcPage]
    by_cases hs : s = sys.count
    · subst hs
      -- a page that the parent has is one of the walk
      have hkey : (pages v).isSome = true → v ∈ sp.pages.keys := by
        intro hv
        have hrel := r.page src v
        rw [Eager.page, hpages, Sys.pte, hsp] at hrel
        rw [sp.pages.mem_keys]
        rintro hnone
        rw [Option.bind_some, Option.bind_some, hnone] at hrel
        rw [hrel.none_page] at hv
        exact absurd hv (by simp)
      cases hv : pages v with
      | none => simp [Eager.page, Eager.create, r.count, hv]
      | some p =>
        have := hkey (by simp [hv])
        simp [Eager.page, r.count, this, hv]
    · rw [if_neg (fun hk => hs hk.1)]
      have hsg : s ≠ g.count := by rw [r.count]; exact hs
      simp [Eager.page, Eager.create, hsg]

/-! ## Exit -/

/-- The places of one space. -/
def Space.places (sp : Space) (s : Nat) : List Place :=
  sp.pages.keys.map (.page s) ++ sp.tables.keys.map (.table s) ++ [.root s]

theorem Space.nodup_places (sp : Space) (s : Nat) : (sp.places s).Nodup := by
  have hpages : (sp.pages.keys.map (Place.page s)).Nodup :=
    sp.pages.nodup.map fun v v' hv => by simpa using hv
  have htables : (sp.tables.keys.map (Place.table s)).Nodup :=
    sp.tables.nodup.map fun k k' hk => by simpa using hk
  refine (hpages.append htables ?_).append (List.nodup_singleton _) ?_
  · intro k hk hk'
    obtain ⟨v, -, rfl⟩ := List.mem_map.mp hk
    simp at hk'
  · intro k hk hk'
    obtain rfl := List.mem_singleton.mp hk'
    simp at hk

theorem elim_held_page {sp : Space} (hsp : sys.spaces s = some sp) (pmm : Pmm) (v : Nat) :
    (sys.held (.page s v)).elim pmm (freeFrame pmm) = match sp.pages.get v with
      | none => pmm
      | some e => if e.frame = sys.zero then pmm else freeFrame pmm e.frame := by
  simp only [Sys.held, Sys.pte, hsp, Option.bind_some]
  cases sp.pages.get v with
  | none => rfl
  | some e => by_cases hz : e.frame = sys.zero <;> simp [own, hz]

theorem elim_held_table {sp : Space} (hsp : sys.spaces s = some sp) (pmm : Pmm) (k : Nat × Nat) :
    (sys.held (.table s k)).elim pmm (freeFrame pmm) = match sp.tables.get k with
      | none => pmm
      | some f => freeFrame pmm f := by
  simp only [Sys.held, hsp, Option.bind_some]
  cases sp.tables.get k <;> rfl

theorem destroy_counted (h : Private A sys) {sp : Space} (hsp : sys.spaces s = some sp) :
    Counted (fun k => if k ∈ sp.places s then none else sys.held k)
      (frameOwners (freeFrame (freeLowHalfTables sys sp) sp.pml4)) := by
  have hdrop := releaseAll frameOwners_free (fun _ _ _ _ hk h => h.drop hk) (sp.places s)
    sys.held sys.pmm (sp.nodup_places s) h.counted
  have hfold : (sp.places s).foldl (fun pmm k => (sys.held k).elim pmm (freeFrame pmm)) sys.pmm =
        freeFrame (freeLowHalfTables sys sp) sp.pml4 := by
    rw [Space.places, List.foldl_append, List.foldl_append, List.foldl_map, List.foldl_map,
      freeLowHalfTables]
    simp only [List.foldl_cons, List.foldl_nil]
    have hroot : sys.held (.root s) = some sp.pml4 := by simp [Sys.held, hsp]
    simp only [elim_held_page hsp, elim_held_table hsp, hroot]
    rfl
  rwa [hfold] at hdrop

/-- A space goes: its places hold nothing, the others what they held. -/
theorem forget_spec (h : Private A sys) (r : Shows sys g) (s : Nat) {live : List Nat}
    (hcounted : ∀ held' : Place → Option Nat,
      (∀ k f, held' k = some f → sys.held k = some f ∧ ∀ sp, sys.spaces s = some sp →
        k ∉ sp.places s) → Counted held' (frameOwners pmm)) :
    Private A { sys with pmm := pmm, live := live, spaces := update sys.spaces s none } ∧
    Shows { sys with pmm := pmm, live := live, spaces := update sys.spaces s none }
      { g with spaces := update g.spaces s none } := by
  generalize hsys' : ({ sys with
    pmm := pmm, live := live, spaces := update sys.spaces s none } : Sys) = sys'
  have hspaces : sys'.spaces = update sys.spaces s none := by rw [← hsys']
  have hzero : sys'.zero = sys.zero := by rw [← hsys']
  have hmem : sys'.mem = sys.mem := by rw [← hsys']
  have hpte : ∀ s' v, sys'.pte s' v = if s' = s then none else sys.pte s' v := by
    intro s' v
    rw [Sys.pte, Sys.pte, hspaces]
    by_cases hs : s' = s
    · subst hs; simp
    · simp [hs]
  have hpteOld : ∀ s' v e, sys'.pte s' v = some e → sys.pte s' v = some e := by
    intro s' v e he
    rw [hpte] at he
    split at he
    · exact absurd he (by simp)
    · exact he
  have hheld : ∀ k f, sys'.held k = some f → sys.held k = some f ∧ ∀ sp, sys.spaces s = some sp →
      k ∉ sp.places s := by
    intro k f hk
    cases k with
    | zero => exact ⟨by simpa [Sys.held, hzero] using hk, by simp [Space.places]⟩
    | root s' =>
      by_cases hs : s' = s
      · simp [Sys.held, hspaces, hs] at hk
      · exact ⟨by simpa [Sys.held, hspaces, hs] using hk, by simp [Space.places, hs]⟩
    | table s' k =>
      by_cases hs : s' = s
      · simp [Sys.held, hspaces, hs] at hk
      · exact ⟨by simpa [Sys.held, hspaces, hs] using hk, by simp [Space.places, Ne.symm hs]⟩
    | page s' v =>
      by_cases hs : s' = s
      · simp [Sys.held, hpte, hs] at hk
      · exact ⟨by simpa [Sys.held, hpte, hs, hzero] using hk, by simp [Space.places, Ne.symm hs]⟩
  refine ⟨⟨?_, ?_, ?_, ?_, ?_⟩, ?_, ?_, ?_⟩
  · rw [← hsys']
    exact hcounted _ (hsys' ▸ hheld)
  · intro s' v e he hcow hnz k hk
    rw [hzero] at hnz
    exact h.alone s' v e (hpteOld s' v e he) hcow hnz k (hheld k _ hk).1
  · intro s' v e he
    rw [hzero]
    exact h.entry s' v e (hpteOld s' v e he)
  · intro i hi
    rw [hmem, hzero]
    exact h.zeros i hi
  · intro s' hle
    rw [hspaces]
    by_cases hs : s' = s
    · subst hs; simp
    · rw [update_of_ne hs]
      refine h.unmade s' ?_
      rw [← hsys'] at hle
      exact hle
  · rw [← hsys']
    exact r.count
  · intro s'
    rw [hspaces]
    by_cases hs : s' = s
    · subst hs; simp
    · simpa [hs] using r.live s'
  · intro s' v
    rw [hpte, hmem]
    by_cases hs : s' = s
    · subst hs; simp [Eager.page, PageRel]
    · simpa [hs, Eager.page] using r.page s' v

/-! ## The two systems -/

theorem destroy_step (h : Private A sys) (r : Shows sys g) (loaded s : Nat) :
    Private A (destroySpace sys loaded s) ∧
    Shows (destroySpace sys loaded s) (g.call (.destroy loaded s)).1 := by
  have hlive := r.live s
  cases hsp : sys.spaces s with
  | none =>
    rw [hsp] at hlive
    have hg : g.spaces s = none := by simpa using hlive
    simp only [destroySpace, hsp, Eager.call, hg]
    exact ⟨h, r⟩
  | some sp =>
    rw [hsp] at hlive
    obtain ⟨pages, hg⟩ := Option.isSome_iff_exists.mp hlive
    simp only [destroySpace, hsp, Eager.call, hg]
    by_cases hl : loaded = s
    · rw [if_pos hl, if_pos hl]
      exact ⟨h, r⟩
    · rw [if_neg hl, if_neg hl]
      cases liveRemove sys.live sp.pml4 with
      | none =>
        exact forget_spec h r s fun held' hsub => h.counted.sub fun k f hk => (hsub k f hk).1
      | some live =>
        refine forget_spec h r s fun held' hsub => (destroy_counted h hsp).sub fun k f hk => ?_
        rw [if_neg ((hsub k f hk).2 sp hsp)]
        exact (hsub k f hk).1

/-- One call, in both systems. -/
theorem call_spec (h : Private A sys) (r : Shows sys g) (op : Op) :
    (sys.call A op).2 = (g.call op).2 ∧
    Private A (sys.call A op).1 ∧ Shows (sys.call A op).1 (g.call op).1 := by
  cases op with
  | fork src =>
    have hlive := r.live src
    cases hsp : sys.spaces src with
    | none =>
      have hg : g.spaces src = none := by simpa [hsp] using hlive
      simp only [Sys.call, hsp, Eager.call, hg]
      exact ⟨trivial, h, r⟩
    | some sp =>
      obtain ⟨pages, hg⟩ := Option.isSome_iff_exists.mp (by rw [hlive, hsp]; rfl)
      simp only [Sys.call, hsp, Eager.call, hg]
      exact ⟨trivial, fork_spec h r hsp hg⟩
  | write s v off b =>
    refine (userWrite_spec (s := s) (v := v) h r off b).answer ?_ ?_ ?_
    · rw [Sys.call]
      rcases userWrite A sys s v off b with ⟨ok, sys'⟩
      cases ok <;> rfl
    · intro hp
      simp only [Eager.call, hp]
    · intro p hp
      simp only [Eager.call, hp]
  | poke s v off b =>
    by_cases hv : v ≥ LOW_PAGES
    · simp only [Sys.call, Eager.call, userFrame, if_pos hv]
      exact ⟨trivial, h, r⟩
    · refine (userFrame_store_spec (s := s) h r hv off b).answer ?_ ?_ ?_
      · rw [Sys.call]
        rcases userFrame A sys s v true with ⟨frame, sys'⟩
        cases frame <;> rfl
      · intro hp
        simp only [Eager.call, hp, if_neg hv]
      · intro p hp
        simp only [Eager.call, hp, if_neg hv]
  | peek s v off =>
    simp only [Sys.call, Eager.call, userFrame]
    by_cases hv : v ≥ LOW_PAGES
    · simp only [if_pos hv]
      exact ⟨trivial, h, r⟩
    · simp only [if_neg hv]
      cases he : sys.pte s v with
      | none =>
        simp only [r.page_none he]
        exact ⟨trivial, h, r⟩
      | some e =>
        obtain ⟨p, hp, hbytes, huser, -⟩ := r.page_of he
        cases hu : e.user with
        | true =>
          simp only [hp, huser, hu]
          exact ⟨congrArg Out.byte (hbytes off off.isLt).symm, h, r⟩
        | false =>
          simp only [hp, huser, hu]
          exact ⟨rfl, h, r⟩
  | setWritable s v writable =>
    refine (setWritable_spec (s := s) (v := v) h r writable).answer ?_ ?_ ?_
    · rw [Sys.call]
      rcases setWritable A sys s v writable with ⟨ok, sys'⟩
      cases ok <;> rfl
    · intro hp
      simp only [Eager.call, hp]
    · intro p hp
      simp only [Eager.call, hp]
      rfl
  | destroy loaded s =>
    refine ⟨?_, destroy_step h r loaded s⟩
    rw [Sys.call, Eager.call]
    split
    · rfl
    · split <;> rfl

end

/-- The pages a space has, each with a copy of its bytes. -/
def Sys.eager (sys : Sys) : Eager where
  spaces s := (sys.spaces s).map fun sp v => (sp.pages.get v).map fun e =>
    ⟨sys.mem e.frame, e.write || (e.cow && e.cowRw), e.user⟩
  count := sys.count

theorem shows_eager (sys : Sys) : Shows sys sys.eager := by
  refine ⟨rfl, fun s => by simp [Sys.eager], fun s v => ?_⟩
  rw [Sys.pte, Eager.page, Sys.eager]
  cases hs : sys.spaces s with
  | none => simp [hs, PageRel]
  | some sp =>
    cases hv : sp.pages.get v with
    | none => simp [hs, hv, PageRel]
    | some e => simp [hs, hv, PageRel]

theorem Shows.read {sys : Sys} {g : Eager} (r : Shows sys g) (s v : Nat) (off : Fin 4096) :
    sys.read s v off = g.read s v off := by
  have hrel := r.page s v
  rw [Sys.read, Eager.read]
  cases he : sys.pte s v with
  | none =>
    rw [he] at hrel
    simp [hrel.none_page]
  | some e =>
    obtain ⟨p, hp, hbytes, -⟩ := r.page_of he
    simp [hp, hbytes off off.isLt]

/-- Copy-on-write fork cannot be told from eager copying: whatever the
programs do, every call answers the same in both systems, and every space
reads the same bytes. -/
theorem cow_eager (A : Allocator) (sys : Sys) (h : Private A sys) (ops : List Op) :
    (cow A).trace sys ops = eager.trace sys.eager ops ∧
    ∀ s v off, ((cow A).run sys ops).read s v off = (eager.run sys.eager ops).read s v off := by
  have hlock := (cow A).lockstep eager (R := fun sys g => Private A sys ∧ Shows sys g)
    (fun sys g op hR => call_spec hR.1 hR.2 op) ops sys sys.eager ⟨h, shows_eager sys⟩
  exact ⟨hlock.1, fun s v off => hlock.2.2.read s v off⟩

/-- Frames counted up, all of them RAM. -/
def upward : Allocator where
  ram _ := true
  pick _ used := used.sup id + 1
  pick_free _ used hmem := by
    have := Finset.le_sup (f := id) hmem
    simp only [id_eq] at this
    omega
  pick_ram _ _ := rfl

/-- The zero page in frame 0, and one space with a page of its own. -/
def onePage : Sys where
  pmm := ⟨{0, 1, 2}, fun _ => 0⟩
  mem _ _ := 0
  zero := 0
  live := [1]
  spaces s := if s = 0 then
      some ⟨1, Table.empty, Table.empty.set 5 ⟨2, true, true, false, false, false, 0⟩⟩
    else none
  count := 1

theorem onePage_pte {s v : Nat} (he : onePage.pte s v = some e) :
    s = 0 ∧ v = 5 ∧ e = ⟨2, true, true, false, false, false, 0⟩ := by
  rw [Sys.pte, onePage] at he
  by_cases hs : s = 0
  · by_cases hv : v = 5
    · subst hs hv
      exact ⟨rfl, rfl, by simpa using he.symm⟩
    · simp [hs, hv] at he
  · simp [hs] at he

theorem onePage_held {k : Place} (hk : onePage.held k = some f) :
    (k = .zero ∧ f = 0) ∨ (k = .root 0 ∧ f = 1) ∨ (k = .page 0 5 ∧ f = 2) := by
  cases k with
  | zero => exact .inl ⟨rfl, by simpa [Sys.held, onePage, eq_comm] using hk⟩
  | root s =>
    by_cases hs : s = 0
    · subst hs
      exact .inr (.inl ⟨rfl, by simpa [Sys.held, onePage, eq_comm] using hk⟩)
    · simp [Sys.held, onePage, hs] at hk
  | table s k =>
    by_cases hs : s = 0
    · simp [Sys.held, onePage, hs] at hk
    · simp [Sys.held, onePage, hs] at hk
  | page s v =>
    obtain ⟨e, he, hown⟩ := Option.bind_eq_some_iff.mp hk
    obtain ⟨rfl, rfl, rfl⟩ := onePage_pte he
    exact .inr (.inr ⟨rfl, (own_eq_some.mp hown).2⟩)

theorem private_onePage : Private upward onePage := by
  constructor
  · intro f K hK
    have hone : K.card ≤ 1 := Finset.card_le_one.mpr fun k hk k' hk' => by
      rcases onePage_held (hK k hk) with ⟨rfl, rfl⟩ | ⟨rfl, rfl⟩ | ⟨rfl, rfl⟩ <;>
        rcases onePage_held (hK k' hk') with ⟨rfl, h⟩ | ⟨rfl, h⟩ | ⟨rfl, h⟩ <;> simp_all
    rcases Finset.eq_empty_or_nonempty K with rfl | ⟨k, hk⟩
    · simp
    · rcases onePage_held (hK k hk) with ⟨-, rfl⟩ | ⟨-, rfl⟩ | ⟨-, rfl⟩ <;>
        simpa [frameOwners, onePage] using hone
  · intro s v e he _ _ k hk
    obtain ⟨rfl, rfl, rfl⟩ := onePage_pte he
    rcases onePage_held hk with ⟨-, h⟩ | ⟨-, h⟩ | ⟨rfl, -⟩
    · simp at h
    · simp at h
    · rfl
  · intro s v e he
    obtain ⟨rfl, rfl, rfl⟩ := onePage_pte he
    exact ⟨rfl, rfl, by simp, by simp, by simp [onePage]⟩
  · intro i _
    rfl
  · intro s hs
    have : s ≠ 0 := by simp only [onePage] at hs; omega
    simp [onePage, this]

/-- A fork, a write on each side and an exit. -/
theorem cow_eager_onePage :
    Private upward onePage ∧
    ∀ s v off,
      ((cow upward).run onePage
        [.fork 0, .write 0 5 0 7, .write 1 5 1 9, .fork 1, .destroy 0 1]).read s v off =
      (eager.run onePage.eager
        [.fork 0, .write 0 5 0 7, .write 1 5 1 9, .fork 1, .destroy 0 1]).read s v off :=
  ⟨private_onePage, (cow_eager upward onePage private_onePage _).2⟩

end NovarisOS.Vmspace64
