/-
NovarisOS.Uspace64.Descriptors — copies of the descriptor of a space.

A `vmspace64_t` is the address of a PML4 and is copied freely. What tells
`vmspace64_destroy` that a copy is stale is the table of live spaces, and the
table knows a space by that address only.
-/
import NovarisOS.Uspace64.OwnerTheorems

namespace NovarisOS.Uspace64

open Function (update update_of_ne update_self)

open Vmspace64 (liveAdd)

/-- A copy of a `vmspace64_t`, and the number of the space it was made for. -/
structure Descriptor where
  pml4 : Nat
  space : Nat
  deriving DecidableEq

/-- The machine, all the copies there are, and which space each PML4 belongs
to. -/
structure Desk where
  sys : Sys
  copies : List Descriptor
  holder : Nat → Option Nat
  made : Nat

inductive DeskOp where
  | create (loaded : Nat)
  | copy (i : Nat)
  | fill (i va flags : Nat)
  | destroy (loaded i : Nat)

namespace Desk

def boot (sys : Sys) : Desk := ⟨sys, [], fun _ => none, 0⟩

/-- The space the descriptor was made for is gone. -/
def Stale (d : Desk) (c : Descriptor) : Prop := d.holder c.pml4 ≠ some c.space

/-- `vmspace64_create`. -/
def create (d : Desk) (loaded : Nat) : Desk :=
  let (f, sys) := createSpace d.sys loaded
  if f = 0 then { d with sys := sys }
  else ⟨sys, d.copies ++ [⟨f, d.made⟩], update d.holder f (some d.made), d.made + 1⟩

/-- A page for a space that is there, where it has none. -/
def fill (d : Desk) (c : Descriptor) (va flags : Nat) : Desk :=
  if d.holder c.pml4 = some c.space ∧ va < USPACE64_LIMIT ∧ d.sys.entry c.pml4 (pageOf va) = none then
    { d with sys := (backPage d.sys c.pml4 va flags).2 }
  else d

/-- `vmspace64_destroy` of the copy `i`, which is `c`. Unless nothing was
done at all the copy is cleared. -/
def destroy (d : Desk) (loaded i : Nat) (c : Descriptor) : Desk :=
  { d with
    sys := destroySpace d.sys loaded c.pml4
    copies := if c.pml4 = 0 ∨ loaded = c.pml4 then d.copies else d.copies.set i { c with pml4 := 0 }
    holder := if c.pml4 = 0 ∨ loaded = c.pml4 ∨ c.pml4 ∉ d.sys.live then d.holder
      else update d.holder c.pml4 none }

def call (d : Desk) : DeskOp → Desk × Unit
  | .create loaded => (d.create loaded, ())
  | .copy i => (d.copies[i]?.elim d fun c => { d with copies := d.copies ++ [c] }, ())
  | .fill i va flags => (d.copies[i]?.elim d fun c => d.fill c va flags, ())
  | .destroy loaded i => (d.copies[i]?.elim d fun c => d.destroy loaded i c, ())

end Desk

def desk : Machine Desk DeskOp Unit := ⟨Desk.call⟩

/-! ## What holds on every desk -/

/-- A space in the table is somebody's, and what is somebody's is there. -/
structure Desk.Ok (d : Desk) : Prop where
  kept : Kept (Kernel.boot d.sys)
  live : ∀ f ∈ d.sys.live, d.holder f ≠ none
  here : ∀ f, d.holder f ≠ none → d.sys.spaces f ≠ none

namespace Desk.Ok

variable {d : Desk}

theorem boot {sys : Sys} (h : Booted sys) : (Desk.boot sys).Ok where
  kept := Kept.boot h
  live f hf := by
    have hf : f ∈ sys.live := hf
    rw [h.live] at hf
    cases hf
  here f hf := absurd rfl hf

theorem create (h : d.Ok) (loaded : Nat) : (d.create loaded).Ok := by
  obtain ⟨hkept, hnew⟩ := h.kept.createSpace loaded
  obtain ⟨base, hled⟩ := h.kept.ledger
  have hled : Ledger (fun _ => []) base [] d.sys := hled
  have hspec := (createSpace_cases hled.sound loaded).spec hled.sound
  unfold Desk.create
  rcases hr : createSpace d.sys loaded with ⟨f, sys⟩
  change Kept (Kernel.boot (createSpace d.sys loaded).2) at hkept
  rw [hr] at hkept hspec
  simp only at hkept hspec ⊢
  rcases hspec with ⟨rfl, hcalm, -⟩ | hc
  · rw [if_pos rfl]
    refine ⟨hkept, fun g hg => ?_, fun g hg hnone => h.here g hg ((hcalm.here g).mp hnone)⟩
    rw [hcalm.live] at hg
    exact h.live g hg
  · rw [if_neg hc.ne]
    refine ⟨hkept, fun g hg => ?_, fun g hg => ?_⟩
    · show update d.holder f (some d.made) g ≠ none
      by_cases hgf : g = f
      · rw [hgf, update_self]
        simp
      · have hg : g ∈ sys.live := hg
        rw [hc.live, liveAdd] at hg
        rw [update_of_ne hgf]
        split at hg
        · rcases List.mem_append.mp hg with hg | hg
          · exact h.live g hg
          · exact absurd (List.mem_singleton.mp hg) hgf
        · exact h.live g hg
    · show sys.spaces g ≠ none
      rw [hc.spaces]
      by_cases hgf : g = f
      · rw [hgf, update_self]
        simp
      · have hg : update d.holder f (some d.made) g ≠ none := hg
        rw [update_of_ne hgf] at hg ⊢
        exact h.here g hg

theorem fill (h : d.Ok) (c : Descriptor) (va flags : Nat) : (d.fill c va flags).Ok := by
  unfold Desk.fill
  split
  · rename_i hc
    obtain ⟨base, hled⟩ := h.kept.ledger
    have hthere : d.sys.spaces c.pml4 ≠ none := h.here _ (by rw [hc.1]; simp)
    have hgo := backPage_going hled (pageOf_low hc.2.1) hthere hc.2.2 flags
    have hst : Steady d.sys (backPage d.sys c.pml4 va flags).2 := hled.steady hgo
    refine ⟨h.kept.steady ⟨base, hled.moves hgo⟩ hst, fun f hf => ?_,
      fun f hf hnone => h.here f hf ((hst.here f).mp hnone)⟩
    rw [hst.live] at hf
    exact h.live f hf
  · exact h

theorem destroy (h : d.Ok) (loaded i : Nat) (c : Descriptor) : (d.destroy loaded i c).Ok := by
  have hkept : Kept (Kernel.boot (destroySpace d.sys loaded c.pml4)) :=
    h.kept.destroySpace loaded c.pml4 fun n p hp => by cases hp
  have hnodup : d.sys.live.Nodup := h.kept.nodup
  refine ⟨hkept, fun f hf => ?_, fun f hf => ?_⟩
  · change f ∈ (destroySpace d.sys loaded c.pml4).live at hf
    show (if _ then d.holder else update d.holder c.pml4 none) f ≠ none
    rcases destroySpace_cases d.sys loaded c.pml4 with ⟨hsame, hwhy⟩ | ⟨live, h0, hl, hperm, hres⟩
    · rw [hsame] at hf
      rw [if_pos hwhy]
      exact h.live f hf
    · rw [hres] at hf
      have hnot := (List.nodup_cons.mp (hperm.nodup_iff.mp hnodup)).1
      have hmem : f ∈ d.sys.live := hperm.mem_iff.mpr (List.mem_cons_of_mem _ hf)
      have hin : c.pml4 ∈ d.sys.live := hperm.mem_iff.mpr (List.mem_cons_self ..)
      rw [if_neg (by simp [h0, hl, hin]), update_of_ne (ne_of_mem_of_not_mem hf hnot)]
      exact h.live f hmem
  · change (if _ then d.holder else update d.holder c.pml4 none) f ≠ none at hf
    show (destroySpace d.sys loaded c.pml4).spaces f ≠ none
    rcases destroySpace_cases d.sys loaded c.pml4 with ⟨hsame, hwhy⟩ | ⟨live, h0, hl, hperm, hres⟩
    · rw [if_pos hwhy] at hf
      rw [hsame]
      exact h.here f hf
    · have hin : c.pml4 ∈ d.sys.live := hperm.mem_iff.mpr (List.mem_cons_self ..)
      rw [if_neg (by simp [h0, hl, hin])] at hf
      have hne : f ≠ c.pml4 := by
        rintro rfl
        exact hf (update_self ..)
      rw [update_of_ne hne] at hf
      rw [hres]
      show update d.sys.spaces c.pml4 none f ≠ none
      rw [update_of_ne hne]
      exact h.here f hf

theorem step (d : Desk) (op : DeskOp) (h : d.Ok) : (desk.step d op).1.Ok := by
  cases op with
  | create loaded => exact h.create loaded
  | copy i =>
    show (d.copies[i]?.elim d _).Ok
    cases d.copies[i]? with
    | none => exact h
    | some c => exact ⟨h.kept, h.live, h.here⟩
  | fill i va flags =>
    show (d.copies[i]?.elim d _).Ok
    cases d.copies[i]? with
    | none => exact h
    | some c => exact h.fill c va flags
  | destroy loaded i =>
    show (d.copies[i]?.elim d _).Ok
    cases d.copies[i]? with
    | none => exact h
    | some c => exact h.destroy loaded i c

theorem run {sys : Sys} (h : Booted sys) (ops : List DeskOp) : (desk.run (Desk.boot sys) ops).Ok :=
  desk.invariant_of_step (fun (d : Desk) op (hd : d.Ok) _ => step d op hd) ops _ (boot h)
    (desk.guarded_true _ ops)

end Desk.Ok

/-! ## Stale copies -/

/-- A space keeps its tree, and the frames it holds keep their owners: its
PML4, its tables and its pages. -/
def Untouched (s : Nat) (sys sys' : Sys) : Prop :=
  sys'.spaces s = sys.spaces s ∧ ∀ t, sys.spaces s = some t → ∀ k ∈ t.places s, ∀ f,
    sys.held everywhere (fun _ => []) k = some f → sys'.pmm.frameOwners f = sys.pmm.frameOwners f

/-- Destroying a copy whose space is gone does nothing to any other space,
exactly if the address it names is not that of a live space again. (A copy
that is cleared and one of the space that is loaded are let alone.) -/
theorem stale_destroy_harmless (sys : Sys) (hboot : Booted sys) (ops : List DeskOp) (c : Descriptor)
    (loaded : Nat) (hstale : (desk.run (Desk.boot sys) ops).Stale c) :
    (∀ s n, (desk.run (Desk.boot sys) ops).holder s = some n → n ≠ c.space →
      Untouched s (desk.run (Desk.boot sys) ops).sys
        (destroySpace (desk.run (Desk.boot sys) ops).sys loaded c.pml4)) ↔
    (c.pml4 = 0 ∨ loaded = c.pml4 ∨ c.pml4 ∉ (desk.run (Desk.boot sys) ops).sys.live) := by
  have hok := Desk.Ok.run hboot ops
  generalize desk.run (Desk.boot sys) ops = d at hok hstale ⊢
  constructor
  · intro hharmless
    rcases destroySpace_cases d.sys loaded c.pml4 with ⟨-, hwhy⟩ | ⟨live, -, -, hperm, hres⟩
    · exact hwhy
    · -- the space that has the address now is destroyed
      exfalso
      have hin : c.pml4 ∈ d.sys.live := hperm.mem_iff.mpr (List.mem_cons_self ..)
      obtain ⟨n, hn⟩ := Option.ne_none_iff_exists'.mp (hok.live _ hin)
      have hne : n ≠ c.space := by
        rintro rfl
        exact hstale hn
      have hsame := (hharmless c.pml4 n hn hne).1
      rw [hres] at hsame
      have hgone : d.sys.spaces c.pml4 = none := by
        rw [← hsame]
        exact update_self ..
      exact hok.here _ (by rw [hn]; simp) hgone
  · intro hwhy s n _ _
    rcases destroySpace_cases d.sys loaded c.pml4 with ⟨hsame, -⟩ | ⟨live, h0, hl, hperm, -⟩
    · rw [hsame]
      exact ⟨rfl, fun _ _ _ _ _ _ => rfl⟩
    · have hin : c.pml4 ∈ d.sys.live := hperm.mem_iff.mpr (List.mem_cons_self ..)
      exact absurd hwhy (by simp [h0, hl, hin])

/-- Two spaces are made, the second with a page, and the first is destroyed.
Destroying a copy of it once more leaves the second alone. -/
theorem stale_destroy_harmless_once :
    let d := desk.run (Desk.boot plainSys) [.create 0, .copy 0, .create 0, .fill 2 0x400000 7, .destroy 0 0]
    d.copies = [⟨0, 0⟩, ⟨256, 0⟩, ⟨260, 1⟩] ∧ d.holder 260 = some 1 ∧
      Untouched 260 d.sys (destroySpace d.sys 0 256) :=
  ⟨by decide, by decide, (stale_destroy_harmless plainSys plainSys_booted
    [.create 0, .copy 0, .create 0, .fill 2 0x400000 7, .destroy 0 0] ⟨256, 0⟩ 0
      (by unfold Desk.Stale; decide)).mpr (Or.inr (Or.inr (by decide))) 260 1 (by decide) (by decide)⟩

/-- The next space gets the same PML4, and has a page; destroying the stale
copy of the first destroys it. -/
theorem stale_destroy_harms :
    (desk.run (Desk.boot plainSys)
      [.create 0, .copy 0, .destroy 0 0, .create 0, .fill 2 0x400000 7]).copies =
        [⟨0, 0⟩, ⟨256, 0⟩, ⟨256, 1⟩] ∧
    ¬ ∀ s n, (desk.run (Desk.boot plainSys)
        [.create 0, .copy 0, .destroy 0 0, .create 0, .fill 2 0x400000 7]).holder s = some n → n ≠ 0 →
      Untouched s (desk.run (Desk.boot plainSys)
          [.create 0, .copy 0, .destroy 0 0, .create 0, .fill 2 0x400000 7]).sys
        (destroySpace (desk.run (Desk.boot plainSys)
          [.create 0, .copy 0, .destroy 0 0, .create 0, .fill 2 0x400000 7]).sys 0 256) := by
  refine ⟨by decide, fun h => ?_⟩
  have hsame := (h 256 1 (by decide) (by decide)).1
  have hgone : ((destroySpace (desk.run (Desk.boot plainSys)
      [.create 0, .copy 0, .destroy 0 0, .create 0, .fill 2 0x400000 7]).sys 0 256).spaces 256).isSome =
      false := by decide
  have hhere : ((desk.run (Desk.boot plainSys)
      [.create 0, .copy 0, .destroy 0 0, .create 0, .fill 2 0x400000 7]).sys.spaces 256).isSome =
      true := by decide
  rw [hsame, hhere] at hgone
  cases hgone

end NovarisOS.Uspace64
