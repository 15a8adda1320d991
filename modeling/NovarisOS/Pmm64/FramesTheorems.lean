/-
NovarisOS.Pmm64.FramesTheorems — what the frame allocator promises its
callers.

Everything outside this file sees the allocator through `frameOwners`: an
allocation takes a frame without owners and gives it one (`Took`), a free
takes one owner away (`frameOwners_freeFrame`), a reference adds one
(`refFrame_some`). The bitmap, the hints and the running count stay here.
-/
import Mathlib.Order.Interval.Finset.Nat
import NovarisOS.Lib.Bitmap
import NovarisOS.Lib.Machine
import NovarisOS.Pmm64.Frames

namespace NovarisOS.Pmm64

open Function (update update_eq_self update_of_ne update_self)

namespace Pmm

/-! ## §1 The bitmap -/

@[simp] theorem bitmapTest_bitmapSet (p : Pmm) (b f : Nat) :
    (p.bitmapSet b).bitmapTest f = (decide (f = b) || p.bitmapTest f) := Bitmap.test_set p.bitmap b f

variable {p : Pmm} {f n b : Nat}

@[simp] theorem bitmapTest_bitmapClear (p : Pmm) (b f : Nat) :
    (p.bitmapClear b).bitmapTest f = (decide (f ≠ b) && p.bitmapTest f) := Bitmap.test_clear p.bitmap b f

theorem bitmapTest_of_full (h : p.bitmap b = 0xFF)
    (hf : f / 8 = b) : p.bitmapTest f = true := Bitmap.test_of_full h hf

/-! ## §2 The count -/

/-- The frames marked used among those the bitmap describes. -/
def usedSet (p : Pmm) : Finset Nat := (Finset.range p.frameCount).filter (fun f => p.bitmapTest f)

theorem mem_usedSet : f ∈ p.usedSet ↔ f < p.frameCount ∧ p.bitmapTest f = true := by
  simp [usedSet]

theorem usedSet_bitmapSet (p : Pmm) (b : Nat) (hb : b < p.frameCount) :
    (p.bitmapSet b).usedSet = insert b p.usedSet := by
  ext f
  rw [Finset.mem_insert, mem_usedSet, mem_usedSet, bitmapTest_bitmapSet]
  have hcount : (p.bitmapSet b).frameCount = p.frameCount := rfl
  rw [hcount]
  by_cases h : f = b
  · simp [h, hb]
  · simp [h]

theorem usedSet_bitmapClear (p : Pmm) (b : Nat) : (p.bitmapClear b).usedSet = p.usedSet.erase b := by
  ext f
  rw [Finset.mem_erase, mem_usedSet, mem_usedSet, bitmapTest_bitmapClear]
  have hcount : (p.bitmapClear b).frameCount = p.frameCount := rfl
  rw [hcount]
  by_cases h : f = b <;> simp [h]

/-- The running count is the number of bits that are set. -/
def Counts (p : Pmm) : Prop := p.usedCount = p.usedSet.card

theorem Counts.bitmapSet (h : p.Counts) (hb : b < p.frameCount) : (p.bitmapSet b).Counts := by
  rw [Counts, usedSet_bitmapSet p b hb]
  by_cases hbit : p.bitmapTest b = true
  · rw [Finset.insert_eq_self.mpr (mem_usedSet.mpr ⟨hb, hbit⟩)]
    simpa [Pmm.bitmapSet, hbit, Counts] using h
  · rw [Finset.card_insert_of_notMem fun hmem => hbit (mem_usedSet.mp hmem).2, ← h]
    simp [Pmm.bitmapSet, hbit, hb]

theorem Counts.bitmapClear (h : p.Counts) (hb : b < p.frameCount) : (p.bitmapClear b).Counts := by
  rw [Counts, usedSet_bitmapClear p b]
  by_cases hbit : p.bitmapTest b = true
  · rw [Finset.card_erase_of_mem (mem_usedSet.mpr ⟨hb, hbit⟩), ← h]
    simp [Pmm.bitmapClear, hbit, hb]
  · rw [Finset.erase_eq_of_notMem fun hmem => hbit (mem_usedSet.mp hmem).2]
    simpa [Pmm.bitmapClear, hbit, Counts] using h

theorem byteUsed_eq (v : BitVec 8) :
    byteUsed v = ((Finset.range 8).filter fun i => v.getLsbD i).card := by
  revert v
  decide

/-- How many frames of `[a, b)` are marked used. -/
def usedIn (p : Pmm) (a b : Nat) : Nat := ((Finset.Ico a b).filter fun f => p.bitmapTest f).card

theorem usedIn_add (p : Pmm) {a c : Nat} (hab : a ≤ b) (hbc : b ≤ c) :
    p.usedIn a b + p.usedIn b c = p.usedIn a c := by
  have hapart : Disjoint ((Finset.Ico a b).filter fun f => p.bitmapTest f)
      ((Finset.Ico b c).filter fun f => p.bitmapTest f) := by
    refine Finset.disjoint_filter_filter (Finset.disjoint_left.mpr fun f hf hf' => ?_)
    have := (Finset.mem_Ico.mp hf).2
    have := (Finset.mem_Ico.mp hf').1
    omega
  rw [usedIn, usedIn, ← Finset.card_union_of_disjoint hapart, ← Finset.filter_union,
    Finset.Ico_union_Ico_eq_Ico hab hbc, usedIn]

theorem usedIn_byte (p : Pmm) (b : Nat) : p.usedIn (b * 8) (b * 8 + 8) = byteUsed (p.bitmap b) := by
  rw [byteUsed_eq]
  symm
  refine Finset.card_bij (fun i _ => b * 8 + i) ?_ ?_ ?_
  · intro i hi
    obtain ⟨hi, hbit⟩ := Finset.mem_filter.mp hi
    have hi := Finset.mem_range.mp hi
    have hdiv : (b * 8 + i) / 8 = b := by omega
    have hmod : (b * 8 + i) % 8 = i := by omega
    refine Finset.mem_filter.mpr ⟨Finset.mem_Ico.mpr ⟨by omega, by omega⟩, ?_⟩
    rw [bitmapTest, hdiv, hmod]
    exact hbit
  · intro i _ j _ hij
    omega
  · intro f hf
    obtain ⟨hf, hbit⟩ := Finset.mem_filter.mp hf
    obtain ⟨hlo, hhi⟩ := Finset.mem_Ico.mp hf
    have hdiv : f / 8 = b := by omega
    have hmod : f % 8 = f - b * 8 := by omega
    rw [bitmapTest, hdiv, hmod] at hbit
    exact ⟨f - b * 8, Finset.mem_filter.mpr ⟨Finset.mem_range.mpr (by omega), hbit⟩, by omega⟩

theorem foldl_byteUsed (p : Pmm) (whole : Nat) :
    (List.range whole).foldl (fun used b => used + byteUsed (p.bitmap b)) 0 =
      p.usedIn 0 (whole * 8) := by
  induction whole with
  | zero => rfl
  | succ whole ih =>
    rw [List.range_succ, List.foldl_append, List.foldl_cons, List.foldl_nil, ih, ← usedIn_byte,
      usedIn_add p (Nat.zero_le _) (Nat.le_add_right _ _), Nat.succ_mul]

theorem foldl_tail (p : Pmm) (n : Nat) : ∀ (first acc : Nat),
    (List.range' first n).foldl (fun used f => if p.bitmapTest f then used + 1 else used) acc =
      acc + p.usedIn first (first + n) := by
  induction n with
  | zero => intro first acc; simp [usedIn]
  | succ n ih =>
    intro first acc
    have hone : p.usedIn first (first + 1) = if p.bitmapTest first then 1 else 0 := by
      rw [usedIn, Nat.Ico_succ_singleton, Finset.filter_singleton]
      split <;> rfl
    rw [List.range'_succ, List.foldl_cons, ih,
      ← usedIn_add p (Nat.le_add_right first 1) (by omega : first + 1 ≤ first + (n + 1)), hone,
      show first + (n + 1) = first + 1 + n by omega]
    split <;> omega

theorem freeFramesScanned_eq (h : p.Counts) : p.freeFramesScanned = p.freeFrames := by
  unfold freeFramesScanned freeFrames
  split
  · rfl
  · have hle : p.frameCount / 8 * 8 ≤ p.frameCount := Nat.div_mul_le_self _ _
    have hused : p.usedCount = p.usedIn 0 p.frameCount := by
      rw [h, usedSet, Finset.range_eq_Ico, usedIn]
    simp only
    rw [foldl_tail, foldl_byteUsed, Nat.add_sub_cancel' hle, usedIn_add p (Nat.zero_le _) hle,
      hused]

/-! ## §3 The scans -/

theorem scanUp_some {stop : Nat} : ∀ (n f : Nat) {g : Nat},
    p.scanUp stop n f = some g → f ≤ g ∧ g < stop ∧ p.bitmapTest g = false := by
  intro n
  induction n with
  | zero => intro f g h; simp [scanUp] at h
  | succ n ih =>
    intro f g h
    rw [scanUp] at h
    split at h
    · split at h
      · obtain ⟨hle, hlt, hbit⟩ := ih _ h
        exact ⟨by omega, hlt, hbit⟩
      · split at h
        · rename_i hlt _ hbit
          cases h
          exact ⟨Nat.le_refl _, hlt, by simpa using hbit⟩
        · obtain ⟨hle, hlt, hbit⟩ := ih _ h
          exact ⟨by omega, hlt, hbit⟩
    · cases h

theorem scanUp_none {stop : Nat} : ∀ (n f : Nat), stop ≤ f + n →
    p.scanUp stop n f = none → ∀ g, f ≤ g → g < stop → p.bitmapTest g = true := by
  intro n
  induction n with
  | zero => intro f hn _ g hlo hhi; omega
  | succ n ih =>
    intro f hn h g hlo hhi
    rw [scanUp, if_pos (by omega)] at h
    split at h
    · rename_i hbyte
      obtain ⟨halign, hroom, hfull⟩ := hbyte
      by_cases hskip : g < f + 8
      · exact bitmapTest_of_full hfull (by omega)
      · exact ih _ (by omega) h g (by omega) hhi
    · split at h
      · cases h
      · rename_i hbit
        by_cases hg : g = f
        · rw [hg]
          simpa using hbit
        · exact ih _ (by omega) h g (by omega) hhi

theorem scanDown_some {stop : Nat} : ∀ (n f : Nat) {g : Nat},
    p.scanDown stop n f = some g → stop ≤ g ∧ g < f ∧ p.bitmapTest g = false := by
  intro n
  induction n with
  | zero => intro f g h; simp [scanDown] at h
  | succ n ih =>
    intro f g h
    rw [scanDown] at h
    split at h
    · simp only at h
      split at h
      · obtain ⟨hle, hlt, hbit⟩ := ih _ h
        exact ⟨hle, by omega, hbit⟩
      · split at h
        · rename_i hlt _ hbit
          cases h
          exact ⟨by omega, by omega, by simpa using hbit⟩
        · obtain ⟨hle, hlt, hbit⟩ := ih _ h
          exact ⟨hle, by omega, hbit⟩
    · cases h

/-! ## §4 The invariant and the calls -/

/-- What every call keeps: a frame that is free has no extra owners, the
running count is right, and the upward hint is a position. -/
structure Wf (p : Pmm) : Prop where
  refs_free : ∀ f, p.bitmapTest f = false → p.refs f = 0
  refs_le : ∀ f, p.refs f ≤ REF_MAX
  counts : p.Counts
  hint : p.allocHint ≤ p.frameCount

/-- Frame 0 is not free, so that the number 0 means a refusal. -/
def Grounded (p : Pmm) : Prop := p.ready = true → p.bitmapTest 0 = true

/-- `f` is what an allocation returned, with the state after it: nothing but
`f` changed hands, and unless `f` is 0 it had no owner and has one now. -/
structure Took (p : Pmm) (f : Nat) (p' : Pmm) : Prop where
  wf : p'.Wf
  ready : p'.ready = p.ready
  frameCount : p'.frameCount = p.frameCount
  ram : p'.ram = p.ram
  ground : p.Grounded → p'.Grounded
  other : ∀ g, g ≠ f → p'.frameOwners g = p.frameOwners g
  none : f = 0 → p.Grounded → p'.frameOwners = p.frameOwners
  fresh : f ≠ 0 → f < p.frameCount ∧ p.frameOwners f = 0 ∧ p'.frameOwners f = 1

theorem Took.refused (hp : p.Wf) : Took p 0 p where
  wf := hp
  ready := rfl
  frameCount := rfl
  ram := rfl
  ground := id
  other := fun _ _ => rfl
  none := fun _ _ => rfl
  fresh := fun h => absurd rfl h

theorem frameOwners_of_free (h : p.bitmapTest f = false) : p.frameOwners f = 0 := by
  simp [frameOwners, h]

theorem frameOwners_bitmapSet (hp : p.Wf) (hready : p.ready = true)
    (hf : f < p.frameCount) (hfree : p.bitmapTest f = false) :
    (p.bitmapSet f).frameOwners = update p.frameOwners f 1 := by
  funext g
  have hrefs : (p.bitmapSet f).refs = p.refs := rfl
  have hcount : (p.bitmapSet f).frameCount = p.frameCount := rfl
  have hrd : (p.bitmapSet f).ready = p.ready := rfl
  simp only [frameOwners, bitmapTest_bitmapSet, hrefs, hcount, hrd]
  by_cases hg : g = f
  · subst hg
    simp [hready, hf, hp.refs_free g hfree]
  · simp [hg, frameOwners]

theorem Wf.bitmapSet (hp : p.Wf) (hf : f < p.frameCount) :
    (p.bitmapSet f).Wf where
  refs_free g hg := by
    rw [bitmapTest_bitmapSet, Bool.or_eq_false_iff] at hg
    exact hp.refs_free g hg.2
  refs_le := hp.refs_le
  counts := hp.counts.bitmapSet hf
  hint := hp.hint

theorem Took.bitmapSet (hp : p.Wf) (hready : p.ready = true)
    (hf : f < p.frameCount) (hfree : p.bitmapTest f = false) {hint high : Nat}
    (hhint : hint ≤ p.frameCount) :
    Took p f { p.bitmapSet f with allocHint := hint, highHint := high } := by
  have hwf := hp.bitmapSet hf
  have howners : ({ p.bitmapSet f with allocHint := hint, highHint := high } : Pmm).frameOwners =
      update p.frameOwners f 1 := (frameOwners_bitmapSet hp hready hf hfree :)
  refine ⟨⟨hwf.refs_free, hwf.refs_le, hwf.counts, hhint⟩, rfl, rfl, rfl, ?_, ?_, ?_, ?_⟩
  · intro hground h0
    have := bitmapTest_bitmapSet p f 0
    rw [hground h0, Bool.or_true] at this
    exact this
  · intro g hg
    rw [howners, update_of_ne hg]
  · intro h0 hground
    rw [h0, hground hready] at hfree
    exact absurd hfree (by simp)
  · intro _
    exact ⟨hf, frameOwners_of_free hfree, by rw [howners, update_self]⟩

theorem allocFrame_took (hp : p.Wf) : Took p p.allocFrame.1 p.allocFrame.2 := by
  unfold allocFrame
  split
  · exact Took.refused hp
  · rename_i hready
    have hready : p.ready = true := by simpa using hready
    cases hfind : p.findUp with
    | none => exact Took.refused hp
    | some f =>
      have hfound : f < p.frameCount ∧ p.bitmapTest f = false := by
        rw [findUp, Option.or_eq_some_iff] at hfind
        rcases hfind with h | ⟨-, h⟩
        · exact (scanUp_some _ _ h).2
        · obtain ⟨-, hlt, hbit⟩ := scanUp_some _ _ h
          exact ⟨Nat.lt_of_lt_of_le hlt hp.hint, hbit⟩
      exact Took.bitmapSet hp hready hfound.1 hfound.2 hfound.1

theorem allocFrame_complete (hready : p.ready = true) (hground : p.Grounded)
    (h : p.allocFrame.1 = 0) : ∀ f < p.frameCount, p.bitmapTest f = true := by
  intro f hf
  unfold allocFrame at h
  rw [hready] at h
  cases hfind : p.findUp with
  | some g =>
    -- frame 0 is taken, so no scan stops at it
    rw [hfind] at h
    have hg : g = 0 := h
    rw [findUp, Option.or_eq_some_iff] at hfind
    have hbit : p.bitmapTest g = false := by
      rcases hfind with h | ⟨-, h⟩
      · exact (scanUp_some _ _ h).2.2
      · exact (scanUp_some _ _ h).2.2
    rw [hg, hground hready] at hbit
    exact absurd hbit (by simp)
  | none =>
    rw [findUp, Option.or_eq_none_iff] at hfind
    by_cases hlow : f < p.allocHint
    · exact scanUp_none _ _ (by omega) hfind.2 f (Nat.zero_le _) hlow
    · exact scanUp_none _ _ (by omega) hfind.1 f (by omega) hf

theorem Wf.clampHigh (hp : p.Wf) (high : Nat) : ({ p with highHint := high } : Pmm).Wf :=
  ⟨hp.refs_free, hp.refs_le, hp.counts, hp.hint⟩

/-- `pmm64_alloc_high` with its hint in place. -/
def allocHighFrom (p : Pmm) : Nat × Pmm :=
  match p.findDown with
  | some f => (f, { p.bitmapSet f with highHint := f })
  | none => p.allocFrame

theorem allocHigh_eq (hready : p.ready = true) :
    p.allocHigh = allocHighFrom { p with highHint := min p.highHint p.frameCount } := by
  unfold allocHigh
  rw [if_neg (by simp [hready])]
  by_cases h : p.highHint > p.frameCount
  · rw [if_pos h, Nat.min_eq_right (Nat.le_of_lt h)]
    rfl
  · rw [if_neg h, Nat.min_eq_left (by omega)]
    rfl

theorem findDown_some (hhigh : p.highHint ≤ p.frameCount)
    (h : p.findDown = some f) : f < p.frameCount ∧ p.bitmapTest f = false := by
  rw [findDown, Option.or_eq_some_iff] at h
  rcases h with h | ⟨-, h⟩
  · obtain ⟨-, hlt, hbit⟩ := scanDown_some _ _ h
    exact ⟨by omega, hbit⟩
  · exact (scanDown_some _ _ h).2

theorem allocHigh_took (hp : p.Wf) : Took p p.allocHigh.1 p.allocHigh.2 := by
  by_cases hready : p.ready = true
  · rw [allocHigh_eq hready]
    have hq := hp.clampHigh (min p.highHint p.frameCount)
    have hhigh : min p.highHint p.frameCount ≤ p.frameCount := Nat.min_le_right _ _
    unfold allocHighFrom
    split
    · rename_i f hfind
      obtain ⟨hf, hfree⟩ := findDown_some hhigh hfind
      exact Took.bitmapSet hp hready hf hfree hp.hint
    · obtain ⟨h1, h2, h3, h4, h5, h6, h7, h8⟩ := allocFrame_took hq
      exact ⟨h1, h2, h3, h4, h5, h6, h7, h8⟩
  · have hnot : p.allocHigh = (0, p) := by simp [allocHigh, hready]
    rw [hnot]
    exact Took.refused hp

theorem allocHigh_complete (hready : p.ready = true) (hground : p.Grounded)
    (h : p.allocHigh.1 = 0) : ∀ f < p.frameCount, p.bitmapTest f = true := by
  rw [allocHigh_eq hready] at h
  unfold allocHighFrom at h
  split at h
  · rename_i g hfind
    have hg : g = 0 := h
    have hbit : p.bitmapTest g = false := (findDown_some (Nat.min_le_right _ _) hfind).2
    rw [hg, hground hready] at hbit
    exact absurd hbit (by simp)
  · exact allocFrame_complete (p := { p with highHint := min p.highHint p.frameCount })
      hready hground h

theorem allocAbove_took (hp : p.Wf) (minPhys : Nat) :
    Took p (p.allocAbove minPhys).1 (p.allocAbove minPhys).2 := by
  unfold allocAbove
  simp only
  split
  · exact Took.refused hp
  · rename_i hready
    split
    · rename_i f hfind
      have hmem := List.mem_of_find?_eq_some hfind
      have hfree := List.find?_some hfind
      have hlt : f < p.frameCount := by
        have := List.mem_range'_1.mp hmem
        omega
      exact Took.bitmapSet hp (by simpa using hready) hlt (by simpa using hfree) hp.hint
    · exact Took.refused hp

theorem Wf.userOom (hp : p.Wf) (b : Bool) : ({ p with userOom := b } : Pmm).Wf :=
  ⟨hp.refs_free, hp.refs_le, hp.counts, hp.hint⟩

theorem allocUser_took (hp : p.Wf) : Took p p.allocUser.1 p.allocUser.2 := by
  unfold allocUser
  split
  · have h := Took.refused hp
    exact ⟨hp.userOom _, h.ready, h.frameCount, h.ram, h.ground, h.other, h.none, h.fresh⟩
  · have h := allocHigh_took hp
    rcases hr : p.allocHigh with ⟨f, p'⟩
    rw [hr] at h
    simp only at h ⊢
    split
    · rename_i hf
      subst hf
      exact ⟨h.wf.userOom _, h.ready, h.frameCount, h.ram, h.ground, h.other, h.none, h.fresh⟩
    · exact h

theorem frameOwners_of_used (hready : p.ready = true) (hf : f < p.frameCount)
    (hused : p.bitmapTest f = true) : p.frameOwners f = 1 + p.refs f := by
  simp [frameOwners, hready, hf, hused]

theorem frameOwners_setRefs (hready : p.ready = true) (hf : f < p.frameCount)
    (hused : p.bitmapTest f = true) (n : Nat) :
    ({ p with refs := update p.refs f n } : Pmm).frameOwners =
      update p.frameOwners f (1 + n) := by
  funext g
  by_cases hg : g = f
  · subst hg
    rw [update_self]
    have h := frameOwners_of_used (p := { p with refs := update p.refs g n }) hready hf hused
    simpa using h
  · simp [frameOwners, bitmapTest, update_of_ne hg]

theorem Wf.setRefs (hp : p.Wf) (hused : p.bitmapTest f = true)
    (hn : n ≤ REF_MAX) : ({ p with refs := update p.refs f n } : Pmm).Wf where
  refs_free g hg := by
    have hg : p.bitmapTest g = false := hg
    have hgf : g ≠ f := by
      intro hgf
      rw [hgf, hused] at hg
      cases hg
    show update p.refs f n g = 0
    rw [update_of_ne hgf]
    exact hp.refs_free g hg
  refs_le g := by
    show update p.refs f n g ≤ REF_MAX
    by_cases hgf : g = f
    · rw [hgf, update_self]
      exact hn
    · rw [update_of_ne hgf]
      exact hp.refs_le g
  counts := hp.counts
  hint := hp.hint

theorem frameOwners_clear (p : Pmm) (f hint high : Nat) :
    ({ p.bitmapClear f with allocHint := hint, highHint := high } : Pmm).frameOwners =
      update p.frameOwners f 0 := by
  funext g
  have htest := bitmapTest_bitmapClear p f g
  by_cases hg : g = f
  · subst hg
    rw [update_self]
    exact frameOwners_of_free (p := { p.bitmapClear g with allocHint := hint, highHint := high })
      (htest.trans (by simp))
  · rw [update_of_ne hg]
    have hkeep : (p.bitmapClear f).bitmapTest g = p.bitmapTest g := htest.trans (by simp [hg])
    show (if _ then 0 else if !(p.bitmapClear f).bitmapTest g then 0 else 1 + p.refs g) = _
    rw [hkeep]
    rfl

theorem freeFrame_cases (p : Pmm) (f : Nat) :
    (p.frameOwners f = 0 ∧ p.freeFrame f = p) ∨
    (p.frameOwners f = 0 ∧ p.freeFrame f = { p with doubleFrees := p.doubleFrees + 1 }) ∨
    (p.ready = true ∧ f < p.frameCount ∧ p.bitmapTest f = true ∧ p.refs f ≠ 0 ∧
      p.freeFrame f = { p with refs := update p.refs f (p.refs f - 1) }) ∨
    (p.ready = true ∧ f < p.frameCount ∧ p.bitmapTest f = true ∧ p.refs f = 0 ∧
      p.freeFrame f = { p.bitmapClear f with
        allocHint := if f < p.allocHint then f else p.allocHint
        highHint := if f ≥ p.highHint then f + 1 else p.highHint }) := by
  unfold freeFrame
  split
  · rename_i hout
    exact Or.inl ⟨by rw [frameOwners, if_pos hout], rfl⟩
  · rename_i hin
    have hin : p.ready = true ∧ f < p.frameCount := by
      simpa only [Bool.or_eq_true, Bool.not_eq_true', decide_eq_true_eq, not_or,
        Bool.not_eq_false, not_le, ge_iff_le] using hin
    split
    · rename_i hfree
      exact Or.inr (Or.inl ⟨frameOwners_of_free (by simpa using hfree), rfl⟩)
    · rename_i hused
      have hused : p.bitmapTest f = true := by simpa using hused
      split
      · rename_i hrefs
        exact Or.inr (Or.inr (Or.inl ⟨hin.1, hin.2, hused, hrefs, rfl⟩))
      · rename_i hrefs
        exact Or.inr (Or.inr (Or.inr ⟨hin.1, hin.2, hused, by simpa using hrefs, rfl⟩))

theorem frameOwners_freeFrame (p : Pmm) (f : Nat) :
    (p.freeFrame f).frameOwners = update p.frameOwners f (p.frameOwners f - 1) := by
  rcases freeFrame_cases p f with ⟨h0, h⟩ | ⟨h0, h⟩ | ⟨hready, hf, hused, hrefs, h⟩ |
      ⟨hready, hf, hused, hrefs, h⟩
  · rw [h, h0, Nat.zero_sub, ← h0, update_eq_self]
  · rw [h, h0, Nat.zero_sub, ← h0, update_eq_self]
    rfl
  · rw [h, frameOwners_setRefs hready hf hused, frameOwners_of_used hready hf hused,
      show 1 + (p.refs f - 1) = 1 + p.refs f - 1 by omega]
  · rw [h, frameOwners_clear, frameOwners_of_used hready hf hused, hrefs]

theorem Wf.freeFrame (hp : p.Wf) (f : Nat) : (p.freeFrame f).Wf := by
  rcases freeFrame_cases p f with ⟨-, h⟩ | ⟨-, h⟩ | ⟨-, -, hused, -, h⟩ | ⟨-, hf, hused, hrefs, h⟩
  · rw [h]
    exact hp
  · rw [h]
    exact ⟨hp.refs_free, hp.refs_le, hp.counts, hp.hint⟩
  · rw [h]
    exact hp.setRefs hused (Nat.le_trans (Nat.sub_le _ _) (hp.refs_le f))
  · rw [h]
    refine ⟨?_, hp.refs_le, hp.counts.bitmapClear hf, ?_⟩
    · intro g hg
      have hg : (p.bitmapClear f).bitmapTest g = false := hg
      by_cases hgf : g = f
      · rw [hgf]
        exact hrefs
      · exact hp.refs_free g (by simpa [hgf] using hg)
    · show (if f < p.allocHint then f else p.allocHint) ≤ p.frameCount
      split <;> omega

theorem freeFrame_fields (p : Pmm) (f : Nat) :
    (p.freeFrame f).ready = p.ready ∧ (p.freeFrame f).frameCount = p.frameCount ∧
      (p.freeFrame f).ram = p.ram := by
  rcases freeFrame_cases p f with ⟨-, h⟩ | ⟨-, h⟩ | ⟨-, -, -, -, h⟩ | ⟨-, -, -, -, h⟩ <;>
    (rw [h]; exact ⟨rfl, rfl, rfl⟩)

theorem refFrame_some {p' : Pmm} (hp : p.Wf) (h : p.refFrame f = some p') :
    p'.Wf ∧ p'.frameOwners = update p.frameOwners f (p.frameOwners f + 1) ∧
      0 < p.frameOwners f ∧ p.frameOwners f ≤ REF_MAX ∧
      p'.ready = p.ready ∧ p'.frameCount = p.frameCount ∧ p'.ram = p.ram ∧
      p'.bitmap = p.bitmap := by
  unfold refFrame at h
  split at h
  · cases h
  · rename_i hin
    split at h
    · cases h
    · rename_i hused
      split at h
      · cases h
      · rename_i hmax
        cases h
        have hused : p.bitmapTest f = true := by simpa using hused
        have hin : p.ready = true ∧ f < p.frameCount := by
          simpa only [Bool.or_eq_true, Bool.not_eq_true', decide_eq_true_eq, not_or,
            Bool.not_eq_false, not_le, ge_iff_le] using hin
        have hown := frameOwners_of_used hin.1 hin.2 hused
        refine ⟨hp.setRefs hused (by omega), ?_, by omega, by omega, rfl, rfl, rfl, rfl⟩
        rw [frameOwners_setRefs hin.1 hin.2 hused, hown, Nat.add_assoc]

theorem refFrame_none (hp : p.Wf) (h : p.refFrame f = none) :
    p.frameOwners f = 0 ∨ p.frameOwners f = REF_MAX + 1 := by
  unfold refFrame at h
  split at h
  · rename_i hout
    exact Or.inl (by rw [frameOwners, if_pos hout])
  · rename_i hin
    split at h
    · rename_i hfree
      exact Or.inl (by rw [frameOwners, if_neg hin, if_pos hfree])
    · rename_i hused
      split at h
      · rename_i hmax
        have := hp.refs_le f
        exact Or.inr (by rw [frameOwners, if_neg hin, if_neg hused]; omega)
      · cases h

theorem bitmapTest_iff (hready : p.ready = true) (hf : f < p.frameCount) :
    p.bitmapTest f = true ↔ 0 < p.frameOwners f := by
  cases hbit : p.bitmapTest f with
  | false => simp [frameOwners_of_free hbit]
  | true =>
    rw [frameOwners_of_used hready hf hbit]
    exact ⟨fun _ => by omega, fun _ => rfl⟩

theorem lt_of_owned (h : 0 < p.frameOwners f) : p.ready = true ∧ f < p.frameCount := by
  unfold frameOwners at h
  split at h
  · omega
  · rename_i hin
    simpa only [Bool.or_eq_true, Bool.not_eq_true', decide_eq_true_eq, not_or, Bool.not_eq_false,
      not_le, ge_iff_le] using hin

theorem Took.freeFrames {p' : Pmm} (hp : p.Wf) (h : Took p f p') (hf : f ≠ 0) :
    p.freeFrames = p'.freeFrames + 1 := by
  obtain ⟨hlt, hnone, hone⟩ := h.fresh hf
  have hready : p'.ready = true := (lt_of_owned (hone ▸ Nat.one_pos)).1
  have hready₀ : p.ready = true := h.ready ▸ hready
  have hout : f ∉ p.usedSet := by
    intro hmem
    have := (bitmapTest_iff hready₀ hlt).mp (mem_usedSet.mp hmem).2
    omega
  have hset : p'.usedSet = insert f p.usedSet := by
    ext g
    rw [Finset.mem_insert, mem_usedSet, mem_usedSet, h.frameCount]
    by_cases hg : g < p.frameCount
    · rw [bitmapTest_iff hready (h.frameCount ▸ hg), bitmapTest_iff hready₀ hg]
      by_cases hgf : g = f
      · subst hgf
        simp [hlt, hone]
      · simp [hgf, h.other g hgf]
    · simp only [hg, false_and, or_false, false_iff]
      rintro rfl
      exact hg hlt
  have hcard : p'.usedSet.card ≤ p'.frameCount := by
    have := Finset.card_le_card (Finset.filter_subset (fun f => p'.bitmapTest f)
      (Finset.range p'.frameCount))
    rwa [Finset.card_range] at this
  rw [hset, Finset.card_insert_of_notMem hout, h.frameCount] at hcard
  have h₁ := h.wf.counts
  have h₀ := hp.counts
  rw [Counts, hset, Finset.card_insert_of_notMem hout] at h₁
  rw [Counts] at h₀
  simp only [Pmm.freeFrames, hready, hready₀, h.frameCount, Bool.not_true, Bool.false_eq_true,
    if_false]
  omega

theorem freeFrames_of_refused (hp : p.Wf) (hground : p.Grounded)
    (h : p.allocFrame.1 = 0) : p.freeFrames = 0 := by
  cases hready : p.ready with
  | false => simp [Pmm.freeFrames, hready]
  | true =>
    have hall := allocFrame_complete hready hground h
    have hset : p.usedSet = Finset.range p.frameCount :=
      Finset.filter_true_of_mem fun f hf => hall f (Finset.mem_range.mp hf)
    have hcounts := hp.counts
    rw [Counts, hset, Finset.card_range] at hcounts
    simp [Pmm.freeFrames, hready, hcounts]

theorem owns_of_owned (h : 0 < p.frameOwners f) (hram : p.ram f = true) : p.owns f = true := by
  obtain ⟨hready, hlt⟩ := lt_of_owned h
  simp [owns, hready, hlt, hram]

theorem Grounded.freeFrame (h : p.Grounded)
    (h0 : p.ready = true → 0 < p.frameCount → 0 < (p.freeFrame f).frameOwners 0) :
    (p.freeFrame f).Grounded := by
  obtain ⟨hready, hcount, -⟩ := freeFrame_fields p f
  intro hr
  have hr : p.ready = true := hready ▸ hr
  by_cases hzero : 0 < p.frameCount
  · rw [bitmapTest_iff (hready.trans hr) (hcount ▸ hzero)]
    exact h0 hr hzero
  · -- no frames at all: the free was ignored
    have hout : p.freeFrame f = p := by
      unfold Pmm.freeFrame
      rw [if_pos (by simp; omega)]
    rw [hout]
    exact h hr

theorem Grounded.refFrame {p' : Pmm} (hp : p.Wf) (h : p.Grounded)
    (hr : p.refFrame f = some p') : p'.Grounded := by
  obtain ⟨-, -, -, -, hready, -, -, hbitmap⟩ := refFrame_some hp hr
  intro hrdy
  rw [bitmapTest, hbitmap]
  exact h (hready ▸ hrdy)

/-! ## §5 Initialisation -/

/-- No frame is free that is not memory. -/
def Clean (p : Pmm) : Prop :=
  ∀ f, f < p.frameCount → p.bitmapTest f = false → p.ram f = true

/-- The tables while `pmm64_init` fills them: nobody shares anything yet and
the scans have not started. -/
structure Booting (p : Pmm) : Prop where
  refs : ∀ f, p.refs f = 0
  counts : p.Counts
  hint : p.allocHint = 0

theorem Booting.wf (hp : p.Booting) : p.Wf :=
  ⟨fun f _ => hp.refs f, fun f => by rw [hp.refs f]; exact Nat.zero_le _, hp.counts,
    by rw [hp.hint]; exact Nat.zero_le _⟩

theorem Booting.mark (hp : p.Booting) (hf : f < p.frameCount) (used : Bool) :
    ∃ q, (if used then p.bitmapSet f else p.bitmapClear f) = q ∧ q.Booting ∧
      q.frameCount = p.frameCount ∧ q.ready = p.ready ∧ q.ram = p.ram ∧
      ∀ g, q.bitmapTest g = if g = f then used else p.bitmapTest g := by
  cases used with
  | true =>
    refine ⟨_, rfl, ⟨hp.refs, hp.counts.bitmapSet hf, hp.hint⟩, rfl, rfl, rfl, fun g => ?_⟩
    by_cases hg : g = f <;> simp [hg]
  | false =>
    refine ⟨_, rfl, ⟨hp.refs, hp.counts.bitmapClear hf, hp.hint⟩, rfl, rfl, rfl, fun g => ?_⟩
    by_cases hg : g = f <;> simp [hg]

/-- A range of frames is its first one and the range behind it. -/
theorem range_head {α : Type} {count g : Nat} (hf : f < count) (x y : α) :
    (if f + 1 ≤ g ∧ g < f + 1 + n ∧ g < count then x else if g = f then x else y) =
      if f ≤ g ∧ g < f + (n + 1) ∧ g < count then x else y := by
  split_ifs <;> first | rfl | omega

theorem markRange_spec (used : Bool) : ∀ (n : Nat) (p : Pmm) (f : Nat), p.Booting →
    (p.markRange f n used).Booting ∧ (p.markRange f n used).frameCount = p.frameCount ∧
      (p.markRange f n used).ready = p.ready ∧ (p.markRange f n used).ram = p.ram ∧
      ∀ g, (p.markRange f n used).bitmapTest g =
        if f ≤ g ∧ g < f + n ∧ g < p.frameCount then used else p.bitmapTest g := by
  intro n
  induction n with
  | zero =>
    intro p f hp
    refine ⟨hp, rfl, rfl, rfl, fun g => ?_⟩
    rw [if_neg (by omega)]
    rfl
  | succ n ih =>
    intro p f hp
    rw [markRange]
    split
    · refine ⟨hp, rfl, rfl, rfl, fun g => ?_⟩
      rw [if_neg (by omega)]
    · obtain ⟨q, hmark, hq, hcount, hready, hram, hbit⟩ := hp.mark (f := f) (by omega) used
      obtain ⟨h1, h2, h3, h4, h5⟩ := ih q (f + 1) hq
      rw [hmark]
      refine ⟨h1, h2.trans hcount, h3.trans hready, h4.trans hram, fun g => ?_⟩
      rw [h5, hbit, hcount, range_head (by omega)]

theorem markRam_spec : ∀ (n : Nat) (p : Pmm) (f : Nat),
    ∃ ram, p.markRam f n = { p with ram := ram } ∧
      ∀ g, ram g = if f ≤ g ∧ g < f + n ∧ g < p.frameCount then true else p.ram g := by
  intro n
  induction n with
  | zero =>
    intro p f
    refine ⟨p.ram, rfl, fun g => ?_⟩
    rw [if_neg (by omega)]
  | succ n ih =>
    intro p f
    rw [markRam]
    split
    · refine ⟨p.ram, rfl, fun g => ?_⟩
      rw [if_neg (by omega)]
    · obtain ⟨ram, h1, h2⟩ := ih { p with ram := update p.ram f true } (f + 1)
      refine ⟨ram, h1, fun g => ?_⟩
      rw [h2 g, ← range_head (by omega)]
      simp only [Function.update_apply]

/-- The state of `pmm64_init` after each of its passes. -/
structure Filling (n : Nat) (p : Pmm) : Prop where
  booting : p.Booting
  clean : p.Clean
  frameCount : p.frameCount = n
  ready : p.ready = false
  beyond : ∀ f, n ≤ f → p.bitmapTest f = true

theorem Filling.freeRegion (hp : Filling n p) (start stop : Nat) :
    Filling n (p.freeRegion start stop) := by
  have hfree : ∀ q : Pmm, Filling n q → ∀ f m,
      Filling n ((q.markRange f m false).markRam f m) := by
    intro q hq f m
    obtain ⟨h1, h2, h3, h4, h5⟩ := markRange_spec false m q f hq.booting
    obtain ⟨ram, hram, hval⟩ := markRam_spec m (q.markRange f m false) f
    rw [hram]
    refine ⟨⟨h1.refs, h1.counts, h1.hint⟩, ?_, h2.trans hq.frameCount, h3.trans hq.ready, ?_⟩
    · intro g hg hbit
      have hbit : (q.markRange f m false).bitmapTest g = false := hbit
      show ram g = true
      rw [h2] at hg
      rw [h5] at hbit
      rw [hval, h2, h4]
      by_cases hin : f ≤ g ∧ g < f + m ∧ g < q.frameCount
      · rw [if_pos hin]
      · rw [if_neg hin] at hbit ⊢
        exact hq.clean g hg hbit
    · intro g hg
      have hcount := hq.frameCount
      show (q.markRange f m false).bitmapTest g = true
      rw [h5, if_neg (by omega)]
      exact hq.beyond g hg
  unfold Pmm.freeRegion
  simp only
  split
  · exact hfree p hp _ _
  · rename_i hle
    rw [Nat.sub_eq_zero_of_le (Nat.not_lt.mp hle)]
    exact hfree p hp _ 0

theorem Filling.markUsed (hp : Filling n p) (f m : Nat) : Filling n (p.markRange f m true) := by
  obtain ⟨h1, h2, h3, h4, h5⟩ := markRange_spec true m p f hp.booting
  refine ⟨h1, ?_, h2.trans hp.frameCount, h3.trans hp.ready, ?_⟩
  · intro g hg hbit
    rw [h2] at hg
    rw [h5] at hbit
    rw [h4]
    split at hbit
    · cases hbit
    · exact hp.clean g hg hbit
  · intro g hg
    rw [h5]
    split
    · rfl
    · exact hp.beyond g hg

theorem Filling.reserveRegion (hp : Filling n p) (startAddr endAddr : Nat) :
    Filling n (p.reserveRegion startAddr endAddr) := by
  unfold Pmm.reserveRegion
  simp only
  split
  · exact hp.markUsed _ _
  · exact hp

theorem reserveRegion_test (hp : Filling n p) (startAddr endAddr : Nat)
    (hf : p.bitmapTest f = true) : (p.reserveRegion startAddr endAddr).bitmapTest f = true := by
  unfold Pmm.reserveRegion
  simp only
  split
  · rw [(markRange_spec true _ p _ hp.booting).2.2.2.2]
    split
    · rfl
    · exact hf
  · exact hf

/-- The tables before the map is read: everything is used. -/
abbrev fullTables (n : Nat) : Pmm :=
  { static with frameCount := n, highHint := n, bitmap := fun _ => 0xFF, usedCount := n }

theorem fullTables_test (n f : Nat) : (fullTables n).bitmapTest f = true :=
  bitmapTest_of_full (b := f / 8) rfl rfl

theorem Filling.full (n : Nat) : Filling n (fullTables n) := by
  refine ⟨⟨fun _ => rfl, ?_, rfl⟩, ?_, rfl, rfl, fun f _ => fullTables_test n f⟩
  · show n = Finset.card (Finset.filter _ (Finset.range n))
    rw [Finset.filter_true_of_mem fun f _ => fullTables_test n f, Finset.card_range]
  · intro f _ hbit
    rw [fullTables_test n f] at hbit
    cases hbit

theorem static_wf : static.Wf :=
  ⟨fun _ _ => rfl, fun _ => Nat.zero_le _, rfl, Nat.le_refl _⟩

/-- After `pmm64_init`: nobody shares anything, frame 0 is not free, and
every frame that is free is memory. -/
theorem init_spec (mbi : Multiboot) (kernelStart kernelEnd : Nat) :
    (init mbi kernelStart kernelEnd).Wf ∧ (init mbi kernelStart kernelEnd).Grounded ∧
      (∀ f, (init mbi kernelStart kernelEnd).refs f = 0) ∧
      ((init mbi kernelStart kernelEnd).ready = true →
        (init mbi kernelStart kernelEnd).Clean) := by
  unfold init
  split
  · exact ⟨static_wf, fun h => absurd h (by decide), fun _ => rfl, fun h => absurd h (by decide)⟩
  · simp only
    generalize wrap (mbi.highestAddr + PMM64_FRAME_SIZE - 1) / PMM64_FRAME_SIZE = n
    split
    · refine ⟨⟨fun _ _ => rfl, fun _ => Nat.zero_le _, ?_, Nat.zero_le _⟩,
        fun h => absurd h (by simp [static]), fun _ => rfl, fun h => absurd h (by simp [static])⟩
      -- no table was placed, and the count has not been started
      show 0 = Finset.card (Finset.filter _ _)
      rw [Finset.filter_false_of_mem, Finset.card_empty]
      intro f _
      simp [bitmapTest, static]
    · have hfold : ∀ (rs : List (Nat × Nat)) (p : Pmm), Filling n p →
          Filling n (rs.foldl (fun p r => p.freeRegion r.1 r.2) p) := by
        intro rs
        induction rs with
        | nil => intro p hp; exact hp
        | cons r rs ih => intro p hp; exact ih _ (hp.freeRegion r.1 r.2)
      have havail := hfold mbi.available _ (Filling.full n)
      have hmeg := havail.markUsed 0 (0x100000 / PMM64_FRAME_SIZE)
      have hend := (hmeg.reserveRegion kernelStart kernelEnd).reserveRegion (mbi.place kernelEnd)
        (wrap (mbi.place kernelEnd + (n + 7) / 8 + n + (n + 7) / 8))
      have hwf := hend.booting.wf
      refine ⟨⟨hwf.refs_free, hwf.refs_le, hwf.counts, hwf.hint⟩, ?_, hend.booting.refs,
        fun _ => hend.clean⟩
      intro _
      refine reserveRegion_test (hmeg.reserveRegion _ _) _ _ (reserveRegion_test hmeg _ _ ?_)
      rw [(markRange_spec true _ _ 0 havail.booting).2.2.2.2]
      split
      · rfl
      · rename_i hout
        have hcount := havail.frameCount
        have hlow : 0x100000 / PMM64_FRAME_SIZE = 256 := rfl
        exact havail.beyond 0 (by omega)

end Pmm

/-! ## §6 Clients

A client owns a frame it was given, and one more for each reference it was
given. The ledger of who owns how much is theirs, not the allocator's: it is
kept beside the state, and says which frees are allowed.
-/

inductive Call where
  | alloc
  | allocHigh
  | allocAbove (minPhys : Nat)
  | ref (f : Nat)
  | free (f : Nat)

/-- The allocator, and how often the clients own each frame. -/
structure Clients where
  pmm : Pmm
  held : Nat → Nat

namespace Clients

/-- An allocation is entered in the ledger unless it was refused. -/
def take (s : Clients) (r : Nat × Pmm) : Clients × Nat :=
  (⟨r.2, if r.1 = 0 then s.held else update s.held r.1 (s.held r.1 + 1)⟩, r.1)

def call (s : Clients) : Call → Clients × Nat
  | .alloc => s.take s.pmm.allocFrame
  | .allocHigh => s.take s.pmm.allocHigh
  | .allocAbove minPhys => s.take (s.pmm.allocAbove minPhys)
  | .ref f =>
    match s.pmm.refFrame f with
    | some p => (⟨p, update s.held f (s.held f + 1)⟩, 1)
    | none => (s, 0)
  | .free f => (⟨s.pmm.freeFrame f, update s.held f (s.held f - 1)⟩, 0)

/-- Clients free only what they own. -/
def Owned (s : Clients) : Call → Prop
  | .free f => 0 < s.held f
  | _ => True

end Clients

def clients : Machine Clients Call Nat := ⟨Clients.call⟩

/-- The allocator after `pmm64_init`, with nothing handed out. -/
def booted (mbi : Multiboot) (kernelStart kernelEnd : Nat) : Clients :=
  ⟨Pmm.init mbi kernelStart kernelEnd, fun _ => 0⟩

/-- Between the calls: the books balance. `base f` is 1 for a frame that
`pmm64_init` kept back, and the owner it has then is nobody among the
clients. -/
structure Balanced (base : Nat → Nat) (s : Clients) : Prop where
  wf : s.pmm.Wf
  ground : s.pmm.Grounded
  ledger : ∀ f, s.pmm.frameOwners f = s.held f + base f

theorem Balanced.booted (mbi : Multiboot) (kernelStart kernelEnd : Nat) :
    Balanced (Pmm.init mbi kernelStart kernelEnd).frameOwners (booted mbi kernelStart kernelEnd) := by
  obtain ⟨hwf, hground, -, -⟩ := Pmm.init_spec mbi kernelStart kernelEnd
  exact ⟨hwf, hground, fun f => (Nat.zero_add _).symm⟩

variable {base : Nat → Nat} {s : Clients}

theorem Balanced.take (hs : Balanced base s) {f : Nat} {p : Pmm}
    (h : Pmm.Took s.pmm f p) : Balanced base (s.take (f, p)).1 := by
  refine ⟨h.wf, h.ground hs.ground, fun g => ?_⟩
  show p.frameOwners g =
    (if f = 0 then s.held else update s.held f (s.held f + 1)) g + base g
  by_cases hf : f = 0
  · rw [if_pos hf, h.none hf hs.ground]
    exact hs.ledger g
  · rw [if_neg hf]
    obtain ⟨-, hfree, hone⟩ := h.fresh hf
    have hbal := hs.ledger f
    by_cases hg : g = f
    · rw [hg, update_self, hone]
      omega
    · rw [h.other g hg, update_of_ne hg]
      exact hs.ledger g

theorem Balanced.free (hs : Balanced base s)
    (h0 : s.pmm.ready = true → 0 < s.pmm.frameCount → 0 < base 0) {f : Nat} (hf : 0 < s.held f) :
    Balanced base ⟨s.pmm.freeFrame f, update s.held f (s.held f - 1)⟩ := by
  have hledger : ∀ g, (s.pmm.freeFrame f).frameOwners g =
      update s.held f (s.held f - 1) g + base g := by
    intro g
    have hbal := hs.ledger g
    rw [Pmm.frameOwners_freeFrame]
    by_cases hg : g = f
    · rw [hg, update_self, update_self]
      rw [hg] at hbal
      omega
    · rw [update_of_ne hg, update_of_ne hg]
      exact hbal
  refine ⟨hs.wf.freeFrame f, hs.ground.freeFrame fun hr hzero => ?_, hledger⟩
  rw [hledger 0]
  have := h0 hr hzero
  omega

theorem Balanced.step (hs : Balanced base s)
    (h0 : s.pmm.ready = true → 0 < s.pmm.frameCount → 0 < base 0) (c : Call) (hc : s.Owned c) :
    Balanced base (clients.step s c).1 := by
  cases c with
  | alloc => exact hs.take (Pmm.allocFrame_took hs.wf)
  | allocHigh => exact hs.take (Pmm.allocHigh_took hs.wf)
  | allocAbove minPhys => exact hs.take (Pmm.allocAbove_took hs.wf minPhys)
  | free f => exact hs.free h0 hc
  | ref f =>
    show Balanced base (match s.pmm.refFrame f with
      | some p => ((⟨p, update s.held f (s.held f + 1)⟩ : Clients), 1)
      | none => (s, 0)).1
    cases href : s.pmm.refFrame f with
    | none => exact hs
    | some p =>
      obtain ⟨hwf, howners, -⟩ := Pmm.refFrame_some hs.wf href
      refine ⟨hwf, hs.ground.refFrame hs.wf href, fun g => ?_⟩
      show p.frameOwners g = update s.held f (s.held f + 1) g + base g
      have hbal := hs.ledger g
      rw [howners]
      by_cases hg : g = f
      · rw [hg, update_self, update_self]
        rw [hg] at hbal
        omega
      · rw [update_of_ne hg, update_of_ne hg]
        exact hbal

theorem clients_step_fields (s : Clients) (hwf : s.pmm.Wf) (c : Call) :
    (clients.step s c).1.pmm.ready = s.pmm.ready ∧
      (clients.step s c).1.pmm.frameCount = s.pmm.frameCount := by
  cases c with
  | alloc => exact ⟨(Pmm.allocFrame_took hwf).ready, (Pmm.allocFrame_took hwf).frameCount⟩
  | allocHigh => exact ⟨(Pmm.allocHigh_took hwf).ready, (Pmm.allocHigh_took hwf).frameCount⟩
  | allocAbove minPhys =>
    exact ⟨(Pmm.allocAbove_took hwf minPhys).ready, (Pmm.allocAbove_took hwf minPhys).frameCount⟩
  | free f => exact ⟨(Pmm.freeFrame_fields s.pmm f).1, (Pmm.freeFrame_fields s.pmm f).2.1⟩
  | ref f =>
    show (match s.pmm.refFrame f with
      | some p => ((⟨p, update s.held f (s.held f + 1)⟩ : Clients), 1)
      | none => (s, 0)).1.pmm.ready = _ ∧ (match s.pmm.refFrame f with
      | some p => ((⟨p, update s.held f (s.held f + 1)⟩ : Clients), 1)
      | none => (s, 0)).1.pmm.frameCount = _
    cases href : s.pmm.refFrame f with
    | none => exact ⟨rfl, rfl⟩
    | some p =>
      obtain ⟨-, -, -, -, hready, hcount, -, -⟩ := Pmm.refFrame_some hwf href
      exact ⟨hready, hcount⟩

/-- Whether a call asks for a frame. -/
def Call.Allocates : Call → Prop
  | .alloc | .allocHigh | .allocAbove _ => True
  | .ref _ | .free _ => False

/-- What the allocator promises in a state, about the frames as they are and
about the next call. -/
structure Promises (base : Nat → Nat) (s : Clients) : Prop where
  /-- A frame that is given had no owner and has one. -/
  exclusive : ∀ c : Call, c.Allocates → (clients.step s c).2 ≠ 0 →
    s.pmm.frameOwners (clients.step s c).2 = 0 ∧
      (clients.step s c).1.pmm.frameOwners =
        update s.pmm.frameOwners (clients.step s c).2 1
  /-- There is no frame only if there is none to be had. -/
  complete : ∀ c : Call, c = .alloc ∨ c = .allocHigh → (clients.step s c).2 = 0 →
    s.pmm.ready = false ∨ ∀ f < s.pmm.frameCount, s.pmm.bitmapTest f = true
  /-- A frame leaves the used ones when its last owner frees it. -/
  last : ∀ c : Call, s.Owned c → ∀ f < s.pmm.frameCount, s.pmm.bitmapTest f = true →
    ((clients.step s c).1.pmm.bitmapTest f = false ↔ c = .free f ∧ s.pmm.frameOwners f = 1)
  /-- The owners are the clients', and what was kept back. -/
  ledger : ∀ f, s.pmm.frameOwners f = s.held f + base f
  /-- A free frame has no extra owners. -/
  refs : ∀ f < s.pmm.frameCount, s.pmm.bitmapTest f = false → s.pmm.refs f = 0
  /-- The running count is right. -/
  counted : s.pmm.freeFrames = s.pmm.freeFramesScanned

theorem Balanced.exclusive (hs : Balanced base s) (c : Call)
    (hc : c.Allocates) (hsome : (clients.step s c).2 ≠ 0) :
    s.pmm.frameOwners (clients.step s c).2 = 0 ∧
      (clients.step s c).1.pmm.frameOwners =
        update s.pmm.frameOwners (clients.step s c).2 1 := by
  have key : ∀ f p, Pmm.Took s.pmm f p → f ≠ 0 →
      s.pmm.frameOwners f = 0 ∧ p.frameOwners = update s.pmm.frameOwners f 1 := by
    intro f p h hf
    obtain ⟨-, hfree, hone⟩ := h.fresh hf
    refine ⟨hfree, funext fun g => ?_⟩
    by_cases hg : g = f
    · rw [hg, update_self, hone]
    · rw [update_of_ne hg, h.other g hg]
  cases c with
  | alloc => exact key _ _ (Pmm.allocFrame_took hs.wf) hsome
  | allocHigh => exact key _ _ (Pmm.allocHigh_took hs.wf) hsome
  | allocAbove minPhys => exact key _ _ (Pmm.allocAbove_took hs.wf minPhys) hsome
  | ref f => exact absurd hc id
  | free f => exact absurd hc id

/-- In a state with frames, only the last free of a frame takes it to no
owners. -/
theorem Balanced.owners_step (hs : Balanced base s) (c : Call)
    {f : Nat} (hf : 0 < s.pmm.frameOwners f) :
    (clients.step s c).1.pmm.frameOwners f = 0 ↔ c = .free f ∧ s.pmm.frameOwners f = 1 := by
  have key : ∀ g p, Pmm.Took s.pmm g p → p.frameOwners f = s.pmm.frameOwners f := by
    intro g p h
    by_cases hg : f = g
    · by_cases h0 : g = 0
      · rw [h.none h0 hs.ground]
      · have hfree := (h.fresh h0).2.1
        rw [← hg] at hfree
        omega
    · exact h.other f hg
  have quiet : ∀ n, n = s.pmm.frameOwners f → ∀ c : Call, (∀ g, c ≠ .free g) →
      (n = 0 ↔ c = .free f ∧ s.pmm.frameOwners f = 1) :=
    fun n hn c hc => ⟨fun h => by omega, fun h => absurd h.1 (hc f)⟩
  cases c with
  | alloc => exact quiet _ (key _ _ (Pmm.allocFrame_took hs.wf)) _ (fun _ h => by cases h)
  | allocHigh => exact quiet _ (key _ _ (Pmm.allocHigh_took hs.wf)) _ (fun _ h => by cases h)
  | allocAbove minPhys =>
    exact quiet _ (key _ _ (Pmm.allocAbove_took hs.wf minPhys)) _ (fun _ h => by cases h)
  | free g =>
    show (s.pmm.freeFrame g).frameOwners f = 0 ↔ _
    rw [Pmm.frameOwners_freeFrame]
    by_cases hg : f = g
    · subst hg
      rw [update_self]
      exact ⟨fun h => ⟨rfl, by omega⟩, fun h => by omega⟩
    · rw [update_of_ne hg]
      refine ⟨fun h => by omega, fun h => ?_⟩
      cases h.1
      exact absurd rfl hg
  | ref g =>
    refine ⟨fun h => ?_, fun h => by cases h.1⟩
    have h : (match s.pmm.refFrame g with
      | some p => ((⟨p, update s.held g (s.held g + 1)⟩ : Clients), 1)
      | none => (s, 0)).1.pmm.frameOwners f = 0 := h
    cases href : s.pmm.refFrame g with
    | none =>
      rw [href] at h
      simp only at h
      omega
    | some p =>
      obtain ⟨-, howners, -, -, -, -, -, -⟩ := Pmm.refFrame_some hs.wf href
      rw [href] at h
      simp only [howners] at h
      by_cases hg : f = g
      · rw [hg, update_self] at h
        omega
      · rw [update_of_ne hg] at h
        omega

theorem clients_step_not_ready (h : s.pmm.ready = false) (c : Call) :
    (clients.step s c).1.pmm = s.pmm := by
  cases c with
  | alloc => simp [clients, Clients.call, Clients.take, Pmm.allocFrame, h]
  | allocHigh => simp [clients, Clients.call, Clients.take, Pmm.allocHigh, h]
  | allocAbove minPhys => simp [clients, Clients.call, Clients.take, Pmm.allocAbove, h]
  | ref f => simp [clients, Clients.call, Pmm.refFrame, h]
  | free f => simp [clients, Clients.call, Pmm.freeFrame, h]

theorem Balanced.promises (hs : Balanced base s) :
    Promises base s where
  exclusive := hs.exclusive
  complete c hc hnone := by
    by_cases hready : s.pmm.ready = true
    · refine Or.inr ?_
      rcases hc with rfl | rfl
      · exact Pmm.allocFrame_complete hready hs.ground hnone
      · exact Pmm.allocHigh_complete hready hs.ground hnone
    · exact Or.inl (by simpa using hready)
  last c hc f hf hused := by
    cases hready : s.pmm.ready with
    | false =>
      have hnone : s.pmm.frameOwners f = 0 := by simp [Pmm.frameOwners, hready]
      rw [clients_step_not_ready hready, hused, hnone]
      simp
    | true =>
      obtain ⟨hr, hn⟩ := clients_step_fields s hs.wf c
      have howned := (Pmm.bitmapTest_iff hready hf).mp hused
      rw [← hs.owners_step c howned, ← Bool.not_eq_true,
        Pmm.bitmapTest_iff (hr.trans hready) (hn ▸ hf)]
      omega
  ledger := hs.ledger
  refs f _ hfree := hs.wf.refs_free f hfree
  counted := (Pmm.freeFramesScanned_eq hs.wf.counts).symm

/-- Whatever the machine and whatever the clients do, as long as they free
only what they own. -/
theorem frames_exclusive_complete (mbi : Multiboot) (kernelStart kernelEnd : Nat)
    (calls : List Call)
    (h : clients.Guarded Clients.Owned (booted mbi kernelStart kernelEnd) calls) :
    Promises (Pmm.init mbi kernelStart kernelEnd).frameOwners
      (clients.run (booted mbi kernelStart kernelEnd) calls) := by
  set p := Pmm.init mbi kernelStart kernelEnd
  have hstep : ∀ (s : Clients) (c : Call),
      (Balanced p.frameOwners s ∧ s.pmm.ready = p.ready ∧ s.pmm.frameCount = p.frameCount) →
      s.Owned c →
      Balanced p.frameOwners (clients.step s c).1 ∧ (clients.step s c).1.pmm.ready = p.ready ∧
        (clients.step s c).1.pmm.frameCount = p.frameCount := by
    rintro s c ⟨hs, hready, hcount⟩ hc
    obtain ⟨hr, hn⟩ := clients_step_fields s hs.wf c
    refine ⟨hs.step ?_ c hc, hr.trans hready, hn.trans hcount⟩
    intro h1 h2
    -- frame 0 was kept back
    have hground := (Pmm.init_spec mbi kernelStart kernelEnd).2.1
    rw [hready] at h1
    rw [hcount] at h2
    exact (Pmm.bitmapTest_iff h1 h2).mp (hground h1)
  have hrun := clients.invariant_of_step hstep calls _
    ⟨Balanced.booted mbi kernelStart kernelEnd, rfl, rfl⟩ h
  exact hrun.1.promises

/-- Sixteen frames above the first megabyte, two of them the kernel's. -/
def smallMachine : Multiboot where
  mmap := some [⟨0x100000, 0x10000, MULTIBOOT_MEMORY_AVAILABLE⟩]
  memLower := 0
  memUpper := 0
  mods := none

set_option maxRecDepth 20000

theorem frames_exclusive_complete_small :
    Promises (Pmm.init smallMachine 0x100000 0x102000).frameOwners
      (clients.run (booted smallMachine 0x100000 0x102000)
        [.alloc, .allocHigh, .ref 259, .free 259, .free 259, .free 271]) :=
  frames_exclusive_complete smallMachine 0x100000 0x102000 _ (by
    refine ⟨trivial, trivial, trivial, ?_, ?_, ?_, trivial⟩
    all_goals (show 0 < _; decide))

/-- A machine whose tables do not fit the window that is mapped at boot. -/
def vastMachine : Multiboot where
  mmap := some [⟨0x100000, 0x40000000000, MULTIBOOT_MEMORY_AVAILABLE⟩]
  memLower := 0
  memUpper := 0
  mods := none

/-- It gets no frames at all, though none of them is marked used. -/
theorem frames_refused_unready :
    (clients.step (booted vastMachine 0x100000 0x102000) .alloc).2 = 0 ∧
      ¬ ∀ f < (booted vastMachine 0x100000 0x102000).pmm.frameCount,
        (booted vastMachine 0x100000 0x102000).pmm.bitmapTest f = true :=
  ⟨by decide, fun h => absurd (h 0 (by decide)) (by decide)⟩

end NovarisOS.Pmm64
