/-
NovarisOS.Lib.Sums — a total over the places of a table.

A table of `n` places holds a number at each. What a program does to it is an
assignment to one place, and the total then moves by the difference
(`sumTo_update`).
-/
import Mathlib.Algebra.BigOperators.Intervals
import Mathlib.Algebra.Order.BigOperators.Group.Finset

namespace NovarisOS

/-- The total over the first `n` places. -/
@[irreducible] def sumTo (n : Nat) (f : Nat → Nat) : Nat := ∑ i ∈ Finset.range n, f i

theorem sumTo_zero (f : Nat → Nat) : sumTo 0 f = 0 := by
  simp [sumTo]

theorem sumTo_succ (n : Nat) (f : Nat → Nat) : sumTo (n + 1) f = sumTo n f + f n := by
  simp [sumTo, Finset.sum_range_succ]

theorem sumTo_congr {n : Nat} {f g : Nat → Nat} (h : ∀ i, i < n → f i = g i) : sumTo n f = sumTo n g := by
  unfold sumTo
  exact Finset.sum_congr rfl fun i hi => h i (Finset.mem_range.mp hi)

theorem sumTo_eq_zero {n : Nat} {f : Nat → Nat} (h : ∀ i, i < n → f i = 0) : sumTo n f = 0 := by
  unfold sumTo
  exact Finset.sum_eq_zero fun i hi => h i (Finset.mem_range.mp hi)

theorem le_sumTo {n i : Nat} (f : Nat → Nat) (hi : i < n) : f i ≤ sumTo n f := by
  unfold sumTo
  exact Finset.single_le_sum (fun _ _ => Nat.zero_le _) (Finset.mem_range.mpr hi)

theorem sumTo_change {n i : Nat} {f g : Nat → Nat} (hi : i < n) (h : ∀ j, j ≠ i → g j = f j) :
    sumTo n g + f i = sumTo n f + g i := by
  unfold sumTo
  have hmem : i ∈ Finset.range n := Finset.mem_range.mpr hi
  have hrest : ∑ j ∈ (Finset.range n).erase i, g j = ∑ j ∈ (Finset.range n).erase i, f j :=
    Finset.sum_congr rfl fun j hj => h j (Finset.ne_of_mem_erase hj)
  rw [← Finset.add_sum_erase _ g hmem, ← Finset.add_sum_erase _ f hmem, hrest]
  omega

theorem foldl_eq_sumTo (n : Nat) (f : Nat → Nat) : (List.range n).foldl (fun a i => a + f i) 0 = sumTo n f := by
  induction n with
  | zero => simp [sumTo_zero]
  | succ n ih => rw [List.range_succ, List.foldl_append, ih, sumTo_succ]; rfl

end NovarisOS
