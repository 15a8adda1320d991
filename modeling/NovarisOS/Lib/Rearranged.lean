/-
NovarisOS.Lib.Rearranged — a sequence with its elements in another order.

A sequence is a function from the index. `Rearranged lo hi v v'` says that `v'`
has the elements of `v`, with those of the indices from `lo` to below `hi` in
another order and the others where they were. It holds of a swap and is
transitive, which is all that an algorithm that works by swaps needs; what
holds of every element of the range before holds of every one after
(`Rearranged.all`).
-/
import Mathlib.Data.List.Nodup
import Mathlib.Data.List.Perm.Basic
import Mathlib.Logic.Equiv.Basic

namespace NovarisOS

variable {α : Type*} {v v' v'' : Nat → α} {lo hi lo' hi' n : Nat}

/-- The elements of a range in another order. -/
def Rearranged (lo hi : Nat) (v v' : Nat → α) : Prop :=
  ∃ p : Equiv.Perm Nat, (∀ i, ¬(lo ≤ i ∧ i < hi) → p i = i) ∧ ∀ i, v' i = v (p i)

namespace Rearranged

theorem refl (lo hi : Nat) (v : Nat → α) : Rearranged lo hi v v := ⟨Equiv.refl _, fun _ _ => rfl, fun _ => rfl⟩

theorem trans (h : Rearranged lo hi v v') (h' : Rearranged lo hi v' v'') : Rearranged lo hi v v'' := by
  obtain ⟨p, hp, hv⟩ := h
  obtain ⟨q, hq, hv'⟩ := h'
  refine ⟨q.trans p, fun i hi => ?_, fun i => ?_⟩
  · rw [Equiv.trans_apply, hq i hi, hp i hi]
  · rw [hv' i, hv (q i), Equiv.trans_apply]

theorem mono (h : Rearranged lo hi v v') (hlo : lo' ≤ lo) (hhi : hi ≤ hi') : Rearranged lo' hi' v v' := by
  obtain ⟨p, hp, hv⟩ := h
  exact ⟨p, fun i hi => hp i (by omega), hv⟩

theorem swap {i j : Nat} (hi₁ : lo ≤ i) (hi₂ : i < hi) (hj₁ : lo ≤ j) (hj₂ : j < hi)
    (h : ∀ k, v' k = v (Equiv.swap i j k)) : Rearranged lo hi v v' :=
  ⟨Equiv.swap i j, fun k hk => Equiv.swap_apply_of_ne_of_ne (by omega) (by omega), h⟩

theorem outside (h : Rearranged lo hi v v') {i : Nat} (hi : i < lo ∨ hi ≤ i) : v' i = v i := by
  obtain ⟨p, hp, hv⟩ := h
  rw [hv i, hp i (by omega)]

theorem all (h : Rearranged lo hi v v') {P : α → Prop} (hP : ∀ i, lo ≤ i → i < hi → P (v i)) :
    ∀ i, lo ≤ i → i < hi → P (v' i) := by
  obtain ⟨p, hp, hv⟩ := h
  intro i h₁ h₂
  -- An index of the range does not come from outside it.
  have hin : lo ≤ p i ∧ p i < hi := by
    by_contra hout
    have hpp : p (p i) = p i := hp _ hout
    rw [p.injective hpp] at hout
    exact hout ⟨h₁, h₂⟩
  rw [hv i]
  exact hP _ hin.1 hin.2

theorem perm (h : Rearranged lo hi v v') (hn : hi ≤ n) : ((List.range n).map v').Perm ((List.range n).map v) := by
  obtain ⟨p, hp, hv⟩ := h
  have hfix : ∀ i, n ≤ i → p i = i := fun i hi => hp i (by omega)
  have hbelow : ∀ i, p i < n ↔ i < n := by
    intro i
    constructor
    · intro h
      by_contra hi
      rw [hfix i (by omega)] at h
      exact hi h
    · intro h
      by_contra hi
      have := p.injective (hfix (p i) (by omega))
      omega
  have hrange : ((List.range n).map p).Perm (List.range n) := by
    refine (List.perm_ext_iff_of_nodup (List.nodup_range.map p.injective) List.nodup_range).2 fun i => ?_
    simp only [List.mem_map, List.mem_range]
    constructor
    · rintro ⟨j, hj, rfl⟩
      exact (hbelow j).2 hj
    · intro hi
      exact ⟨p.symm i, (hbelow _).1 (by rwa [Equiv.apply_symm_apply]), Equiv.apply_symm_apply p i⟩
  have hmap : (List.range n).map v' = ((List.range n).map p).map v := by
    rw [List.map_map]
    exact List.map_congr_left fun i _ => hv i
  rw [hmap]
  exact hrange.map v

end Rearranged

end NovarisOS
