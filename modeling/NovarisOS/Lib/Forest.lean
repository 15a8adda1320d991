/-
NovarisOS.Lib.Forest — a rooted tree kept as a parent and a list of children per
node.

Neither field says that there is a tree: parents may go round in a circle, and
a child may be on two lists. `IsTree` is the whole of it, over any type of
nodes of which some are `live`: the lists hold the live nodes whose parent it
is, each once, and parents lead to the root.
-/
import Mathlib.Data.List.Nodup

namespace NovarisOS.Forest

variable {α : Type*} {root : α} {live live' : α → Prop} {parent parent' : α → Option α} {kids kids' : α → List α}
variable {i n p d : α}

/-- Following parents from a node ends at the root. -/
inductive ToRoot (root : α) (parent : α → Option α) : α → Prop
  | root : ToRoot root parent root
  | up {i p : α} (hp : parent i = some p) (h : ToRoot root parent p) : ToRoot root parent i

/-- `a` is the node or above it. -/
inductive Above (parent : α → Option α) (a : α) : α → Prop
  | self : Above parent a a
  | up {i p : α} (hp : parent i = some p) (h : Above parent a p) : Above parent a i

structure IsTree (root : α) (live : α → Prop) (parent : α → Option α) (kids : α → List α) : Prop where
  root_live : live root
  root_top : parent root = none
  kid : ∀ p c, c ∈ kids p ↔ live c ∧ parent c = some p
  nodup : ∀ p, (kids p).Nodup
  owner : ∀ c p, live c → parent c = some p → live p
  rooted : ∀ i, live i → ToRoot root parent i

theorem ToRoot.transfer (ok : α → Prop) (h : ToRoot root parent i) (hi : ok i)
    (hsame : ∀ j p, ok j → parent j = some p → parent' j = some p ∧ ok p) : ToRoot root parent' i := by
  induction h with
  | root => exact .root
  | up hp _ ih =>
    obtain ⟨hp', hok⟩ := hsame _ _ hi hp
    exact .up hp' (ih hok)

namespace IsTree

theorem has_parent (h : IsTree root live parent kids) (hi : live i) (hne : i ≠ root) :
    ∃ p, parent i = some p ∧ live p ∧ i ∈ kids p := by
  cases h.rooted i hi with
  | root => exact absurd rfl hne
  | up hp _ => exact ⟨_, hp, h.owner i _ hi hp, (h.kid _ i).mpr ⟨hi, hp⟩⟩

theorem kid_ne_root (h : IsTree root live parent kids) {c : α} (hc : c ∈ kids p) : c ≠ root := by
  rintro rfl
  have hp := ((h.kid p _).mp hc).2
  rw [h.root_top] at hp
  cases hp

theorem kids_of_dead (h : IsTree root live parent kids) (hp : ¬ live p) : kids p = [] := by
  cases hk : kids p with
  | nil => rfl
  | cons c cs =>
    obtain ⟨hc, hpc⟩ := (h.kid p c).mp (hk ▸ List.mem_cons_self)
    exact absurd (h.owner c p hc hpc) hp

theorem congr (h : IsTree root live parent kids) (hlive : ∀ j, live' j ↔ live j)
    (hsame : ∀ j, live j → parent' j = parent j) :
    IsTree root live' parent' kids := by
  refine ⟨(hlive root).mpr h.root_live, (hsame root h.root_live).trans h.root_top, ?_, h.nodup, ?_, ?_⟩
  · intro p c
    rw [h.kid, hlive]
    refine and_congr_right fun hc => ?_
    rw [hsame c hc]
  · intro c p hc hp
    rw [hlive] at hc ⊢
    exact h.owner c p hc ((hsame c hc).symm.trans hp)
  · intro i hi
    have hi := (hlive i).mp hi
    exact (h.rooted i hi).transfer live hi fun j p hj hp => ⟨(hsame j hj).trans hp, h.owner j p hj hp⟩

theorem add (h : IsTree root live parent kids) (hi : ¬ live i) (hp : live p) (hlive : ∀ j, live' j ↔ live j ∨ j = i)
    (hparent : parent' i = some p) (hsame : ∀ j, live j → parent' j = parent j)
    (hkids : ∀ q c, c ∈ kids' q ↔ c ∈ kids q ∨ c = i ∧ q = p) (hnodup : ∀ q, (kids' q).Nodup) :
    IsTree root live' parent' kids' := by
  have hchain : ∀ j, live j → ToRoot root parent' j := fun j hj =>
    (h.rooted j hj).transfer live hj fun k q hk hq => ⟨(hsame k hk).trans hq, h.owner k q hk hq⟩
  refine ⟨(hlive root).mpr (.inl h.root_live), (hsame root h.root_live).trans h.root_top, ?_, hnodup, ?_, ?_⟩
  · intro q c
    rw [hkids, h.kid, hlive]
    by_cases hc : c = i
    · subst hc
      rw [hparent]
      simp [hi, eq_comm]
    · simp only [hc, false_and, or_false, and_congr_right_iff]
      intro hlc
      rw [hsame c hlc]
  · intro c q hc hq
    rw [hlive] at hc ⊢
    by_cases he : c = i
    · subst he
      exact .inl (Option.some.inj (hparent.symm.trans hq) ▸ hp)
    · have hlc := hc.resolve_right he
      exact .inl (h.owner c q hlc ((hsame c hlc).symm.trans hq))
  · intro j hj
    rcases (hlive j).mp hj with hj | rfl
    · exact hchain j hj
    · exact .up hparent (hchain p hp)

theorem remove (h : IsTree root live parent kids) (hroot : n ≠ root) (hleaf : kids n = [])
    (hlive : ∀ j, live' j ↔ live j ∧ j ≠ n) (hsame : ∀ j, live j → j ≠ n → parent' j = parent j)
    (hkids : ∀ q c, c ∈ kids' q ↔ c ∈ kids q ∧ c ≠ n) (hnodup : ∀ q, (kids' q).Nodup) :
    IsTree root live' parent' kids' := by
  have hup : ∀ j q, live j → parent j = some q → q ≠ n := by
    rintro j q hj hq rfl
    have hkid := (h.kid q j).mpr ⟨hj, hq⟩
    rw [hleaf] at hkid
    exact absurd hkid List.not_mem_nil
  refine ⟨(hlive root).mpr ⟨h.root_live, hroot.symm⟩,
      (hsame root h.root_live hroot.symm).trans h.root_top, ?_, hnodup, ?_, ?_⟩
  · intro q c
    rw [hkids, h.kid, hlive, and_right_comm]
    refine and_congr_right fun hc => ?_
    rw [hsame c hc.1 hc.2]
  · intro c q hc hq
    obtain ⟨hc, hne⟩ := (hlive c).mp hc
    rw [hsame c hc hne] at hq
    exact (hlive q).mpr ⟨h.owner c q hc hq, hup c q hc hq⟩
  · intro j hj
    obtain ⟨hj, hne⟩ := (hlive j).mp hj
    refine (h.rooted j hj).transfer (fun k => live k ∧ k ≠ n) ⟨hj, hne⟩ ?_
    rintro k q ⟨hk, hkn⟩ hq
    exact ⟨(hsame k hk hkn).trans hq, h.owner k q hk hq, hup k q hk hq⟩

theorem move (h : IsTree root live parent kids) (hn : live n) (hroot : n ≠ root) (hd : live d)
    (habove : ¬ Above parent n d)
    (hlive : ∀ j, live' j ↔ live j) (hparent : parent' n = some d) (hsame : ∀ j, live j → j ≠ n → parent' j = parent j)
    (hkids : ∀ q c, c ∈ kids' q ↔ c ∈ kids q ∧ c ≠ n ∨ c = n ∧ q = d) (hnodup : ∀ q, (kids' q).Nodup) :
    IsTree root live' parent' kids' := by
  have hplace : ToRoot root parent' d := by
    refine (h.rooted d hd).transfer (fun k => live k ∧ ¬ Above parent n k) ⟨hd, habove⟩ ?_
    rintro k q ⟨hk, habove⟩ hq
    refine ⟨?_, h.owner k q hk hq, fun hq' => habove (.up hq hq')⟩
    rw [hsame k hk fun he => habove (he ▸ .self)]
    exact hq
  refine ⟨(hlive root).mpr h.root_live, (hsame root h.root_live hroot.symm).trans h.root_top, ?_, hnodup, ?_, ?_⟩
  · intro q c
    rw [hkids, h.kid, hlive]
    by_cases hc : c = n
    · subst hc
      rw [hparent]
      simp [hn, eq_comm]
    · simp only [hc, ne_eq, not_false_eq_true, and_true, false_and, or_false, and_congr_right_iff]
      intro hlc
      rw [hsame c hlc hc]
  · intro c q hc hq
    rw [hlive] at hc ⊢
    by_cases he : c = n
    · subst he
      exact Option.some.inj (hparent.symm.trans hq) ▸ hd
    · exact h.owner c q hc ((hsame c hc he).symm.trans hq)
  · intro j hj
    -- up the old chain, which turns off to the new place where it meets the node
    induction h.rooted j ((hlive j).mp hj) with
    | root => exact .root
    | @up j q hq _ ih =>
      by_cases he : j = n
      · subst he
        exact .up hparent hplace
      · have hlj := (hlive j).mp hj
        exact .up ((hsame j hlj he).trans hq) (ih ((hlive q).mpr (h.owner j q hlj hq)))

end IsTree

end NovarisOS.Forest
