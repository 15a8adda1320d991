/-
NovarisOS.Lib.Links — singly linked lists threaded through a table.

A list is a head and a `next` field per entry; `none` ends it. Nothing in
the table says where a list stops or that two lists are disjoint, so the
whole content of such a structure is in one relation: `Links next h l`,
following `next` from `h` visits the entries of `l` in order and then ends.
-/
import Mathlib.Data.List.Nodup
import Mathlib.Data.List.Perm.Subperm

namespace NovarisOS

variable {α : Type*} {next next' : α → Option α} {h : Option α} {l l' : List α} {x c : α}

/-- Following `next` from `h` visits `l` and ends. -/
def Links (next : α → Option α) : Option α → List α → Prop
  | h, [] => h = none
  | h, x :: xs => h = some x ∧ Links next (next x) xs

/-- `for (i = h; i >= 0; i = next[i]) if (p(i)) return i; return -1;`, for
at most `fuel` entries. -/
def seek (next : α → Option α) (p : α → Bool) : Nat → Option α → Option α
  | 0, _ => none
  | _ + 1, none => none
  | fuel + 1, some x => if p x then some x else seek next p fuel (next x)

/-! ## The list is determined by its head -/

theorem Links.unique (hl : Links next h l) (hl' : Links next h l') : l = l' := by
  induction l generalizing h l' with
  | nil =>
    cases l' with
    | nil => rfl
    | cons y ys => exact absurd (hl.symm.trans hl'.1) (by simp)
  | cons x xs ih =>
    cases l' with
    | nil => exact absurd (hl.1.symm.trans hl') (by simp)
    | cons y ys =>
      obtain rfl : x = y := Option.some.inj (hl.1.symm.trans hl'.1)
      rw [ih hl.2 hl'.2]

theorem Links.suffix {a b : List α} (hl : Links next h (a ++ x :: b)) : Links next (next x) b := by
  induction a generalizing h with
  | nil => exact hl.2
  | cons y ys ih => exact ih hl.2

theorem Links.nodup (hl : Links next h l) : l.Nodup := by
  induction l generalizing h with
  | nil => exact List.nodup_nil
  | cons x xs ih =>
    refine List.nodup_cons.mpr ⟨fun hx => ?_, ih hl.2⟩
    -- a second `x` further on would have the same list behind it as the first
    obtain ⟨a, b, hab⟩ := List.append_of_mem hx
    have htail : Links next (next x) (a ++ x :: b) := hab ▸ hl.2
    have hlen := congrArg List.length (htail.unique htail.suffix)
    simp only [List.length_append, List.length_cons] at hlen
    omega

theorem Links.congr (hl : Links next h l) (hsame : ∀ x ∈ l, next' x = next x) :
    Links next' h l := by
  induction l generalizing h with
  | nil => exact hl
  | cons x xs ih =>
    refine ⟨hl.1, ?_⟩
    rw [hsame x List.mem_cons_self]
    exact ih hl.2 fun y hy => hsame y (List.mem_cons_of_mem x hy)

theorem Links.ne_nil (hl : Links next (some x) l) : l ≠ [] := by
  intro hnil
  subst hnil
  exact absurd hl (by simp [Links])

theorem Links.eq_nil (hl : Links next none l) : l = [] := by
  cases l with
  | nil => rfl
  | cons y ys => exact absurd hl.1 (by simp)

theorem Links.length_le {next : Nat → Option Nat} {h : Option Nat} {l : List Nat} {n : Nat}
    (hl : Links next h l) (hlt : ∀ x ∈ l, x < n) : l.length ≤ n := by
  have hsub : l ⊆ List.range n := fun x hx => List.mem_range.mpr (hlt x hx)
  simpa using (hl.nodup.subperm hsub).length_le

/-! ## Its end -/

theorem Links.concat {y : α} (hl : Links next h (l ++ [y])) (hy : next' y = some x)
    (hx : next' x = none) (hsame : ∀ z ∈ l, next' z = next z) :
    Links next' h (l ++ [y, x]) := by
  induction l generalizing h with
  | nil => exact ⟨hl.1, hy, hx⟩
  | cons z zs ih =>
    refine ⟨hl.1, ?_⟩
    rw [hsame z List.mem_cons_self]
    exact ih hl.2 fun w hw => hsame w (List.mem_cons_of_mem z hw)

theorem Links.cut {y : α} {r : List α} (hl : Links next h (l ++ y :: r)) (hy : next' y = none)
    (hsame : ∀ z ∈ l, next' z = next z) : Links next' h (l ++ [y]) := by
  induction l generalizing h with
  | nil => exact ⟨hl.1, hy⟩
  | cons z zs ih =>
    refine ⟨hl.1, ?_⟩
    rw [hsame z List.mem_cons_self]
    exact ih hl.2 fun w hw => hsame w (List.mem_cons_of_mem z hw)

theorem Links.last {y : α} (hl : Links next h (l ++ [y])) : next y = none :=
  hl.suffix (b := [])

/-! ## Walking it -/

theorem seek_eq_find? {fuel : Nat} (p : α → Bool) (hl : Links next h l)
    (hfuel : l.length ≤ fuel) : seek next p fuel h = l.find? p := by
  induction fuel generalizing h l with
  | zero => rw [List.length_eq_zero_iff.mp (Nat.le_zero.mp hfuel)]; rfl
  | succ fuel ih =>
    cases l with
    | nil => rw [show h = none from hl]; rfl
    | cons x xs =>
      rw [hl.1, seek, List.find?_cons]
      cases hp : p x with
      | true => rfl
      | false => exact ih hl.2 (Nat.le_of_succ_le_succ hfuel)

theorem Links.exists_pred (hl : Links next h l) (hx : x ∈ l) (hhead : h ≠ some x) :
    ∃ c ∈ l, next c = some x := by
  induction l generalizing h with
  | nil => exact absurd hx List.not_mem_nil
  | cons y ys ih =>
    have hxs : x ∈ ys := by
      rcases List.mem_cons.mp hx with rfl | hxs
      · exact absurd hl.1 hhead
      · exact hxs
    by_cases hy : next y = some x
    · exact ⟨y, List.mem_cons_self, hy⟩
    · obtain ⟨c, hc, hcx⟩ := ih hl.2 hxs hy
      exact ⟨c, List.mem_cons_of_mem y hc, hcx⟩

/-! ## Taking an entry out -/

variable [DecidableEq α]

theorem Links.erase_head (hl : Links next (some x) l) : Links next (next x) (l.erase x) := by
  cases l with
  | nil => exact absurd hl (by simp [Links])
  | cons y ys =>
    obtain rfl : x = y := Option.some.inj hl.1
    rw [List.erase_cons_head]
    exact hl.2

theorem Links.erase_pred (hl : Links next h l) (hc : c ∈ l) (hcx : next c = some x) :
    Links (Function.update next c (next x)) h (l.erase x) := by
  induction l generalizing h with
  | nil => exact absurd hc List.not_mem_nil
  | cons y ys ih =>
    have hnd := List.nodup_cons.mp hl.nodup
    by_cases hyc : y = c
    · subst hyc
      have htail : Links next (some x) ys := hcx ▸ hl.2
      have hxy : y ≠ x := by
        rintro rfl
        obtain ⟨z, zs, hz⟩ := List.exists_cons_of_ne_nil htail.ne_nil
        subst hz
        exact hnd.1 (by rw [Option.some.inj htail.1]; exact List.mem_cons_self)
      rw [List.erase_cons_tail (by simpa using hxy)]
      refine ⟨hl.1, ?_⟩
      rw [Function.update_self]
      refine htail.erase_head.congr fun z hz => Function.update_of_ne ?_ _ _
      rintro rfl
      exact hnd.1 (List.mem_of_mem_erase hz)
    · have hcys : c ∈ ys := (List.mem_cons.mp hc).resolve_left (Ne.symm hyc)
      have hyx : y ≠ x := by
        rintro rfl
        -- `y` would follow `c` and stand before it
        obtain ⟨a, b, hab⟩ := List.append_of_mem hcys
        have hb : Links next (some y) b := hcx ▸ (hab ▸ hl.2 : Links next _ (a ++ c :: b)).suffix
        obtain ⟨z, zs, hz⟩ := List.exists_cons_of_ne_nil hb.ne_nil
        subst hz
        obtain rfl := Option.some.inj hb.1
        exact hnd.1 (by rw [hab]; simp)
      rw [List.erase_cons_tail (by simpa using hyx)]
      refine ⟨hl.1, ?_⟩
      rw [Function.update_of_ne hyc]
      exact ih hl.2 hcys

end NovarisOS
