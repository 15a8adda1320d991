/-
NovarisOS.Lib.Table — a finite table: which keys are in it, in the order
they came, and the entry of each.

The key list is what a loop over the table runs through; `get` is what a
lookup reads. The two fields that tie them together are part of the type, so
a loop that visits `keys` visits every entry, and each once.
-/
import Mathlib.Data.List.Nodup

namespace NovarisOS

open Function (update update_of_ne)

/-- A finite partial function with its domain as a list. -/
structure Table (κ α : Type*) where
  keys : List κ
  get : κ → Option α
  nodup : keys.Nodup
  mem_keys : ∀ k, k ∈ keys ↔ get k ≠ none

namespace Table

variable {κ α : Type*}

/-- The table without entries. -/
def empty : Table κ α := ⟨[], fun _ => none, List.nodup_nil, by simp⟩

@[simp] theorem get_empty (k : κ) : (empty : Table κ α).get k = none := rfl

variable [DecidableEq κ]

/-- The table with the entry of `k` made `a`. -/
def set (t : Table κ α) (k : κ) (a : α) : Table κ α where
  keys := if k ∈ t.keys then t.keys else t.keys ++ [k]
  get := update t.get k (some a)
  nodup := by
    split
    · exact t.nodup
    · rename_i hk
      exact List.nodup_append.mpr ⟨t.nodup, List.nodup_singleton k, by
        intro x hx y hy
        obtain rfl := List.mem_singleton.mp hy
        exact fun hxy => hk (hxy ▸ hx)⟩
  mem_keys j := by
    by_cases hj : j = k
    · subst hj
      by_cases hk : j ∈ t.keys <;> simp [hk]
    · rw [update_of_ne hj, ← t.mem_keys]
      by_cases hk : k ∈ t.keys <;> simp [hk, hj]

/-- The table without the entry of `k`. -/
def erase (t : Table κ α) (k : κ) : Table κ α where
  keys := t.keys.erase k
  get := update t.get k none
  nodup := t.nodup.erase k
  mem_keys j := by
    by_cases hj : j = k
    · subst hj
      simp [t.nodup.not_mem_erase]
    · rw [update_of_ne hj, ← t.mem_keys, List.mem_erase_of_ne hj]

@[simp] theorem get_erase (t : Table κ α) (k : κ) :
    (t.erase k).get = update t.get k none := rfl

@[simp] theorem get_set (t : Table κ α) (k : κ) (a : α) :
    (t.set k a).get = update t.get k (some a) := rfl

end Table

end NovarisOS
