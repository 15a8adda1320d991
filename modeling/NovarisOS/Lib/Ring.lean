/-
NovarisOS.Lib.Ring — what lies in a ring of `n` places.

A ring is read from a place `head`, `len` elements long, round the end of
the array and on from its start. `contents` is that list. The lemmas are
the three things a program does with a ring: take a run off the front
(`contents_add`), read or write a run that does not cross the end
(`contents_run`), and write past the last element without harm to the ones
in front of it (`contents_write`).
-/
import Mathlib.Data.List.Basic
import Mathlib.Data.Nat.ModEq

namespace NovarisOS.RingBuffer

variable {α : Type*} {n head len run : Nat} {buf buf' : Nat → α}

/-- The `len` elements from `head` on, round a ring of `n` places. -/
def contents (n : Nat) (buf : Nat → α) (head len : Nat) : List α :=
  (List.range len).map fun i => buf ((head + i) % n)

@[simp] theorem length_contents (n : Nat) (buf : Nat → α) (head len : Nat) :
    (contents n buf head len).length = len := by simp [contents]

@[simp] theorem contents_zero (n : Nat) (buf : Nat → α) (head : Nat) : contents n buf head 0 = [] := rfl

theorem contents_add (n : Nat) (buf : Nat → α) (head a b : Nat) :
    contents n buf head (a + b) = contents n buf head a ++ contents n buf ((head + a) % n) b := by
  simp only [contents, List.range_add, List.map_append, List.map_map, List.append_cancel_left_eq]
  apply List.map_congr_left
  intro i _
  simp only [Function.comp_apply]
  rw [Nat.mod_add_mod, Nat.add_assoc]

theorem contents_congr (h : ∀ i < len, buf' ((head + i) % n) = buf ((head + i) % n)) :
    contents n buf' head len = contents n buf head len := by
  apply List.map_congr_left
  intro i hi
  exact h i (List.mem_range.mp hi)

theorem contents_run (h : head + len ≤ n) :
    contents n buf head len = (List.range len).map fun i => buf (head + i) := by
  apply List.map_congr_left
  intro i hi
  have hi := List.mem_range.mp hi
  rw [Nat.mod_eq_of_lt (by omega)]

theorem place_ne (head : Nat) {i j : Nat} (hi : i < len) (hj : j < run) (hroom : len + run ≤ n) :
    (head + i) % n ≠ (head + len + j) % n := by
  intro heq
  have hmod : i ≡ len + j [MOD n] := Nat.ModEq.add_left_cancel' head (by rw [← Nat.add_assoc]; exact heq)
  have := Nat.ModEq.eq_of_lt_of_lt hmod (by omega) (by omega)
  omega

theorem contents_write (buf : Nat → α) (hroom : len + run ≤ n)
    (hout : ∀ p, p < (head + len) % n ∨ (head + len) % n + run ≤ p → buf' p = buf p) :
    contents n buf' head len = contents n buf head len := by
  refine contents_congr fun i hi => hout _ ?_
  by_contra hin
  have hplace : (head + i) % n = (head + len + ((head + i) % n - (head + len) % n)) % n := by
    rw [← Nat.mod_add_mod (head + len), Nat.add_sub_cancel' (by omega), Nat.mod_mod]
  exact place_ne head hi (by omega) hroom hplace

end NovarisOS.RingBuffer
