/-
NovarisOS.Lib.Bitmap — a bitmap that is kept a byte at a time.

Bit `b` is bit `b % 8` of byte `b / 8`. Setting and clearing are the masks a C
program writes; `test_set` and `test_clear` are all that is needed to know of
them, and `test_of_full` is why a scan may pass a byte of 0xFF in one step.
-/
import Mathlib.Data.List.Basic

namespace NovarisOS

open Function (update update_of_ne update_self)

/-- The bytes of a bitmap. -/
abbrev Bitmap := Nat → BitVec 8

namespace Bitmap

def test (m : Bitmap) (b : Nat) : Bool := (m (b / 8)).getLsbD (b % 8)

def set (m : Bitmap) (b : Nat) : Bitmap := update m (b / 8) (m (b / 8) ||| 1#8 <<< (b % 8))

def clear (m : Bitmap) (b : Nat) : Bitmap := update m (b / 8) (m (b / 8) &&& ~~~(1#8 <<< (b % 8)))

theorem getLsbD_mask (k i : Nat) (hk : k < 8) (hi : i < 8) : (1#8 <<< k).getLsbD i = decide (i = k) := by
  have h : ∀ k : Fin 8, ∀ i : Fin 8, (1#8 <<< k.val).getLsbD i.val = decide (i.val = k.val) := by
    decide
  exact h ⟨k, hk⟩ ⟨i, hi⟩

@[simp] theorem test_set (m : Bitmap) (b f : Nat) : (m.set b).test f = (decide (f = b) || m.test f) := by
  have hb : b % 8 < 8 := Nat.mod_lt _ (by decide)
  have hf : f % 8 < 8 := Nat.mod_lt _ (by decide)
  simp only [test, set]
  by_cases hbyte : f / 8 = b / 8
  · rw [hbyte, update_self, BitVec.getLsbD_or, getLsbD_mask _ _ hb hf, Bool.or_comm]
    congr 1
    exact decide_eq_decide.mpr (by omega)
  · rw [update_of_ne hbyte]
    have hne : f ≠ b := fun h => hbyte (by rw [h])
    simp [hne]

@[simp] theorem test_clear (m : Bitmap) (b f : Nat) : (m.clear b).test f = (decide (f ≠ b) && m.test f) := by
  have hb : b % 8 < 8 := Nat.mod_lt _ (by decide)
  have hf : f % 8 < 8 := Nat.mod_lt _ (by decide)
  simp only [test, clear]
  by_cases hbyte : f / 8 = b / 8
  · rw [hbyte, update_self, BitVec.getLsbD_and, BitVec.getLsbD_not, getLsbD_mask _ _ hb hf,
      Bool.and_comm]
    have hiff : f % 8 = b % 8 ↔ f = b := by omega
    by_cases h : f = b <;> simp [h, hf, hiff]
  · rw [update_of_ne hbyte]
    have hne : f ≠ b := fun h => hbyte (by rw [h])
    simp [hne]

theorem test_of_full {m : Bitmap} {b : Nat} (h : m b = 0xFF) {f : Nat} (hf : f / 8 = b) : m.test f = true := by
  have hall : ∀ i : Fin 8, (0xFF#8).getLsbD i.val = true := by decide
  rw [test, hf, h]
  exact hall ⟨f % 8, Nat.mod_lt _ (by decide)⟩

end Bitmap

end NovarisOS
