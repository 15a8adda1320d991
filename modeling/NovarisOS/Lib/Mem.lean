/-
NovarisOS.Lib.Mem — memory as a function from an index to a byte, with the
two bulk operations every C program has: copy a run in, fill a run.

A `Mem` is what a pointer reaches. It has no length of its own, as a C pointer
has none: a block of `n` bytes is the indices below `n`, and what lies past
them is whatever the neighbouring memory holds.
-/
import Mathlib.Data.List.GetD
import Mathlib.Logic.Function.Basic

namespace NovarisOS

/-- The bytes reachable from a pointer. -/
abbrev Mem := Nat → UInt8

/-- A string of bytes. -/
abbrev Bytes := List UInt8

namespace Mem

/-- `memcpy(dst + off, src, n)`. -/
def copyAt (dst : Mem) (off : Nat) (src : Mem) (n : Nat) : Mem :=
  fun i => if off ≤ i ∧ i < off + n then src (i - off) else dst i

/-- `memset(dst + off, b, n)`. -/
def fillAt (dst : Mem) (off : Nat) (b : UInt8) (n : Nat) : Mem :=
  fun i => if off ≤ i ∧ i < off + n then b else dst i

/-- The pointer `m + off`. -/
def shift (m : Mem) (off : Nat) : Mem := fun i => m (off + i)

/-- The `n` bytes from index `off` on. -/
def bytes (m : Mem) (off n : Nat) : List UInt8 := (List.range n).map (fun i => m (off + i))

theorem copyAt_apply (dst : Mem) (off : Nat) (src : Mem) (n i : Nat) :
    copyAt dst off src n i = if off ≤ i ∧ i < off + n then src (i - off) else dst i := rfl

theorem fillAt_apply (dst : Mem) (off : Nat) (b : UInt8) (n i : Nat) :
    fillAt dst off b n i = if off ≤ i ∧ i < off + n then b else dst i := rfl

variable {off n i : Nat} {dst : Mem}

theorem copyAt_inside {src : Mem} (h₁ : off ≤ i) (h₂ : i < off + n) :
    copyAt dst off src n i = src (i - off) := by
  simp [copyAt, h₁, h₂]

theorem copyAt_outside {src : Mem} (h : i < off ∨ off + n ≤ i) :
    copyAt dst off src n i = dst i := by
  rw [copyAt, if_neg]
  omega

theorem fillAt_inside {b : UInt8} (h₁ : off ≤ i) (h₂ : i < off + n) : fillAt dst off b n i = b := by
  simp [fillAt, h₁, h₂]

theorem fillAt_outside {b : UInt8} (h : i < off ∨ off + n ≤ i) : fillAt dst off b n i = dst i := by
  rw [fillAt, if_neg]
  omega

@[simp] theorem shift_apply (m : Mem) (off i : Nat) : shift m off i = m (off + i) := rfl

theorem shift_shift (m : Mem) (a b : Nat) : (m.shift a).shift b = m.shift (a + b) := by
  funext i
  simp [Nat.add_assoc]

@[simp] theorem length_bytes (m : Mem) (off n : Nat) : (bytes m off n).length = n := by
  simp [bytes]

@[simp] theorem getElem_bytes (m : Mem) (off n i : Nat) (h : i < (bytes m off n).length) :
    (bytes m off n)[i] = m (off + i) := by
  simp [bytes]

theorem bytes_add (m : Mem) (off a b : Nat) : bytes m off (a + b) = bytes m off a ++ bytes m (off + a) b := by
  simp [bytes, List.range_add, Nat.add_assoc]

theorem getD_bytes (m : Mem) (off n i : Nat) :
    (bytes m off n).getD i 0 = if i < n then m (off + i) else 0 := by
  rw [List.getD_eq_getElem?_getD]
  split
  · rename_i h
    simp [bytes, h]
  · rename_i h
    simp [bytes, h]

end Mem

end NovarisOS
