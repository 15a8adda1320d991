/-
NovarisOS.Lib.ByteFile — what a file is, said without storage.

A file is a list of bytes. Writing past its end fills the gap with zeros,
setting its length cuts it or pads it with zeros, and a read is a slice.
Everything a storage layer does with blocks, chains, frames and capacities
is judged against these three functions.
-/
import NovarisOS.Lib.Mem

namespace NovarisOS.ByteFile

/-- The file cut, or padded with zeros, to `n` bytes. -/
def resize (a : List UInt8) (n : Nat) : List UInt8 :=
  a.take n ++ List.replicate (n - a.length) 0

/-- `src` written at `off`; a gap between the old end and `off` is zeros. -/
def write (a : List UInt8) (off : Nat) (src : List UInt8) : List UInt8 :=
  resize a off ++ src ++ a.drop (off + src.length)

/-- At most `n` bytes from `off` on. -/
def read (a : List UInt8) (off n : Nat) : List UInt8 := (a.drop off).take n

@[simp] theorem length_resize (a : List UInt8) (n : Nat) : (resize a n).length = n := by
  simp [resize]
  omega

@[simp] theorem length_write (a : List UInt8) (off : Nat) (src : List UInt8) :
    (write a off src).length = max a.length (off + src.length) := by
  simp [write]
  omega

theorem length_read (a : List UInt8) (off n : Nat) :
    (read a off n).length = min n (a.length - off) := by
  simp [read]

theorem getD_resize (a : List UInt8) (n i : Nat) :
    (resize a n).getD i 0 = if i < n then a.getD i 0 else 0 := by
  simp only [resize, List.getD_eq_getElem?_getD, List.getElem?_append, List.length_take,
    List.getElem?_take, List.getElem?_replicate]
  by_cases h₁ : i < n
  · by_cases h₂ : i < a.length
    · rw [if_pos (by omega), if_pos h₁, if_pos h₁]
    · have hnone : a[i]? = none := List.getElem?_eq_none (by omega)
      rw [if_neg (by omega), if_pos (by omega), if_pos h₁, hnone]
      rfl
  · rw [if_neg (by omega), if_neg (by omega), if_neg h₁]
    rfl

theorem getD_write (a : List UInt8) (off : Nat) (src : List UInt8) (i : Nat) :
    (write a off src).getD i 0 =
      if off ≤ i ∧ i < off + src.length then src.getD (i - off) 0 else a.getD i 0 := by
  rw [write, List.append_assoc, List.getD_eq_getElem?_getD, List.getElem?_append, length_resize]
  by_cases h₁ : i < off
  · rw [if_pos h₁, ← List.getD_eq_getElem?_getD, getD_resize, if_pos h₁, if_neg (by omega)]
  · rw [if_neg h₁, List.getElem?_append]
    by_cases h₂ : i < off + src.length
    · rw [if_pos (by omega), if_pos ⟨by omega, h₂⟩, List.getD_eq_getElem?_getD]
    · rw [if_neg (by omega), if_neg (by omega), List.getElem?_drop, List.getD_eq_getElem?_getD]
      congr 2
      omega

theorem read_eq_bytes {a : List UInt8} {m : Mem} {off n : Nat} (hn : off + n ≤ a.length)
    (h : ∀ i, i < a.length → m i = a.getD i 0) : read a off n = m.bytes off n := by
  apply List.ext_getElem
  · simp [read]
    omega
  · intro i h₁ h₂
    simp only [Mem.length_bytes] at h₂
    have hi : off + i < a.length := by omega
    simp [read, h (off + i) hi, List.getD_eq_getElem?_getD, hi]

end NovarisOS.ByteFile
