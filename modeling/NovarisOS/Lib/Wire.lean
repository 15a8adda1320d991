/-
NovarisOS.Lib.Wire — messages in network byte order, and the ones' complement
sum over them.

A message is a list of bytes. A field of 16 or 32 bits is two or four of
them, highest first, at any offset; a byte behind the end reads as zero.

The sum of a message is over its 16-bit words, a last odd byte counting as the
high half of one.
-/
import Mathlib.Algebra.Group.Even
import Mathlib.Data.List.Basic
import NovarisOS.Lib.Mem

namespace NovarisOS.Wire

def be8 (m : Bytes) (off : Nat) : Nat := (m.getD off 0).toNat

def be16 (m : Bytes) (off : Nat) : Nat := 256 * be8 m off + be8 m (off + 1)

def be32 (m : Bytes) (off : Nat) : Nat := 65536 * be16 m off + be16 m (off + 2)

def put16 (v : Nat) : Bytes := [UInt8.ofNat (v / 256), UInt8.ofNat v]

def put32 (v : Nat) : Bytes := put16 (v / 65536) ++ put16 v

/-! ## Fields -/

theorem word_bytes (v : Nat) : 256 * (UInt8.ofNat (v / 256)).toNat + (UInt8.ofNat v).toNat = v % 65536 := by
  simp only [UInt8.toNat_ofNat']
  omega

theorem dword_bytes (v : Nat) :
    65536 * (256 * (UInt8.ofNat (v / 65536 / 256)).toNat + (UInt8.ofNat (v / 65536)).toNat) +
      (256 * (UInt8.ofNat (v / 256)).toNat + (UInt8.ofNat v).toNat) = v % 4294967296 := by
  rw [word_bytes, word_bytes]
  omega

theorem be8_append (a b : Bytes) (off : Nat) : be8 (a ++ b) (a.length + off) = be8 b off := by
  unfold be8
  rw [List.getD_eq_getElem?_getD, List.getD_eq_getElem?_getD, List.getElem?_append_right (Nat.le_add_right _ _),
    Nat.add_sub_cancel_left]

theorem be16_append (a b : Bytes) (off : Nat) : be16 (a ++ b) (a.length + off) = be16 b off := by
  unfold be16
  rw [be8_append, Nat.add_assoc, be8_append]

/-! ## Sums -/

/-- The sum of the words. -/
def sumWords : Bytes → Nat
  | [] => 0
  | [a] => 256 * a.toNat
  | a :: b :: rest => 256 * a.toNat + b.toNat + sumWords rest

/-- The carries added back. -/
def fold (n : Nat) : Nat := if n < 65536 then n else fold (n % 65536 + n / 65536)
termination_by n
decreasing_by omega

/-- What remains to 65535. -/
def complement (n : Nat) : Nat := 65535 - fold n

theorem sumWords_le : ∀ m : Bytes, sumWords m ≤ 65535 * ((m.length + 1) / 2)
  | [] => Nat.le_refl 0
  | [a] => by
    have ha := a.toNat_lt
    simp only [sumWords, List.length_cons, List.length_nil]
    omega
  | a :: b :: rest => by
    have ha := a.toNat_lt
    have hb := b.toNat_lt
    have hrest := sumWords_le rest
    simp only [sumWords, List.length_cons]
    omega

/-- `m'` differs from `m` in nothing but the word at `off`. -/
structure SameBut (off : Nat) (m m' : Bytes) : Prop where
  length : m'.length = m.length
  even : Even off
  same : ∀ j, j ≠ off → j ≠ off + 1 → be8 m' j = be8 m j

theorem eq_of_be8 : ∀ {m m' : Bytes}, m'.length = m.length → (∀ j, be8 m' j = be8 m j) → m' = m
  | [], [], _, _ => rfl
  | a :: m, a' :: m', hlen, hsame => by
    have hhead : a' = a := UInt8.toNat_inj.mp (hsame 0)
    have htail : m' = m := eq_of_be8 (Nat.succ.inj hlen) fun j => hsame (j + 1)
    rw [hhead, htail]

theorem SameBut.tail {off : Nat} {a b a' b' : UInt8} {m m' : Bytes}
    (h : SameBut (off + 2) (a :: b :: m) (a' :: b' :: m')) :
    SameBut off m m' where
  length := by
    have hlen := h.length
    simp only [List.length_cons] at hlen
    omega
  even := by
    obtain ⟨k, hk⟩ := h.even
    exact ⟨k - 1, by omega⟩
  same := fun j h₀ h₁ => h.same (j + 2) (by omega) (by omega)

theorem SameBut.sumWords : ∀ {m m' : Bytes} {off : Nat}, SameBut off m m' →
    sumWords m' + be16 m off = sumWords m + be16 m' off
  | [], [], _, _ => rfl
  | [a], [a'], off, h => by
    obtain ⟨k, hk⟩ := h.even
    cases k with
    | zero =>
      obtain rfl : off = 0 := by omega
      show 256 * a'.toNat + (256 * a.toNat + 0) = 256 * a.toNat + (256 * a'.toNat + 0)
      omega
    | succ k =>
      have hhead : a' = a := UInt8.toNat_inj.mp (h.same 0 (by omega) (by omega))
      rw [hhead]
  | a :: b :: m, a' :: b' :: m', 0, h => by
    have hrest : m' = m := eq_of_be8 (by simpa using h.length) fun j => h.same (j + 2) (by omega) (by omega)
    subst hrest
    show 256 * a'.toNat + b'.toNat + _ + (256 * a.toNat + b.toNat) =
      256 * a.toNat + b.toNat + _ + (256 * a'.toNat + b'.toNat)
    omega
  | a :: b :: m, a' :: b' :: m', 1, h => by
    obtain ⟨k, hk⟩ := h.even
    omega
  | a :: b :: m, a' :: b' :: m', off + 2, h => by
    have ha : a'.toNat = a.toNat := h.same 0 (by omega) (by omega)
    have hb : b'.toNat = b.toNat := h.same 1 (by omega) (by omega)
    have hrest := SameBut.sumWords h.tail
    show 256 * a'.toNat + b'.toNat + Wire.sumWords m' + be16 m off =
      256 * a.toNat + b.toNat + Wire.sumWords m + be16 m' off
    omega
  | [], _ :: _, _, h => nomatch h.length
  | _ :: _, [], _, h => nomatch h.length
  | [_], _ :: _ :: _, _, h => nomatch h.length
  | _ :: _ :: _, [_], _, h => nomatch h.length

theorem fold_spec (n : Nat) : fold n ≤ 65535 ∧ fold n % 65535 = n % 65535 ∧ (fold n = 0 ↔ n = 0) := by
  induction n using Nat.strongRecOn with
  | _ n ih =>
    rw [fold]
    split
    · rename_i hlt
      exact ⟨by omega, rfl, Iff.rfl⟩
    · rename_i hge
      obtain ⟨hle, hmod, hzero⟩ := ih (n % 65536 + n / 65536) (by omega)
      exact ⟨hle, by omega, by omega⟩

theorem complement_le (n : Nat) : complement n ≤ 65535 := Nat.sub_le _ _

theorem complement_eq_zero {n : Nat} : complement n = 0 ↔ n ≠ 0 ∧ n % 65535 = 0 := by
  obtain ⟨hle, hmod, hzero⟩ := fold_spec n
  unfold complement
  constructor
  · intro h
    omega
  · rintro ⟨hne, hdvd⟩
    omega

theorem complement_self (n : Nat) : complement (n + complement n) = 0 := by
  obtain ⟨hle, hmod, hzero⟩ := fold_spec n
  rw [complement_eq_zero]
  unfold complement
  omega

end NovarisOS.Wire
