/-
NovarisOS.Lib.Checked — programs that stop at the first access they have no
right to.

A run ends with a value, or stops: at a `fault`, the access that lies outside
of what it was given, or because the `fuel` of a loop without a bound of its
own is used up. `Ensures` is the rule of postconditions for such runs: no
fault, and a value that meets the postcondition; `Meets` asks for the value
only.
-/
import NovarisOS.Lib.Bytes
import NovarisOS.Lib.Wire

namespace NovarisOS.Checked

/-- Why a run has no value. -/
inductive Stop where
  | fault
  | fuel
  deriving DecidableEq, Repr

variable {α β : Type}

/-- The run makes no fault, and its value, if it comes to one, meets `post`. -/
def Ensures (x : Except Stop α) (post : α → Prop) : Prop :=
  match x with
  | .ok a => post a
  | .error e => e = .fuel

/-- The run makes no fault. -/
def Faultless (x : Except Stop α) : Prop := x ≠ .error .fault

variable {x : Except Stop α} {k : α → Except Stop β} {post : α → Prop} {q : β → Prop}

theorem Ensures.ok {a : α} (h : post a) : Ensures (.ok a) post := h

theorem Ensures.out_of_fuel : Ensures (.error .fuel : Except Stop α) post := rfl

theorem Ensures.mono {post' : α → Prop} (h : Ensures x post) (hp : ∀ a, post a → post' a) :
    Ensures x post' := by
  cases x with
  | ok a => exact hp a h
  | error e => exact h

theorem Ensures.bind (h : Ensures x post) (hk : ∀ a, post a → Ensures (k a) q) :
    Ensures (x >>= k) q := by
  cases x with
  | ok a => exact hk a h
  | error e => exact h

theorem Ensures.ite {c : Prop} [Decidable c] {y z : Except Stop α} (hy : c → Ensures y post)
    (hz : ¬ c → Ensures z post) : Ensures (if c then y else z) post := by
  split
  · exact hy ‹_›
  · exact hz ‹_›

theorem Ensures.faultless (h : Ensures x post) : Faultless x := by
  rintro rfl
  cases h

theorem Faultless.left (h : Faultless (x >>= k)) : Faultless x := by
  rintro rfl
  exact h rfl

theorem Ensures.value {a : α} (h : Ensures x post) (hx : x = .ok a) : post a := by
  rw [hx] at h
  exact h

/-! ## Files -/

/-- A pointer to `size` bytes. -/
structure File where
  image : Mem
  size : Nat

namespace File

variable (f : File)

def get8 (off : Nat) : Except Stop Nat := if off < f.size then .ok (f.image off).toNat else .error .fault

def get16 (off : Nat) : Except Stop Nat := if off + 2 ≤ f.size then .ok (f.image.rd16 off) else .error .fault

def get32 (off : Nat) : Except Stop Nat := if off + 4 ≤ f.size then .ok (f.image.rd32 off) else .error .fault

def get64 (off : Nat) : Except Stop Nat := if off + 8 ≤ f.size then .ok (f.image.rd64 off) else .error .fault

variable {f}

theorem get8_eq (off : Nat) (h : off < f.size) : f.get8 off = .ok (f.image off).toNat := if_pos h

theorem get16_eq (off : Nat) (h : off + 2 ≤ f.size) : f.get16 off = .ok (f.image.rd16 off) := if_pos h

theorem get32_eq (off : Nat) (h : off + 4 ≤ f.size) : f.get32 off = .ok (f.image.rd32 off) := if_pos h

theorem get64_eq (off : Nat) (h : off + 8 ≤ f.size) : f.get64 off = .ok (f.image.rd64 off) := if_pos h

theorem faultless_get32 {off : Nat} {k : Nat → Except Stop α} (h : Faultless (f.get32 off >>= k)) :
    off + 4 ≤ f.size := by
  by_contra hn
  rw [get32, if_neg hn] at h
  exact h rfl

theorem faultless_get64 {off : Nat} {k : Nat → Except Stop α} (h : Faultless (f.get64 off >>= k)) :
    off + 8 ≤ f.size := by
  by_contra hn
  rw [get64, if_neg hn] at h
  exact h rfl

end File

/-! ## Messages and arrays -/

section Messages

open Wire

variable {m : Bytes} {off len : Nat}

def byteAt (m : Bytes) (off : Nat) : Except Stop Nat := if off < m.length then .ok (be8 m off) else .error .fault

def wordAt (m : Bytes) (off : Nat) : Except Stop Nat := if off + 2 ≤ m.length then .ok (be16 m off) else .error .fault

def dwordAt (m : Bytes) (off : Nat) : Except Stop Nat := if off + 4 ≤ m.length then .ok (be32 m off) else .error .fault

/-- The `len` bytes from `off` on. -/
def slice (m : Bytes) (off len : Nat) : Except Stop Bytes :=
  if off + len ≤ m.length then .ok ((m.drop off).take len) else .error .fault

/-- A write to `len` places from `off` on, of an array of `n`. -/
def fill (n off len : Nat) : Except Stop Unit := if off + len ≤ n then .ok () else .error .fault

theorem byteAt_eq (h : off < m.length) : byteAt m off = .ok (be8 m off) := if_pos h

theorem wordAt_eq (h : off + 2 ≤ m.length) : wordAt m off = .ok (be16 m off) := if_pos h

theorem dwordAt_eq (h : off + 4 ≤ m.length) : dwordAt m off = .ok (be32 m off) := if_pos h

theorem slice_eq (h : off + len ≤ m.length) : slice m off len = .ok ((m.drop off).take len) := if_pos h

theorem fill_eq {n : Nat} (h : off + len ≤ n) : fill n off len = .ok () := if_pos h

end Messages

end NovarisOS.Checked
