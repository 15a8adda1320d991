/-
NovarisOS.Lib.Bytes — little-endian fields of a block of memory.

A 16- or 32-bit field is two or four bytes, lowest first, at any offset. The
lemmas are the two a reader of such fields asks for: a field reads back as
it was written, cut to its width, and a field does not change when the bytes
written are not its own.
-/
import NovarisOS.Lib.Mem

namespace NovarisOS.Mem

/-- The 16-bit field at `off`. -/
def rd16 (m : Mem) (off : Nat) : Nat := (m off).toNat + 256 * (m (off + 1)).toNat

/-- The 32-bit field at `off`. -/
def rd32 (m : Mem) (off : Nat) : Nat :=
  (m off).toNat + 256 * (m (off + 1)).toNat + 65536 * (m (off + 2)).toNat +
    16777216 * (m (off + 3)).toNat

/-- The 64-bit field at `off`. -/
def rd64 (m : Mem) (off : Nat) : Nat := rd32 m off + 4294967296 * rd32 m (off + 4)

def wr16 (m : Mem) (off v : Nat) : Mem := fun i =>
  if i = off then UInt8.ofNat v
  else if i = off + 1 then UInt8.ofNat (v / 256)
  else m i

def wr32 (m : Mem) (off v : Nat) : Mem := fun i =>
  if i = off then UInt8.ofNat v
  else if i = off + 1 then UInt8.ofNat (v / 256)
  else if i = off + 2 then UInt8.ofNat (v / 65536)
  else if i = off + 3 then UInt8.ofNat (v / 16777216)
  else m i

def wr64 (m : Mem) (off v : Nat) : Mem := wr32 (wr32 m off v) (off + 4) (v / 4294967296)

variable {m m' : Mem} {off off' v i : Nat}

theorem wr16_outside (h : i < off ∨ off + 2 ≤ i) : wr16 m off v i = m i := by
  rw [wr16, if_neg (by omega), if_neg (by omega)]

theorem wr32_outside (h : i < off ∨ off + 4 ≤ i) : wr32 m off v i = m i := by
  rw [wr32, if_neg (by omega), if_neg (by omega), if_neg (by omega), if_neg (by omega)]

theorem wr64_outside (h : i < off ∨ off + 8 ≤ i) : wr64 m off v i = m i := by
  rw [wr64, wr32_outside (by omega), wr32_outside (by omega)]

theorem wr16_inside (h₁ : off ≤ i) (h₂ : i < off + 2) : wr16 m off v i = wr16 m' off v i := by
  rcases (by omega : i = off ∨ i = off + 1) with rfl | rfl <;> simp [wr16]

theorem wr32_inside (h₁ : off ≤ i) (h₂ : i < off + 4) : wr32 m off v i = wr32 m' off v i := by
  rcases (by omega : i = off ∨ i = off + 1 ∨ i = off + 2 ∨ i = off + 3) with rfl | rfl | rfl | rfl <;> simp [wr32]

theorem rd16_congr (h : ∀ i, off ≤ i → i < off + 2 → m' i = m i) : rd16 m' off = rd16 m off := by
  rw [rd16, rd16, h off (by omega) (by omega), h (off + 1) (by omega) (by omega)]

theorem rd32_congr (h : ∀ i, off ≤ i → i < off + 4 → m' i = m i) : rd32 m' off = rd32 m off := by
  rw [rd32, rd32, h off (by omega) (by omega), h (off + 1) (by omega) (by omega),
    h (off + 2) (by omega) (by omega), h (off + 3) (by omega) (by omega)]

theorem rd64_congr (h : ∀ i, off ≤ i → i < off + 8 → m' i = m i) : rd64 m' off = rd64 m off := by
  rw [rd64, rd64, rd32_congr fun i h₁ h₂ => h i h₁ (by omega), rd32_congr fun i h₁ h₂ => h i (by omega) (by omega)]

theorem rd16_wr16 (m : Mem) (off v : Nat) : rd16 (wr16 m off v) off = v % 65536 := by
  simp [rd16, wr16]
  omega

theorem rd32_wr32 (m : Mem) (off v : Nat) : rd32 (wr32 m off v) off = v % 4294967296 := by
  simp [rd32, wr32]
  omega

theorem rd64_wr64 (m : Mem) (off v : Nat) : rd64 (wr64 m off v) off = v % 18446744073709551616 := by
  have hlow : rd32 (wr64 m off v) off = v % 4294967296 := by
    rw [wr64, rd32_congr fun i _ _ => wr32_outside (by omega), rd32_wr32]
  have hhigh : rd32 (wr64 m off v) (off + 4) = v / 4294967296 % 4294967296 := rd32_wr32 _ _ _
  rw [rd64, hlow, hhigh]
  omega

theorem rd16_wr16_of_disjoint (h : off' + 2 ≤ off ∨ off + 2 ≤ off') :
    rd16 (wr16 m off v) off' = rd16 m off' :=
  rd16_congr fun _ _ _ => wr16_outside (by omega)

theorem rd32_wr32_of_disjoint (h : off' + 4 ≤ off ∨ off + 4 ≤ off') :
    rd32 (wr32 m off v) off' = rd32 m off' :=
  rd32_congr fun _ _ _ => wr32_outside (by omega)

theorem rd16_lt (m : Mem) (off : Nat) : rd16 m off < 65536 := by
  have h₀ := (m off).toNat_lt
  have h₁ := (m (off + 1)).toNat_lt
  rw [rd16]
  omega

theorem rd32_lt (m : Mem) (off : Nat) : rd32 m off < 4294967296 := by
  have h₀ := (m off).toNat_lt
  have h₁ := (m (off + 1)).toNat_lt
  have h₂ := (m (off + 2)).toNat_lt
  have h₃ := (m (off + 3)).toNat_lt
  rw [rd32]
  omega

theorem rd64_lt (m : Mem) (off : Nat) : rd64 m off < 18446744073709551616 := by
  have h₀ := rd32_lt m off
  have h₁ := rd32_lt m (off + 4)
  rw [rd64]
  omega

/-! ### Through a pointer -/

theorem rd16_shift (m : Mem) (a off : Nat) : rd16 (m.shift a) off = rd16 m (a + off) := rfl

theorem rd32_shift (m : Mem) (a off : Nat) : rd32 (m.shift a) off = rd32 m (a + off) := rfl

theorem shift_wr16 (m : Mem) (a off v : Nat) : (wr16 m (a + off) v).shift a = wr16 (m.shift a) off v := by
  funext i
  simp [wr16, Nat.add_assoc]

theorem shift_wr32 (m : Mem) (a off v : Nat) : (wr32 m (a + off) v).shift a = wr32 (m.shift a) off v := by
  funext i
  simp [wr32, Nat.add_assoc]

end NovarisOS.Mem
