/-
NovarisOS.Lib.Words — an address space of 64-bit addresses.

Addresses wrap, so a block is the bytes at a distance from its base: byte `i`
of the block at `base` is at `base + i`, round the end of the space where it
has to. `put` writes a block, `word` reads eight bytes, lowest first. A block
of words reads back word by word (`word_put`), and an address far enough from
the base is left alone (`put_outside`).
-/
import Mathlib.Algebra.Group.Nat.Defs
import Mathlib.Data.List.GetD

namespace NovarisOS

/-- A 64-bit value. -/
abbrev Word := BitVec 64

/-- What every address holds. -/
abbrev Space := Word → UInt8

namespace Space

/-- The block of `n` bytes at `base` becomes `src`. -/
def put (m : Space) (base : Word) (n : Nat) (src : Nat → UInt8) : Space :=
  fun a => if (a - base).toNat < n then src (a - base).toNat else m a

/-- Byte `i` of the block at `base`. -/
def byte (m : Space) (base : Word) (i : Nat) : UInt8 := m (base + BitVec.ofNat 64 i)

/-- The 64-bit field at an address. -/
def word (m : Space) (a : Word) : Word :=
  BitVec.ofNat 64 ((m.byte a 0).toNat + 0x100 * (m.byte a 1).toNat + 0x10000 * (m.byte a 2).toNat +
    0x1000000 * (m.byte a 3).toNat + 0x100000000 * (m.byte a 4).toNat + 0x10000000000 * (m.byte a 5).toNat +
    0x1000000000000 * (m.byte a 6).toNat + 0x100000000000000 * (m.byte a 7).toNat)

/-- Byte `i` of words that lie one after the other. -/
def ofWords (ws : List Word) (i : Nat) : UInt8 := UInt8.ofNat ((ws.getD (i / 8) 0).toNat / 0x100 ^ (i % 8))

variable {m : Space} {base : Word} {n i : Nat} {src : Nat → UInt8}

theorem toNat_offset (base : Word) {i : Nat} (h : i < 2 ^ 64) :
    (base + BitVec.ofNat 64 i - base).toNat = i := by
  have hself : base + BitVec.ofNat 64 i - base = BitVec.ofNat 64 i := by
    rw [BitVec.add_comm, BitVec.add_sub_cancel]
  rw [hself, BitVec.toNat_ofNat, Nat.mod_eq_of_lt h]

theorem byte_put (h : i < n) (hn : n ≤ 2 ^ 64) : (m.put base n src).byte base i = src i := by
  have hoff := toNat_offset base (Nat.lt_of_lt_of_le h hn)
  rw [byte, put, hoff, if_pos h]

theorem put_outside {a : Word} (h : n ≤ (a - base).toNat) : m.put base n src a = m a :=
  if_neg (Nat.not_lt.mpr h)

theorem byte_add (m : Space) (base : Word) (i j : Nat) :
    m.byte (base + BitVec.ofNat 64 i) j = m.byte base (i + j) := by
  rw [byte, byte, BitVec.add_assoc, BitVec.ofNat_add]

theorem word_congr {m' : Space} {a : Word} (h : ∀ i < 8, m'.byte a i = m.byte a i) : m'.word a = m.word a := by
  rw [word, word, h 0 (by decide), h 1 (by decide), h 2 (by decide), h 3 (by decide), h 4 (by decide),
    h 5 (by decide), h 6 (by decide), h 7 (by decide)]

theorem word_of_bytes {a w : Word} (h : ∀ i < 8, m.byte a i = UInt8.ofNat (w.toNat / 0x100 ^ i)) :
    m.word a = w := by
  have hw := w.isLt
  rw [word, h 0 (by decide), h 1 (by decide), h 2 (by decide), h 3 (by decide), h 4 (by decide),
    h 5 (by decide), h 6 (by decide), h 7 (by decide)]
  apply BitVec.eq_of_toNat_eq
  rw [BitVec.toNat_ofNat]
  simp only [UInt8.toNat_ofNat']
  generalize w.toNat = k at *
  omega

theorem word_put {ws : List Word} (hi : i < ws.length) (hlen : 8 * ws.length ≤ 2 ^ 64) :
    (m.put base (8 * ws.length) (ofWords ws)).word (base + BitVec.ofNat 64 (8 * i)) = ws.getD i 0 := by
  apply word_of_bytes
  intro j hj
  rw [byte_add, byte_put (by omega) hlen, ofWords]
  have hdiv : (8 * i + j) / 8 = i := by omega
  have hmod : (8 * i + j) % 8 = j := by omega
  rw [hdiv, hmod]

end Space

end NovarisOS
