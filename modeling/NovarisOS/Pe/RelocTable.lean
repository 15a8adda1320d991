/-
NovarisOS.Pe.RelocTable — what a base relocation table names, and what
`apply_relocations` makes of it.

An image is looked at by its RVAs: a `Mem` with the first byte of the image at
0. The table is read from there, block by block (`tableBlocks`) and entry by
entry (`fixupAt`); an entry for the high half of a word takes the next entry
along, as the low half of that word.
-/
import Mathlib.Algebra.Group.Nat.Defs
import NovarisOS.Lib.Patches
import NovarisOS.Pe.Safety

namespace NovarisOS.Pe

open Checked

/-! ## Fixups -/

/-- What is done to a word. For the high half of one, rounded, the entry has
the low half with it. -/
inductive Fix where
  | highlow
  | high
  | low
  | highadj (addend : Nat)
  deriving DecidableEq, Repr

/-- A fixup and where it is made. -/
structure Fixup where
  fix : Fix
  rva : Nat
  deriving DecidableEq, Repr

/-- A value of `int16_t`. -/
def signed16 (n : Nat) : Int := if n < 0x8000 then n else n - 0x10000

namespace Fix

def width : Fix → Nat
  | highlow => 4
  | _ => 2

/-- The word `v` moved by `delta`, by the rules of the format. -/
def right (delta : Nat) : Fix → Nat → Nat
  | highlow, v => u32 (v + delta)
  | high, v => (v + delta / 0x10000) % 0x10000
  | low, v => (v + delta % 0x10000) % 0x10000
  | highadj addend, v => (((v * 0x10000 + signed16 addend + delta + 0x8000) / 0x10000 : Int) % 0x10000).toNat

/-- What `apply_relocations` makes of the word. -/
def moved (delta : Nat) : Fix → Nat → Nat
  | highlow, v => u32 (v + delta)
  | high, v => (v + delta / 0x10000) % 0x10000
  | low, v => (v + delta % 0x10000) % 0x10000
  | highadj addend, v => u32 (u32 (v * 0x10000 + addend + delta) + 0x8000) / 0x10000

/-- The low half is a number below zero. -/
def Negative : Fix → Prop
  | highadj addend => 0x8000 ≤ addend
  | _ => False

/-- The addend, if there is one, is a half word. -/
def Valid : Fix → Prop
  | highadj addend => addend < 0x10000
  | _ => True

theorem moved_eq_right_iff {x : Fix} (hx : x.Valid) (delta v : Nat) :
    x.moved delta v = x.right delta v ↔ ¬ x.Negative := by
  cases x with
  | highlow => simp [moved, right, Negative]
  | high => simp [moved, right, Negative]
  | low => simp [moved, right, Negative]
  | highadj addend =>
    simp only [moved, right, Negative, signed16, u32]
    split <;> omega

theorem right_zero {x : Fix} (hx : x.Valid) {v : Nat} (hv : v < 0x100 ^ x.width) : x.right 0 v = v := by
  cases x with
  | highlow => simpa [right, u32, width] using hv
  | high => simpa [right, width] using hv
  | low => simpa [right, width] using hv
  | highadj addend =>
    simp only [Valid] at hx
    simp only [width] at hv
    simp only [right, signed16]
    split <;> omega

end Fix

namespace Fixup

/-- The word of the fixup is in an image of `size` bytes. -/
def Inside (size : Nat) (x : Fixup) : Prop := x.rva + x.fix.width ≤ size

instance (size : Nat) (x : Fixup) : Decidable (x.Inside size) := inferInstanceAs (Decidable (_ ≤ _))

def place (x : Fixup) : Place := ⟨x.rva, x.fix.width⟩

/-- The word of the fixup. -/
def word (v : Mem) (x : Fixup) : Nat :=
  match x.fix with
  | .highlow => v.rd32 x.rva
  | _ => v.rd16 x.rva

def setWord (v : Mem) (x : Fixup) (n : Nat) : Mem :=
  match x.fix with
  | .highlow => v.wr32 x.rva n
  | _ => v.wr16 x.rva n

/-- The fixup made in an image, if its word is there. -/
def apply (size delta : Nat) (x : Fixup) (v : Mem) : Mem :=
  if x.Inside size then x.setWord v (x.fix.moved delta (x.word v)) else v

variable {v v' : Mem} {x : Fixup} {i n : Nat}

theorem setWord_outside (h : ¬ x.place.Has i) : x.setWord v n i = v i := by
  have hout : i < x.rva ∨ x.rva + x.fix.width ≤ i := by
    simp only [place, Place.Has] at h
    omega
  obtain ⟨fix, rva⟩ := x
  cases fix with
  | highlow => exact Mem.wr32_outside hout
  | high => exact Mem.wr16_outside hout
  | low => exact Mem.wr16_outside hout
  | highadj addend => exact Mem.wr16_outside hout

theorem setWord_inside (h : x.place.Has i) : x.setWord v n i = x.setWord v' n i := by
  obtain ⟨fix, rva⟩ := x
  cases fix with
  | highlow => exact Mem.wr32_inside h.1 h.2
  | high => exact Mem.wr16_inside h.1 h.2
  | low => exact Mem.wr16_inside h.1 h.2
  | highadj addend => exact Mem.wr16_inside h.1 h.2

theorem word_congr (h : ∀ i, x.place.Has i → v i = v' i) : x.word v = x.word v' := by
  obtain ⟨fix, rva⟩ := x
  cases fix with
  | highlow => exact Mem.rd32_congr fun i h₁ h₂ => h i ⟨h₁, h₂⟩
  | high => exact Mem.rd16_congr fun i h₁ h₂ => h i ⟨h₁, h₂⟩
  | low => exact Mem.rd16_congr fun i h₁ h₂ => h i ⟨h₁, h₂⟩
  | highadj addend => exact Mem.rd16_congr fun i h₁ h₂ => h i ⟨h₁, h₂⟩

theorem word_lt (v : Mem) (x : Fixup) : x.word v < 0x100 ^ x.fix.width := by
  obtain ⟨fix, rva⟩ := x
  cases fix with
  | highlow => exact Mem.rd32_lt v rva
  | high => exact Mem.rd16_lt v rva
  | low => exact Mem.rd16_lt v rva
  | highadj addend => exact Mem.rd16_lt v rva

theorem word_setWord (v : Mem) (x : Fixup) (n : Nat) : x.word (x.setWord v n) = n % 0x100 ^ x.fix.width := by
  obtain ⟨fix, rva⟩ := x
  cases fix with
  | highlow => exact Mem.rd32_wr32 v rva n
  | high => exact Mem.rd16_wr16 v rva n
  | low => exact Mem.rd16_wr16 v rva n
  | highadj addend => exact Mem.rd16_wr16 v rva n

theorem moved_lt (delta : Nat) (x : Fixup) (n : Nat) : x.fix.moved delta n < 0x100 ^ x.fix.width := by
  obtain ⟨fix, rva⟩ := x
  cases fix <;> simp only [Fix.moved, Fix.width, u32] <;> omega

theorem local_apply (size delta : Nat) : Patches.Local place (apply size delta) where
  outside x m i hi := by
    unfold apply
    split
    · exact setWord_outside hi
    · rfl
  inside x m m' h i hi := by
    unfold apply
    split
    · rw [word_congr h]
      exact setWord_inside hi
    · exact h i hi

end Fixup

/-! ## The table -/

/-- A block of the table: where it is, and its `SizeOfBlock`. -/
structure Block where
  pos : Nat
  size : Nat
  deriving DecidableEq, Repr

/-- How many entries it has. -/
def Block.entries (b : Block) : Nat := (b.size - BASE_RELOC_BLOCK_BYTES) / 2

/-- Its header and its entries. -/
def Block.place (b : Block) : Place := ⟨b.pos, BASE_RELOC_BLOCK_BYTES + b.entries * 2⟩

section Table

variable (v : Mem)

/-- Entry `i` of a block, and the index of the next one. -/
def fixupAt (b : Block) (i : Nat) : Option Fixup × Nat :=
  let e := v.rd16 (b.pos + 8 + 2 * i)
  let rva := u32 (v.rd32 b.pos + e % 0x1000)
  if e / 0x1000 = IMAGE_REL_BASED_HIGHLOW then (some ⟨.highlow, rva⟩, i + 1)
  else if e / 0x1000 = IMAGE_REL_BASED_HIGH then (some ⟨.high, rva⟩, i + 1)
  else if e / 0x1000 = IMAGE_REL_BASED_LOW then (some ⟨.low, rva⟩, i + 1)
  else if e / 0x1000 = IMAGE_REL_BASED_HIGHADJ then
    if b.entries ≤ i + 1 then (none, i + 1)
    else (some ⟨.highadj (v.rd16 (b.pos + 8 + 2 * (i + 1))), rva⟩, i + 2)
  else (none, i + 1)

/-- The fixups of a block from entry `i` on; `n` is at least as many as there
are to go. -/
def fixupsFrom (b : Block) : (n i : Nat) → List Fixup
  | 0, _ => []
  | n + 1, i => if b.entries ≤ i then [] else (fixupAt v b i).1.toList ++ fixupsFrom b n (fixupAt v b i).2

def blockFixups (b : Block) : List Fixup := fixupsFrom v b b.entries 0

/-- The blocks from `pos` on: one whose header is in the directory, which ends
at `stop`, and whose entries are in the image. -/
def tableBlocks (size stop : Nat) : (n pos : Nat) → List Block
  | 0, _ => []
  | n + 1, pos =>
    let b : Block := ⟨pos, v.rd32 (pos + 4)⟩
    if stop < pos + BASE_RELOC_BLOCK_BYTES ∨ b.size < BASE_RELOC_BLOCK_BYTES ∨
        size < pos + BASE_RELOC_BLOCK_BYTES + b.entries * 2 then []
    else b :: tableBlocks size stop n (pos + b.size)

end Table

variable {v v' : Mem} {b : Block} {size stop : Nat}

theorem fixupAt_valid {i : Nat} {x : Fixup} (h : x ∈ (fixupAt v b i).1) : x.fix.Valid := by
  unfold fixupAt at h
  simp only at h
  split_ifs at h <;> simp at h <;> subst h
  · trivial
  · trivial
  · trivial
  · exact Mem.rd16_lt _ _

theorem fixupAt_congr (h : ∀ i, b.place.Has i → v i = v' i) {i : Nat} (hi : i < b.entries) :
    fixupAt v b i = fixupAt v' b i := by
  have hat : ∀ j < b.entries, v.rd16 (b.pos + 8 + 2 * j) = v'.rd16 (b.pos + 8 + 2 * j) := by
    intro j hj
    refine Mem.rd16_congr fun k h₁ h₂ => h k ?_
    simp only [Place.Has, Block.place, BASE_RELOC_BLOCK_BYTES]
    omega
  have hbase : v.rd32 b.pos = v'.rd32 b.pos := by
    refine Mem.rd32_congr fun k h₁ h₂ => h k ?_
    simp only [Place.Has, Block.place, BASE_RELOC_BLOCK_BYTES]
    omega
  unfold fixupAt
  simp only [hat i hi, hbase]
  split_ifs
  · rfl
  · rfl
  · rfl
  · rfl
  · rw [hat (i + 1) (by omega)]
  · rfl

theorem fixupsFrom_congr (h : ∀ i, b.place.Has i → v i = v' i) (n i : Nat) :
    fixupsFrom v b n i = fixupsFrom v' b n i := by
  induction n generalizing i with
  | zero => rfl
  | succ n ih =>
    rw [fixupsFrom, fixupsFrom]
    split
    · rfl
    · rw [fixupAt_congr h (by omega), ih]

theorem fixupsFrom_valid (v : Mem) (b : Block) (n i : Nat) : ∀ x ∈ fixupsFrom v b n i, x.fix.Valid := by
  induction n generalizing i with
  | zero => simp [fixupsFrom]
  | succ n ih =>
    intro x hx
    rw [fixupsFrom] at hx
    split at hx
    · cases hx
    · rcases List.mem_append.1 hx with hx | hx
      · exact fixupAt_valid (Option.mem_toList.1 hx)
      · exact ih _ x hx

theorem tableBlocks_congr {pos : Nat} (n : Nat) (h : ∀ i, pos ≤ i → i < stop → v i = v' i) :
    tableBlocks v size stop n pos = tableBlocks v' size stop n pos := by
  induction n generalizing pos with
  | zero => rfl
  | succ n ih =>
    rw [tableBlocks, tableBlocks]
    by_cases hstop : stop < pos + BASE_RELOC_BLOCK_BYTES
    · simp [hstop]
    · have hsize : v.rd32 (pos + 4) = v'.rd32 (pos + 4) :=
        Mem.rd32_congr fun i h₁ h₂ => h i (by omega) (by simp only [BASE_RELOC_BLOCK_BYTES] at hstop; omega)
      simp only [hsize]
      split
      · rfl
      · rw [ih fun i h₁ h₂ => h i (by omega) h₂]

/-! ## The walk -/

/-- The image by its RVAs. -/
def Image.view (img : Image) (m : Machine) : Mem := m.mem.shift img.base

/-- The fixups of a list, made one after another. -/
def Image.fixAll (img : Image) (l : List Fixup) (v : Mem) : Mem :=
  Patches.apply (Fixup.apply img.size img.relocDelta) l v

section Walk

variable {img : Image} {m : Machine}

theorem fixAll_keeps {l : List Fixup} {i : Nat} (h : ∀ x ∈ l, x.Inside img.size → ¬ x.place.Has i) (v : Mem) :
    img.fixAll l v i = v i := by
  induction l generalizing v with
  | nil => rfl
  | cons x l ih =>
    refine (ih (fun y hy => h y (List.mem_cons_of_mem x hy)) _).trans ?_
    show (if x.Inside img.size then _ else v) i = v i
    split
    · exact Fixup.setWord_outside (h x (List.mem_cons_self ..) ‹_›)
    · rfl

theorem relocEntry_eq (h : Placed img m) {i : Nat} (hb : b.pos + 8 + b.entries * 2 ≤ img.size) (hi : i < b.entries) :
    ∃ m', relocEntry img (img.base + b.pos) (img.base + (b.pos + 8)) b.entries i m =
        .ok ((fixupAt (img.view m) b i).2, m') ∧
      img.view m' = img.fixAll (fixupAt (img.view m) b i).1.toList (img.view m) ∧ Kept img img m m' := by
  have same : Kept img img m m := .refl img m
  -- Where the word of an entry is, and how it is read and written there.
  have hnone : ∀ {rva need : Nat}, ¬ rva + need ≤ img.size → imgPtr img rva need = none :=
    fun hn => if_pos (by omega)
  have hsome : ∀ {rva need : Nat}, rva + need ≤ img.size → imgPtr img rva need = some (img.base + rva) :=
    fun hin => (if_neg (by omega)).trans (by rw [h.addr (by omega)])
  have hold : ∀ {rva need : Nat}, rva + need ≤ img.size → m.Holds (img.base + rva) need :=
    fun hin => h.within (by omega) (by omega)
  have hent : ∀ j < b.entries, m.get16 (img.base + (b.pos + 8) + 2 * j) =
      .ok ((img.view m).rd16 (b.pos + 8 + 2 * j)) := by
    intro j hj
    rw [Image.view, Mem.rd16_shift, Nat.add_assoc img.base]
    exact Machine.get16_eq (hold (show b.pos + 8 + 2 * j + 2 ≤ _ by omega))
  have hblk : m.get32 (img.base + b.pos) = .ok ((img.view m).rd32 b.pos) :=
    Machine.get32_eq (hold (show b.pos + 4 ≤ _ by omega))
  unfold relocEntry fixupAt
  simp only [hent i hi, hblk, bind, Except.bind]
  generalize u32 ((img.view m).rd32 b.pos + (img.view m).rd16 (b.pos + 8 + 2 * i) % 0x1000) = rva
  split
  case isTrue =>
    by_cases hin : rva + 4 ≤ img.size
    · let word := u32 (m.mem.rd32 (img.base + rva) + img.relocDelta)
      refine ⟨{ m with mem := m.mem.wr32 (img.base + rva) word }, ?_, ?_, ⟨rfl, rfl, rfl⟩⟩
      · simp only [hsome hin, Machine.get32_eq (hold hin), Machine.set32_eq (hold hin)]
        rfl
      · exact (Mem.shift_wr32 ..).trans (if_pos hin).symm
    · refine ⟨m, ?_, (if_neg hin).symm, same⟩
      simp only [hnone hin]
  case isFalse =>
  split
  case isTrue =>
    by_cases hin : rva + 2 ≤ img.size
    · let word := (m.mem.rd16 (img.base + rva) + img.relocDelta / 0x10000) % 0x10000
      refine ⟨{ m with mem := m.mem.wr16 (img.base + rva) word }, ?_, ?_, ⟨rfl, rfl, rfl⟩⟩
      · simp only [hsome hin, Machine.get16_eq (hold hin), Machine.set16_eq (hold hin)]
        rfl
      · exact (Mem.shift_wr16 ..).trans (if_pos hin).symm
    · refine ⟨m, ?_, (if_neg hin).symm, same⟩
      simp only [hnone hin]
  case isFalse =>
  split
  case isTrue =>
    by_cases hin : rva + 2 ≤ img.size
    · let word := (m.mem.rd16 (img.base + rva) + img.relocDelta % 0x10000) % 0x10000
      refine ⟨{ m with mem := m.mem.wr16 (img.base + rva) word }, ?_, ?_, ⟨rfl, rfl, rfl⟩⟩
      · simp only [hsome hin, Machine.get16_eq (hold hin), Machine.set16_eq (hold hin)]
        rfl
      · exact (Mem.shift_wr16 ..).trans (if_pos hin).symm
    · refine ⟨m, ?_, (if_neg hin).symm, same⟩
      simp only [hnone hin]
  case isFalse =>
  split
  case isFalse => exact ⟨m, rfl, rfl, same⟩
  case isTrue =>
  split
  case isTrue => exact ⟨m, rfl, rfl, same⟩
  case isFalse hnext =>
    by_cases hin : rva + 2 ≤ img.size
    · let addend := (img.view m).rd16 (b.pos + 8 + 2 * (i + 1))
      let word := u32 (u32 (m.mem.rd16 (img.base + rva) * 0x10000 + addend + img.relocDelta) + 0x8000) / 0x10000
      refine ⟨{ m with mem := m.mem.wr16 (img.base + rva) word }, ?_, ?_, ⟨rfl, rfl, rfl⟩⟩
      · simp only [hsome hin, Machine.get16_eq (hold hin), Machine.set16_eq (hold hin), hent (i + 1) (by omega)]
        rfl
      · exact (Mem.shift_wr16 ..).trans (if_pos hin).symm
    · refine ⟨m, ?_, (if_neg hin).symm, same⟩
      simp only [hnone hin]

theorem relocEntries_eq (h : Placed img m) (hb : b.pos + 8 + b.entries * 2 ≤ img.size) (n i : Nat)
    (hoff : ∀ x ∈ fixupsFrom (img.view m) b n i, x.Inside img.size → ∀ j, b.place.Has j → ¬ x.place.Has j) :
    ∃ m', relocEntries img (img.base + b.pos) (img.base + (b.pos + 8)) b.entries n i m = .ok m' ∧
      img.view m' = img.fixAll (fixupsFrom (img.view m) b n i) (img.view m) ∧ Kept img img m m' := by
  induction n generalizing i m with
  | zero => exact ⟨m, rfl, rfl, .refl img m⟩
  | succ n ih =>
    rw [fixupsFrom] at hoff ⊢
    rw [relocEntries]
    by_cases hi : i < b.entries
    · rw [if_neg (by omega)] at hoff ⊢
      rw [if_neg (by omega)]
      obtain ⟨m₁, hm₁, hview, hkept⟩ := relocEntry_eq h hb hi
      have hsame : ∀ j, b.place.Has j → img.view m₁ j = img.view m j := by
        intro j hj
        rw [hview]
        exact fixAll_keeps (fun x hx hin => hoff x (List.mem_append_left _ hx) hin j hj) _
      have hrest := fixupsFrom_congr hsame n (fixupAt (img.view m) b i).2
      obtain ⟨m₂, hm₂, hview₂, hkept₂⟩ := ih (h.kept hkept) (fixupAt (img.view m) b i).2 (by
        rw [hrest]
        exact fun x hx => hoff x (List.mem_append_right _ hx))
      refine ⟨m₂, ?_, ?_, hkept.trans hkept₂⟩
      · simp only [hm₁, bind, Except.bind]
        exact hm₂
      · rw [hview₂, hrest, hview]
        exact (Patches.apply_append ..).symm
    · rw [if_pos (by omega)] at hoff ⊢
      rw [if_pos (by omega)]
      exact ⟨m, rfl, rfl, .refl img m⟩

/-- The byte is one of the directory from `pos` on, or of a block. -/
def OnTable (pos stop : Nat) (bs : List Block) (i : Nat) : Prop :=
  (pos ≤ i ∧ i < stop) ∨ ∃ b ∈ bs, b.place.Has i

/-- The blocks that the loader comes to: those before the first one without
entries. -/
def reached (bs : List Block) : List Block := bs.takeWhile (BASE_RELOC_BLOCK_BYTES < ·.size)

theorem relocBlocks_head (h : Placed img m) (hstop : stop ≤ img.size) {pos : Nat} (hin : pos + 8 ≤ stop) (fuel : Nat) :
    relocBlocks img stop (fuel + 1) pos m =
      if (img.view m).rd32 (pos + 4) ≤ 8 then .ok m
      else
        match imgPtr img (u32 (pos + 8)) (((img.view m).rd32 (pos + 4) - 8) / 2 * 2) with
        | none => .ok m
        | some ent => (do
          let m ← relocEntries img (img.base + pos) ent (((img.view m).rd32 (pos + 4) - 8) / 2)
            (((img.view m).rd32 (pos + 4) - 8) / 2) 0 m
          let sizeOfBlock ← m.get32 (img.base + pos + 4)
          relocBlocks img stop fuel (u32 (pos + sizeOfBlock)) m) := by
  have hptr : imgPtr img pos 8 = some (img.base + pos) := (if_neg (by omega)).trans (by rw [h.addr (by omega)])
  rw [relocBlocks, if_pos hin, hptr]
  dsimp only
  rw [Machine.get32_eq (h.within (by omega) (by omega))]
  rfl

/-- No fixup is on the table: the walk is along the blocks as they were. -/
theorem relocBlocks_eq (h : Placed img m) (hstop : stop ≤ img.size) {n pos : Nat} (hn : stop < pos + n)
    (hoff : ∀ x ∈ (reached (tableBlocks (img.view m) img.size stop n pos)).flatMap (blockFixups (img.view m)),
      x.Inside img.size → ∀ i, OnTable pos stop (tableBlocks (img.view m) img.size stop n pos) i → ¬ x.place.Has i) :
    ∃ m', (∀ fuel, n < fuel → relocBlocks img stop fuel pos m = .ok m') ∧
      img.view m' = img.fixAll ((reached (tableBlocks (img.view m) img.size stop n pos)).flatMap
        (blockFixups (img.view m))) (img.view m) ∧ Kept img img m m' := by
  have hbelow : img.base + img.size ≤ PE_MAX_LOAD_ADDR := h.below
  simp only [PE_MAX_LOAD_ADDR] at hbelow
  -- With one unit of fuel for the round, what is left of it is enough for the rest.
  have hround : ∀ {n pos : Nat} {m m' : Machine}, (∀ fuel, n ≤ fuel → relocBlocks img stop (fuel + 1) pos m = .ok m') →
      ∀ fuel, n < fuel → relocBlocks img stop fuel pos m = .ok m' := by
    intro n pos m m' hall fuel hf
    obtain ⟨fuel, rfl⟩ : ∃ k, fuel = k + 1 := ⟨fuel - 1, by omega⟩
    exact hall fuel (by omega)
  induction n generalizing pos m with
  | zero =>
    refine ⟨m, hround fun fuel _ => ?_, rfl, .refl img m⟩
    rw [relocBlocks]
    exact if_neg (by simp only [BASE_RELOC_BLOCK_BYTES]; omega)
  | succ n ih =>
    rw [tableBlocks] at hoff ⊢
    simp only [BASE_RELOC_BLOCK_BYTES] at hoff ⊢
    by_cases hin : pos + 8 ≤ stop
    case neg =>
      rw [if_pos (.inl (by omega))]
      refine ⟨m, hround fun fuel _ => ?_, rfl, .refl img m⟩
      rw [relocBlocks]
      exact if_neg hin
    case pos =>
    have hptr : ∀ {rva need : Nat}, rva + need ≤ img.size → imgPtr img rva need = some (img.base + rva) :=
      fun hin => (if_neg (by omega)).trans (by rw [h.addr (by omega)])
    have hread : ∀ {m : Machine}, Placed img m → m.get32 (img.base + pos + 4) = .ok ((img.view m).rd32 (pos + 4)) :=
      fun h => Machine.get32_eq (h.within (by omega) (by omega))
    have hhead := relocBlocks_head h hstop hin
    generalize hS : (img.view m).rd32 (pos + 4) = S at hoff hhead ⊢
    by_cases hsmall : S ≤ 8
    · -- No entries: the loader stops, and so does `reached`.
      refine ⟨m, hround fun fuel _ => (hhead fuel).trans (if_pos hsmall), ?_, .refl img m⟩
      split
      · rfl
      · rw [reached, List.takeWhile_cons, if_neg (by simpa using hsmall)]
        rfl
    rw [u32_of_lt (show pos + 8 < _ by omega)] at hhead
    by_cases hfit : pos + 8 + Block.entries ⟨pos, S⟩ * 2 ≤ img.size
    case neg =>
      rw [if_pos (by omega)]
      refine ⟨m, hround fun fuel _ => ?_, rfl, .refl img m⟩
      rw [hhead, if_neg hsmall, show imgPtr img (pos + 8) ((S - 8) / 2 * 2) = none from
        if_pos (by simp only [Block.entries, BASE_RELOC_BLOCK_BYTES] at hfit; omega)]
    case pos =>
    have hentries : Block.entries ⟨pos, S⟩ = (S - 8) / 2 := rfl
    rw [if_neg (by omega)] at hoff ⊢
    rw [reached, List.takeWhile_cons, if_pos (by simpa using Nat.not_le.1 hsmall)] at hoff ⊢
    set b : Block := ⟨pos, S⟩
    obtain ⟨m₁, hm₁, hview, hkept⟩ := relocEntries_eq h (b := b) hfit b.entries 0 fun x hx hxin j hj =>
      hoff x (List.mem_append_left _ hx) hxin j (.inr ⟨b, List.mem_cons_self .., hj⟩)
    have hm₁' : relocEntries img (img.base + pos) (img.base + (pos + 8)) ((S - 8) / 2) ((S - 8) / 2) 0 m = .ok m₁ := hm₁
    -- The first block leaves the table as it was.
    have hsame : ∀ i, OnTable pos stop (b :: tableBlocks (img.view m) img.size stop n (pos + b.size)) i →
        img.view m₁ i = img.view m i := by
      intro i hi
      rw [hview]
      exact fixAll_keeps (fun x hx hxin => hoff x (List.mem_append_left _ hx) hxin i hi) _
    have hS' : (img.view m₁).rd32 (pos + 4) = S := by
      rw [← hS]
      exact Mem.rd32_congr fun i h₁ h₂ => hsame i (.inl ⟨by omega, by omega⟩)
    have hblocks : tableBlocks (img.view m₁) img.size stop n (pos + b.size) =
        tableBlocks (img.view m) img.size stop n (pos + b.size) :=
      tableBlocks_congr n fun i h₁ h₂ => hsame i (.inl ⟨by omega, h₂⟩)
    have hfixups : ∀ c ∈ tableBlocks (img.view m) img.size stop n (pos + b.size),
        blockFixups (img.view m₁) c = blockFixups (img.view m) c := fun c hc =>
      fixupsFrom_congr (fun i hi => hsame i (.inr ⟨c, List.mem_cons_of_mem b hc, hi⟩)) _ _
    have hflat : (reached (tableBlocks (img.view m) img.size stop n (pos + b.size))).flatMap
        (blockFixups (img.view m₁)) = (reached (tableBlocks (img.view m) img.size stop n (pos + b.size))).flatMap
        (blockFixups (img.view m)) :=
      List.flatMap_congr fun c hc => hfixups c ((List.takeWhile_sublist _).subset hc)
    obtain ⟨m₂, hm₂, hview₂, hkept₂⟩ := ih (h.kept hkept)
      (show stop < pos + b.size + n from (show stop < pos + S + n by omega)) (by
        rw [hblocks, hflat]
        intro x hx hxin i hi
        refine hoff x (List.mem_append_right _ hx) hxin i ?_
        rcases hi with ⟨h₁, h₂⟩ | ⟨c, hc, hi⟩
        · exact .inl ⟨by omega, h₂⟩
        · exact .inr ⟨c, List.mem_cons_of_mem b hc, hi⟩)
    refine ⟨m₂, hround fun fuel hf => ?_, ?_, hkept.trans hkept₂⟩
    · rw [hhead, if_neg hsmall, hptr (show pos + 8 + (S - 8) / 2 * 2 ≤ img.size by omega)]
      simp only [hm₁', hread (h.kept hkept), hS', bind, Except.bind]
      rw [u32_of_lt (show pos + S < _ by omega)]
      exact hm₂ fuel (by omega)
    · rw [hview₂, hblocks, hflat, hview]
      exact (Patches.apply_append ..).symm

end Walk

end NovarisOS.Pe
