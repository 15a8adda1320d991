/-
NovarisOS.Pmm64.InitTheorems — the frames that `pmm64_init` leaves free.

`init_free` reads the bitmap back frame by frame: a frame is free that some
range of the map covers, rounded down at both ends, and that nothing reserved
afterwards. A range that ends inside a frame thus keeps that frame back, and
a range that begins inside a frame gives it out whole. §3 says for which maps
this does no harm.
-/
import Mathlib.Data.List.Fold
import Mathlib.Order.CompletePartialOrder
import Mathlib.Order.Interval.Set.Disjoint
import NovarisOS.Pmm64.FramesTheorems

namespace NovarisOS.Pmm64

namespace Pmm

/-! ## §1 The bitmap after each pass -/

variable {n : Nat} {p : Pmm}

theorem freeRegion_free (hp : Filling n p) (start stop g : Nat) :
    (p.freeRegion start stop).bitmapTest g = false ↔
      p.bitmapTest g = false ∨
        g < n ∧ start / PMM64_FRAME_SIZE ≤ g ∧ g < stop / PMM64_FRAME_SIZE := by
  have hmark := (markRange_spec false (stop / PMM64_FRAME_SIZE - start / PMM64_FRAME_SIZE) p
    (start / PMM64_FRAME_SIZE) hp.booting).2.2.2.2 g
  have hram : ∀ (q : Pmm) (m : Nat),
      (q.markRam (start / PMM64_FRAME_SIZE) m).bitmapTest g = q.bitmapTest g := by
    intro q m
    obtain ⟨ram, hram, -⟩ := markRam_spec m q (start / PMM64_FRAME_SIZE)
    rw [hram]
    rfl
  rw [freeRegion]
  simp only [hram]
  rw [hp.frameCount] at hmark
  split
  · rw [hmark]
    split
    · simp
      omega
    · rename_i hout
      exact ⟨.inl, fun h => h.resolve_right (by omega)⟩
  · exact ⟨.inl, fun h => h.resolve_right (by omega)⟩

theorem freeRegions_free (rs : List (Nat × Nat)) (g : Nat) : ∀ p : Pmm, Filling n p →
    Filling n (rs.foldl (fun p r => p.freeRegion r.1 r.2) p) ∧
    ((rs.foldl (fun p r => p.freeRegion r.1 r.2) p).bitmapTest g = false ↔
      p.bitmapTest g = false ∨
        g < n ∧ ∃ r ∈ rs, r.1 / PMM64_FRAME_SIZE ≤ g ∧ g < r.2 / PMM64_FRAME_SIZE) := by
  induction rs with
  | nil => intro p hp; simpa using hp
  | cons r rs ih =>
    intro p hp
    obtain ⟨hfill, htest⟩ := ih _ (hp.freeRegion r.1 r.2)
    refine ⟨hfill, ?_⟩
    rw [List.foldl_cons, htest, freeRegion_free hp]
    simp only [List.mem_cons, exists_eq_or_imp]
    tauto

theorem markUsed_free (hp : Filling n p) (f m g : Nat) :
    (p.markRange f m true).bitmapTest g = false ↔
      p.bitmapTest g = false ∧ ¬ (f ≤ g ∧ g < f + m) := by
  rw [(markRange_spec true m p f hp.booting).2.2.2.2 g, hp.frameCount]
  have hbeyond := hp.beyond g
  split
  · rename_i hin
    exact ⟨fun h => (by cases h), fun h => absurd ⟨hin.1, hin.2.1⟩ h.2⟩
  · rename_i hout
    refine ⟨fun h => ⟨h, fun hin => ?_⟩, And.left⟩
    rw [hbeyond (by omega)] at h
    cases h

theorem reserveRegion_free (hp : Filling n p) (startAddr endAddr g : Nat) :
    (p.reserveRegion startAddr endAddr).bitmapTest g = false ↔
      p.bitmapTest g = false ∧ ¬ (startAddr / PMM64_FRAME_SIZE ≤ g ∧
        g < wrap (endAddr + PMM64_FRAME_SIZE - 1) / PMM64_FRAME_SIZE) := by
  rw [reserveRegion]
  generalize wrap (endAddr + PMM64_FRAME_SIZE - 1) / PMM64_FRAME_SIZE = ef
  split
  · rw [markUsed_free hp, Nat.add_sub_cancel' (by omega)]
  · exact ⟨fun h => ⟨h, by omega⟩, And.left⟩

end Pmm

/-- The frames that the tables describe. -/
def Multiboot.frames (mbi : Multiboot) : Nat :=
  wrap (mbi.highestAddr + PMM64_FRAME_SIZE - 1) / PMM64_FRAME_SIZE

/-- The bytes that the three tables take up, for so many frames. -/
def tableBytes (n : Nat) : Nat := (n + 7) / 8 + n + (n + 7) / 8

/-- One past the last table. -/
def Multiboot.tablesEnd (mbi : Multiboot) (kernelEnd : Nat) : Nat :=
  wrap (mbi.place kernelEnd + tableBytes mbi.frames)

namespace Pmm

variable {mbi : Multiboot} {kernelStart kernelEnd : Nat}

theorem init_ready (h : (init mbi kernelStart kernelEnd).ready = true) :
    mbi.tablesEnd kernelEnd ≤ BOOT_WINDOW_BYTES ∧
    init mbi kernelStart kernelEnd =
      { ((((mbi.available.foldl (fun p r => p.freeRegion r.1 r.2) (fullTables mbi.frames)).markRange 0
          (0x100000 / PMM64_FRAME_SIZE) true).reserveRegion kernelStart kernelEnd).reserveRegion
          (mbi.place kernelEnd) (mbi.tablesEnd kernelEnd)) with ready := true } := by
  have hend : mbi.place kernelEnd + (mbi.frames + 7) / 8 + mbi.frames + (mbi.frames + 7) / 8 =
      mbi.place kernelEnd + tableBytes mbi.frames := by
    rw [tableBytes]
    omega
  unfold init at h ⊢
  simp only [← Multiboot.frames.eq_def, hend, ← Multiboot.tablesEnd.eq_def] at h ⊢
  split at h
  · cases h
  rename_i hsome
  split at h
  · cases h
  rename_i hfits
  rw [if_neg hsome, if_neg hfits]
  exact ⟨Nat.not_lt.mp hfits, rfl⟩

theorem init_free (h : (init mbi kernelStart kernelEnd).ready = true) :
    (init mbi kernelStart kernelEnd).frameCount = mbi.frames ∧
    ∀ g, (init mbi kernelStart kernelEnd).bitmapTest g = false ↔
      (((g < mbi.frames ∧ ∃ r ∈ mbi.available,
        r.1 / PMM64_FRAME_SIZE ≤ g ∧ g < r.2 / PMM64_FRAME_SIZE) ∧ ¬ g < 256) ∧
      ¬ (kernelStart / PMM64_FRAME_SIZE ≤ g ∧
        g < wrap (kernelEnd + PMM64_FRAME_SIZE - 1) / PMM64_FRAME_SIZE)) ∧
      ¬ (mbi.place kernelEnd / PMM64_FRAME_SIZE ≤ g ∧
        g < wrap (mbi.tablesEnd kernelEnd + PMM64_FRAME_SIZE - 1) / PMM64_FRAME_SIZE) := by
  obtain ⟨-, heq⟩ := init_ready h
  have havail := fun g => freeRegions_free mbi.available g _ (Filling.full mbi.frames)
  have hmeg := (havail 0).1.markUsed 0 (0x100000 / PMM64_FRAME_SIZE)
  have hkernel := hmeg.reserveRegion kernelStart kernelEnd
  have hlast := hkernel.reserveRegion (mbi.place kernelEnd) (mbi.tablesEnd kernelEnd)
  rw [heq]
  refine ⟨hlast.frameCount, fun g => ?_⟩
  refine (reserveRegion_free hkernel _ _ g).trans (and_congr_left' ?_)
  refine (reserveRegion_free hmeg _ _ g).trans (and_congr_left' ?_)
  refine (markUsed_free (havail g).1 _ _ g).trans (and_congr ?_ ?_)
  · rw [(havail g).2, fullTables_test]
    simp
  · have hmeg : 0x100000 / PMM64_FRAME_SIZE = 256 := rfl
    omega

end Pmm

/-! ## §2 The ranges of the map, and the tables -/

/-- The ranges of memory that the map vouches for. -/
def Multiboot.usable (mbi : Multiboot) : List (Nat × Nat) :=
  match mbi.mmap with
  | none => [(0, mbi.memLower * 1024), (0x100000, 0x100000 + mbi.memUpper * 1024)]
  | some entries =>
    (entries.filter fun e => e.type = MULTIBOOT_MEMORY_AVAILABLE && e.len > 0).map
      fun e => (e.addr, e.addr + e.len)

/-- The fields have the widths of their C types. -/
structure Multiboot.Typed (mbi : Multiboot) : Prop where
  memLower : mbi.memLower < 4294967296
  memUpper : mbi.memUpper < 4294967296
  entry : ∀ e ∈ mbi.mmap.getD [], e.addr < 18446744073709551616 ∧ e.len < 18446744073709551616
  mod : ∀ e ∈ mbi.mods.getD [], e < 4294967296

theorem Multiboot.available_eq (mbi : Multiboot) :
    mbi.available = mbi.usable.map fun r => (r.1, wrap r.2) := by
  cases h : mbi.mmap with
  | none => simp [available, usable, h]
  | some entries => simp [available, usable, h]

theorem Multiboot.Typed.usable {mbi : Multiboot} (h : mbi.Typed) {r : Nat × Nat} (hr : r ∈ mbi.usable) :
    r.1 < 18446744073709551616 ∧ r.2 < r.1 + 18446744073709551616 := by
  rw [Multiboot.usable] at hr
  have hlower := h.memLower
  have hupper := h.memUpper
  cases hm : mbi.mmap with
  | none =>
    simp only [hm, List.mem_cons, List.not_mem_nil, or_false] at hr
    rcases hr with rfl | rfl <;> simp only <;> omega
  | some entries =>
    simp only [hm, List.mem_map, List.mem_filter] at hr
    obtain ⟨e, ⟨he, -⟩, rfl⟩ := hr
    obtain ⟨haddr, hlen⟩ := h.entry e (by simpa [hm] using he)
    exact ⟨haddr, by simp only; omega⟩

theorem Multiboot.Typed.covered {mbi : Multiboot} (h : mbi.Typed) (g : Nat) :
    (∃ r ∈ mbi.available, r.1 / PMM64_FRAME_SIZE ≤ g ∧ g < r.2 / PMM64_FRAME_SIZE) ↔
      ∃ r ∈ mbi.usable, r.2 < 18446744073709551616 ∧
        r.1 / PMM64_FRAME_SIZE ≤ g ∧ (g + 1) * PMM64_FRAME_SIZE ≤ r.2 := by
  simp only [available_eq, List.mem_map, exists_exists_and_eq_and]
  refine exists_congr fun r => and_congr_right fun hr => ?_
  obtain ⟨hstart, hlen⟩ := h.usable hr
  simp only [wrap, PMM64_FRAME_SIZE]
  by_cases hfits : r.2 < 18446744073709551616
  · rw [Nat.mod_eq_of_lt hfits]
    omega
  · rw [Nat.mod_eq_sub_mod (by omega), Nat.mod_eq_of_lt (by omega)]
    omega

/-- The first frame boundary above the kernel and every module. -/
def Multiboot.firstAbove (mbi : Multiboot) (kernelEnd : Nat) : Nat :=
  (((mbi.mods.getD []).foldr max kernelEnd + 4095) / PMM64_FRAME_SIZE) * PMM64_FRAME_SIZE

/-- The highest address, of 64 bits, at which a range of the map ends. -/
def Multiboot.memoryEnd (mbi : Multiboot) : Nat :=
  (mbi.usable.map fun r => r.2 % 18446744073709551616).foldr max 0

theorem foldl_highest (l : List Nat) (n : Nat) :
    l.foldl (fun highest e => if e > highest then e else highest) n = l.foldr max n := by
  have hmax : (fun highest e : Nat => if e > highest then e else highest) = max := by
    funext highest e
    split <;> omega
  rw [hmax, List.foldl_eq_foldr]

theorem Multiboot.highestAddr_eq (mbi : Multiboot) : mbi.highestAddr = mbi.memoryEnd := by
  rw [memoryEnd, ← foldl_highest, highestAddr, available_eq, List.foldl_map, List.foldl_map]

/-- The bytes that the three tables of `p` take up, laid out from `place` on. -/
def Pmm.tables (p : Pmm) (place : Nat) : Set Nat := Set.Ico place (place + tableBytes p.frameCount)

theorem le_foldr_max {l : List Nat} {n e : Nat} (h : e ∈ l ∨ e = n) : e ≤ l.foldr max n := by
  induction l with
  | nil =>
    simp only [List.not_mem_nil, false_or] at h
    exact Nat.le_of_eq h
  | cons a l ih =>
    simp only [List.mem_cons, List.foldr_cons] at h ⊢
    rcases h with (rfl | h) | h
    · exact Nat.le_max_left _ _
    · exact Nat.le_trans (ih (.inl h)) (Nat.le_max_right _ _)
    · exact Nat.le_trans (ih (.inr h)) (Nat.le_max_right _ _)

theorem foldr_max_le {l : List Nat} {n bound : Nat} (hn : n ≤ bound) (hl : ∀ e ∈ l, e ≤ bound) :
    l.foldr max n ≤ bound := by
  induction l with
  | nil => exact hn
  | cons a l ih =>
    exact Nat.max_le.mpr ⟨hl a (by simp), ih fun e he => hl e (by simp [he])⟩

theorem Multiboot.memoryEnd_lt (mbi : Multiboot) : mbi.memoryEnd < 18446744073709551616 := by
  have hle : mbi.memoryEnd ≤ 18446744073709551615 := by
    refine foldr_max_le (Nat.zero_le _) fun e he => ?_
    obtain ⟨r, -, rfl⟩ := List.mem_map.mp he
    omega
  omega

theorem Multiboot.Typed.tables {mbi : Multiboot} (h : mbi.Typed) {kernelEnd : Nat}
    (hend : kernelEnd ≤ 0x80000000) :
    mbi.place kernelEnd = mbi.firstAbove kernelEnd ∧
    mbi.tablesEnd kernelEnd = mbi.firstAbove kernelEnd + tableBytes mbi.frames ∧
    kernelEnd ≤ mbi.firstAbove kernelEnd ∧
    (∀ e ∈ mbi.mods.getD [], e ≤ mbi.firstAbove kernelEnd) := by
  have htop : (mbi.mods.getD []).foldr max kernelEnd ≤ 4294967296 :=
    foldr_max_le (by omega) fun e he => Nat.le_of_lt (h.mod e he)
  have hplace : mbi.place kernelEnd = mbi.firstAbove kernelEnd := by
    rw [place, firstAbove, foldl_highest]
    simp only [wrap, PMM64_FRAME_SIZE]
    omega
  have hframes : mbi.frames < 18446744073709551616 / 4096 := by
    simp only [frames, wrap, PMM64_FRAME_SIZE]
    omega
  have habove : ∀ e, e ∈ mbi.mods.getD [] ∨ e = kernelEnd → e ≤ mbi.firstAbove kernelEnd := by
    intro e he
    have := le_foldr_max he
    simp only [firstAbove, PMM64_FRAME_SIZE]
    omega
  refine ⟨hplace, ?_, habove _ (.inr rfl), fun e he => habove e (.inl he)⟩
  rw [tablesEnd, hplace, wrap, Nat.mod_eq_of_lt]
  simp only [firstAbove, tableBytes, PMM64_FRAME_SIZE]
  omega

/-! ## §3 Whole frames of memory -/

/-- The bytes of a frame. -/
def frameBytes (f : Nat) : Set Nat := Set.Ico (f * PMM64_FRAME_SIZE) ((f + 1) * PMM64_FRAME_SIZE)

/-- What `pmm64_init` owes its callers: a frame that is free is memory from
its first byte to its last, and nobody else's; and the tables lie on nothing
that was loaded. -/
structure Pmm.Whole (p : Pmm) (mbi : Multiboot) (kernelStart kernelEnd : Nat) : Prop where
  inside : ∀ f < p.frameCount, p.bitmapTest f = false → ∃ r ∈ mbi.usable,
    frameBytes f ⊆ Set.Ico r.1 r.2
  above : ∀ f < p.frameCount, p.bitmapTest f = false → frameBytes f ⊆ Set.Ici 0x100000
  kernel : ∀ f < p.frameCount, p.bitmapTest f = false →
    Disjoint (frameBytes f) (Set.Ico kernelStart kernelEnd)
  tables : ∀ f < p.frameCount, p.bitmapTest f = false →
    Disjoint (frameBytes f) (p.tables (mbi.place kernelEnd))
  image : Disjoint (p.tables (mbi.place kernelEnd)) (Set.Ico kernelStart kernelEnd)
  modules : ∀ modEnd ∈ mbi.mods.getD [], ∀ modStart,
    Disjoint (p.tables (mbi.place kernelEnd)) (Set.Ico modStart modEnd)

/-- A frame that is kept back whatever the map says of it: it is below 1MB,
or the kernel or the tables reach into it. -/
def KeptBack (mbi : Multiboot) (kernelStart kernelEnd f : Nat) : Prop :=
  f * PMM64_FRAME_SIZE < 0x100000 ∨
  (kernelStart < (f + 1) * PMM64_FRAME_SIZE ∧ f * PMM64_FRAME_SIZE < kernelEnd) ∨
  (mbi.firstAbove kernelEnd < (f + 1) * PMM64_FRAME_SIZE ∧
    f * PMM64_FRAME_SIZE < mbi.firstAbove kernelEnd +
      tableBytes (wrap (mbi.memoryEnd + 4095) / PMM64_FRAME_SIZE))

/-- Where a range begins inside a frame and reaches its end, that frame is kept
back, or another range has it whole. -/
def HeadsCovered (mbi : Multiboot) (kernelStart kernelEnd : Nat) : Prop :=
  ∀ r ∈ mbi.usable, ¬ PMM64_FRAME_SIZE ∣ r.1 → r.2 < 18446744073709551616 →
    (r.1 / PMM64_FRAME_SIZE + 1) * PMM64_FRAME_SIZE ≤ r.2 → mbi.memoryEnd ≤ 18446744073709547520 →
    KeptBack mbi kernelStart kernelEnd (r.1 / PMM64_FRAME_SIZE) ∨
    ∃ r' ∈ mbi.usable, frameBytes (r.1 / PMM64_FRAME_SIZE) ⊆ Set.Ico r'.1 r'.2

variable {mbi : Multiboot} {kernelStart kernelEnd : Nat}

theorem Multiboot.Typed.free (h : mbi.Typed) (hend : kernelEnd ≤ 0x80000000)
    (hready : (Pmm.init mbi kernelStart kernelEnd).ready = true) (g : Nat) :
    (Pmm.init mbi kernelStart kernelEnd).bitmapTest g = false ↔
      (g < mbi.frames ∧ ∃ r ∈ mbi.usable, r.2 < 18446744073709551616 ∧
        r.1 / PMM64_FRAME_SIZE ≤ g ∧ (g + 1) * PMM64_FRAME_SIZE ≤ r.2) ∧
      ¬ KeptBack mbi kernelStart kernelEnd g := by
  obtain ⟨hplace, htables, -, -⟩ := h.tables hend
  rw [(Pmm.init_free hready).2 g, h.covered, and_assoc, and_assoc]
  refine and_congr_right fun _ => ?_
  have hfits := (Pmm.init_ready hready).1
  rw [htables] at hfits ⊢
  have hframes : wrap (mbi.memoryEnd + 4095) / PMM64_FRAME_SIZE = mbi.frames := by
    rw [frames, highestAddr_eq]
    rfl
  rw [KeptBack, hplace, hframes]
  generalize mbi.firstAbove kernelEnd = first at hfits ⊢
  generalize tableBytes mbi.frames = size at hfits ⊢
  simp only [wrap, PMM64_FRAME_SIZE, BOOT_WINDOW_BYTES] at hfits ⊢
  omega

/-- `pmm64_init` gives out whole frames of memory, and nothing that is in
use, if and only if no range of the map leaves the head of a frame to
somebody else. -/
theorem init_frees_whole_frames (h : mbi.Typed) (hend : kernelEnd ≤ 0x80000000)
    (hready : (Pmm.init mbi kernelStart kernelEnd).ready = true) :
    (Pmm.init mbi kernelStart kernelEnd).Whole mbi kernelStart kernelEnd ↔
      HeadsCovered mbi kernelStart kernelEnd := by
  obtain ⟨hplace, -, himage, hmods⟩ := h.tables hend
  have hcount := (Pmm.init_free hready).1
  have hframes : mbi.frames = wrap (mbi.memoryEnd + 4095) / PMM64_FRAME_SIZE := by
    rw [Multiboot.frames, Multiboot.highestAddr_eq]
    rfl
  constructor
  · intro hwhole r hr hhead hfits hreach hmemory
    by_cases hkept : KeptBack mbi kernelStart kernelEnd (r.1 / PMM64_FRAME_SIZE)
    · exact .inl hkept
    · have hlt : r.1 / PMM64_FRAME_SIZE < mbi.frames := by
        have htop : r.2 % 18446744073709551616 ≤ mbi.memoryEnd :=
          le_foldr_max (.inl (List.mem_map.mpr ⟨r, hr, rfl⟩))
        rw [hframes]
        simp only [wrap, PMM64_FRAME_SIZE] at hreach ⊢
        omega
      have hfree := (h.free hend hready _).mpr ⟨⟨hlt, r, hr, hfits, Nat.le_refl _, hreach⟩, hkept⟩
      exact .inr (hwhole.inside _ (by rwa [hcount]) hfree)
  · intro hheads
    have hfree := fun f => (h.free hend hready f).mp
    have hkept : ∀ f, (Pmm.init mbi kernelStart kernelEnd).bitmapTest f = false →
        ¬ KeptBack mbi kernelStart kernelEnd f := fun f hf => (hfree f hf).2
    refine ⟨fun f _ hf => ?_, fun f _ hf => ?_, fun f _ hf => ?_, fun f _ hf => ?_, ?_, ?_⟩
    · obtain ⟨⟨hlt, r, hr, hfits, hlow, hreach⟩, hnot⟩ := hfree f hf
      by_cases hstart : r.1 ≤ f * PMM64_FRAME_SIZE
      · exact ⟨r, hr, Set.Ico_subset_Ico hstart hreach⟩
      · -- the range begins inside the frame
        obtain rfl : r.1 / PMM64_FRAME_SIZE = f := by
          simp only [PMM64_FRAME_SIZE] at hlow hstart ⊢
          omega
        refine (hheads r hr ?_ hfits hreach ?_).resolve_left hnot
        · simp only [PMM64_FRAME_SIZE] at hstart ⊢
          omega
        · have htop : mbi.memoryEnd < 18446744073709551616 := mbi.memoryEnd_lt
          rw [hframes] at hlt
          simp only [wrap, PMM64_FRAME_SIZE] at hlt
          omega
    · have hnot := hkept f hf
      simp only [KeptBack, not_or] at hnot
      intro a ha
      exact Nat.le_trans (Nat.not_lt.mp hnot.1) ha.1
    · have hnot := hkept f hf
      simp only [KeptBack, not_or] at hnot
      rw [frameBytes, Set.Ico_disjoint_Ico]
      omega
    · have hnot := hkept f hf
      simp only [KeptBack, not_or, ← hframes] at hnot
      rw [frameBytes, Pmm.tables, hcount, hplace, Set.Ico_disjoint_Ico]
      omega
    · rw [Pmm.tables, hplace, Set.Ico_disjoint_Ico]
      omega
    · intro modEnd hmod modStart
      have := hmods modEnd hmod
      rw [Pmm.tables, hplace, Set.Ico_disjoint_Ico]
      omega

/-- Memory from 1MB on, the kernel in its second frame. -/
def alignedMachine : Multiboot where
  mmap := some [⟨0, 0x9FC00, MULTIBOOT_MEMORY_AVAILABLE⟩, ⟨0x100000, 0x10000, MULTIBOOT_MEMORY_AVAILABLE⟩]
  memLower := 0
  memUpper := 0
  mods := some [0x102800]

/-- The same, but the first half of that frame is firmware. -/
def raggedMachine : Multiboot where
  mmap := some [⟨0, 0x9FC00, MULTIBOOT_MEMORY_AVAILABLE⟩, ⟨0x100800, 0xF800, MULTIBOOT_MEMORY_AVAILABLE⟩]
  memLower := 0
  memUpper := 0
  mods := none

theorem alignedMachine_typed : alignedMachine.Typed where
  memLower := by decide
  memUpper := by decide
  entry := by decide
  mod := by decide

theorem init_frees_whole_frames_aligned :
    (Pmm.init alignedMachine 0x101000 0x102000).Whole alignedMachine 0x101000 0x102000 :=
  (init_frees_whole_frames alignedMachine_typed (by decide) (by decide)).mpr (by
    intro r hr hhead
    have hr : r = (0, 0x9FC00) ∨ r = (0x100000, 0x110000) := by simpa [Multiboot.usable, alignedMachine] using hr
    rcases hr with rfl | rfl
    · exact absurd (Nat.dvd_zero _) hhead
    · exact absurd (by decide) hhead)

set_option maxRecDepth 20000

/-- The frame at 1MB is given out with the firmware's half. -/
theorem init_frees_part_of_a_frame :
    (Pmm.init raggedMachine 0x101000 0x102000).ready = true ∧
    ¬ (Pmm.init raggedMachine 0x101000 0x102000).Whole raggedMachine 0x101000 0x102000 := by
  refine ⟨by decide, fun h => ?_⟩
  obtain ⟨r, hr, hsub⟩ := h.inside 256 (by decide) (by decide)
  have hfirst : 0x100000 ∈ Set.Ico r.1 r.2 := hsub ⟨by decide, by decide⟩
  have hr : r = (0, 0x9FC00) ∨ r = (0x100800, 0x110000) := by
    simpa [Multiboot.usable, raggedMachine] using hr
  obtain ⟨hlo, hhi⟩ := hfirst
  rcases hr with rfl | rfl
  · exact absurd hhi (by decide)
  · exact absurd hlo (by decide)

end NovarisOS.Pmm64
