/-
NovarisOS.Fat32.VolumeTheorems — the FAT behind the cache, and what the
chain operations do to it.

Two functions say all there is to know about a volume: `Fs.fat`, the entry
`fat_get` would return for a cluster, and `Fs.data`, the bytes of a cluster.
The cached sector, its dirty flag, the copies of the FAT and the memo of
`chain_nth` are not part of them.
-/
import NovarisOS.Fat32.Volume
import NovarisOS.Lib.Links

namespace NovarisOS.Fat32

open Function (update update_of_ne update_self)

/-! ## The volume as two functions -/

/-- What `fat32_mount` checks, and what the format says: the FAT has an entry
for every cluster, the clusters are on the device, and a cluster's number
fits the 28 bits of an entry below the marks for bad and end. -/
structure Vol.Geometry (v : Vol) : Prop where
  spc_pos : 0 < v.sectorsPerCluster
  fats_pos : 0 < v.numFats
  fat_pos : 0 < v.fatLba
  layout : v.dataLba = v.fatLba + v.numFats * v.fatSectors
  table : v.totalClusters + 2 ≤ v.fatSectors * PER_FAT_SECTOR
  fits : v.dataLba + v.totalClusters * v.sectorsPerCluster ≤ v.sectors
  small : v.sectors < 4294967296
  bits : v.totalClusters + 2 ≤ FAT_BAD

namespace Fs

/-- A FAT sector: the cached one where it is cached. -/
def fatSector (fs : Fs) (lba : Nat) : Mem :=
  if lba = fs.fatCacheLba then fs.fatCache else fs.disk lba

/-- The 32 bits of an entry. -/
def entry (v : Vol) (fs : Fs) (c : Nat) : Nat :=
  (fs.fatSector (v.fatLba + c / PER_FAT_SECTOR)).rd32 (c % PER_FAT_SECTOR * 4)

/-- The entry of a cluster as `fat_get` gives it. -/
def fat (v : Vol) (fs : Fs) (c : Nat) : Nat :=
  if v.has c then fs.entry v c % 268435456 else FAT_EOC

/-- The bytes of a cluster. -/
def data (v : Vol) (fs : Fs) (c i : Nat) : UInt8 :=
  if v.has c && decide (i < v.clusterBytes) then
    fs.disk (clusterLba v c + i / BLOCK_SECTOR_SIZE) (i % BLOCK_SECTOR_SIZE)
  else 0

end Fs

/-- The entry after `c` in its chain. -/
def follow (f : Nat → Nat) (c : Nat) : Option Nat :=
  if f c < 2 ∨ FAT_BAD ≤ f c then none else some (f c)

/-- The plain walk: `i` links from `c`. -/
def nth (f : Nat → Nat) : Nat → Nat → Option Nat
  | 0, c => some c
  | i + 1, c => (follow f c).bind (nth f i)

structure Fs.Ok (v : Vol) (fs : Fs) : Prop where
  served : fs.answers = []
  lba : fs.fatCacheLba = 0 ∨
    (v.fatLba ≤ fs.fatCacheLba ∧ fs.fatCacheLba < v.fatLba + v.fatSectors)
  clean : fs.fatCacheDirty = false → fs.fatCacheLba ≠ 0 →
    ∀ i, i < BLOCK_SECTOR_SIZE → fs.fatCache i = fs.disk fs.fatCacheLba i
  memo : 2 ≤ fs.memoCluster → nth (fs.fat v) fs.memoIndex fs.memoFirst = some fs.memoCluster

/-- The volume is the FAT `f` and the clusters `d`. -/
structure Reads (v : Vol) (fs : Fs) (f : Nat → Nat) (d : Nat → Mem) : Prop where
  ok : fs.Ok v
  fat : fs.fat v = f
  data : fs.data v = d

variable {v : Vol} {fs fs' : Fs} {f : Nat → Nat} {d : Nat → Mem} {c lba : Nat}

theorem Fs.Ok.reads (h : fs.Ok v) : Reads v fs (fs.fat v) (fs.data v) := ⟨h, rfl, rfl⟩

theorem Vol.has_iff : v.has c = true ↔ 2 ≤ c ∧ c < v.totalClusters + 2 := by
  simp [Vol.has]

/-! ## The device -/

theorem blockdevRead_served (h : fs.answers = []) {count : Nat} (hr : inRange v lba count = true)
    (buf : Mem) (off : Nat) :
    blockdevRead v lba count buf off fs =
      (true, buf.copyAt off (fs.sectorsFrom lba) (count * BLOCK_SECTOR_SIZE), fs) := by
  simp [blockdevRead, hr, h]

theorem blockdevWrite_served (h : fs.answers = []) {count : Nat} (hr : inRange v lba count = true)
    (buf : Mem) :
    blockdevWrite v lba count buf fs = (true, Fs.putSectors count lba buf fs) := by
  simp [blockdevWrite, hr, h]

theorem inRange_of_le {count : Nat} (hpos : 0 < count) (hle : lba + count ≤ v.sectors) :
    inRange v lba count = true := by
  simp only [inRange, ne_eq, Bool.and_eq_true, decide_eq_true_eq]
  omega

theorem putSectors_keeps (count : Nat) (lba : Nat) (buf : Mem) (fs : Fs) :
    ∃ disk images, Fs.putSectors count lba buf fs = { fs with disk := disk, images := images } := by
  induction count generalizing lba buf fs with
  | zero => exact ⟨fs.disk, fs.images, rfl⟩
  | succ count ih =>
    obtain ⟨disk, images, h⟩ := ih (lba + 1) (buf.shift BLOCK_SECTOR_SIZE) (fs.putSector lba buf)
    exact ⟨disk, images, h⟩

theorem putSectors_disk (count : Nat) (lba : Nat) (buf : Mem) (fs : Fs) (l : Nat) :
    (Fs.putSectors count lba buf fs).disk l =
      if lba ≤ l ∧ l < lba + count then buf.shift ((l - lba) * BLOCK_SECTOR_SIZE)
      else fs.disk l := by
  induction count generalizing lba buf fs with
  | zero => rw [if_neg (by omega)]; rfl
  | succ count ih =>
    rw [Fs.putSectors, ih]
    by_cases hl : l = lba
    · subst hl
      rw [if_neg (by omega), if_pos (by omega)]
      funext i
      simp [Fs.putSector]
    · by_cases hin : lba ≤ l ∧ l < lba + (count + 1)
      · rw [if_pos (by omega), if_pos hin]
        funext i
        simp only [Mem.shift_apply, BLOCK_SECTOR_SIZE]
        congr 1
        omega
      · rw [if_neg (by omega), if_neg hin]
        simp [Fs.putSector, hl]

/-! ## Where things are -/

namespace Vol.Geometry

variable (g : v.Geometry)
include g

theorem clusterLba_eq (hc : v.has c = true) :
    clusterLba v c = v.dataLba + (c - 2) * v.sectorsPerCluster := by
  obtain ⟨h₁, h₂⟩ := Vol.has_iff.mp hc
  have hle : (c - 2) * v.sectorsPerCluster ≤ v.totalClusters * v.sectorsPerCluster :=
    Nat.mul_le_mul_right _ (by omega)
  have := g.fits
  have := g.small
  exact u32_of_lt (by omega)

theorem cluster_fits (hc : v.has c = true) : clusterLba v c + v.sectorsPerCluster ≤ v.sectors := by
  obtain ⟨h₁, h₂⟩ := Vol.has_iff.mp hc
  have hle : (c - 2 + 1) * v.sectorsPerCluster ≤ v.totalClusters * v.sectorsPerCluster :=
    Nat.mul_le_mul_right _ (by omega)
  rw [Nat.add_mul] at hle
  rw [g.clusterLba_eq hc]
  have := g.fits
  omega

theorem dataLba_le (hc : v.has c = true) : v.dataLba ≤ clusterLba v c := by
  rw [g.clusterLba_eq hc]
  omega

theorem clusterLba_inj {c' : Nat} (i i' : Nat) (hc : v.has c = true) (hc' : v.has c' = true)
    (hi : i < v.sectorsPerCluster) (hi' : i' < v.sectorsPerCluster)
    (h : clusterLba v c + i = clusterLba v c' + i') : c = c' ∧ i = i' := by
  rw [g.clusterLba_eq hc, g.clusterLba_eq hc'] at h
  obtain ⟨h₁, -⟩ := Vol.has_iff.mp hc
  obtain ⟨h₂, -⟩ := Vol.has_iff.mp hc'
  have hsum : (c - 2) * v.sectorsPerCluster + i = (c' - 2) * v.sectorsPerCluster + i' := by omega
  have hdiv := congrArg (· / v.sectorsPerCluster) hsum
  have hmod := congrArg (· % v.sectorsPerCluster) hsum
  simp only [Nat.mul_comm _ v.sectorsPerCluster, Nat.mul_add_div g.spc_pos, Nat.mul_add_mod,
    Nat.div_eq_of_lt hi, Nat.div_eq_of_lt hi', Nat.mod_eq_of_lt hi, Nat.mod_eq_of_lt hi'] at hdiv hmod
  omega

theorem fatLba_lt (hc : v.has c = true) :
    v.fatLba + c / PER_FAT_SECTOR < v.fatLba + v.fatSectors := by
  obtain ⟨-, h₂⟩ := Vol.has_iff.mp hc
  have := g.table
  have : c / PER_FAT_SECTOR < v.fatSectors := by
    apply Nat.div_lt_of_lt_mul
    rw [Nat.mul_comm]
    omega
  omega

theorem fatSectors_le : v.fatLba + v.fatSectors ≤ v.dataLba := by
  have := Nat.mul_le_mul_right v.fatSectors g.fats_pos
  rw [g.layout]
  omega

theorem fat_inRange (hc : v.has c = true) : inRange v (v.fatLba + c / PER_FAT_SECTOR) 1 = true := by
  have := g.fatLba_lt hc
  have := g.fatSectors_le
  have := g.fits
  exact inRange_of_le (by omega) (by omega)

theorem copy_lba {i : Nat} (hi : i < v.numFats) (hlba : v.fatLba ≤ lba ∧ lba < v.fatLba + v.fatSectors) :
    lba + i * v.fatSectors < v.dataLba ∧ (i = 0 ∨ v.fatLba + v.fatSectors ≤ lba + i * v.fatSectors) := by
  have hle : (i + 1) * v.fatSectors ≤ v.numFats * v.fatSectors := Nat.mul_le_mul_right _ hi
  rw [Nat.add_mul] at hle
  rw [g.layout]
  refine ⟨by omega, ?_⟩
  by_cases h0 : i = 0
  · exact .inl h0
  · have : 1 * v.fatSectors ≤ i * v.fatSectors := Nat.mul_le_mul_right _ (by omega)
    exact .inr (by omega)

end Vol.Geometry

/-! ## Reading the FAT -/

theorem rd32_sector {m m' : Mem} (h : ∀ i, i < BLOCK_SECTOR_SIZE → m' i = m i) (c : Nat) :
    m'.rd32 (c % PER_FAT_SECTOR * 4) = m.rd32 (c % PER_FAT_SECTOR * 4) := by
  exact Mem.rd32_congr fun i _ hi => h i (by simp only [BLOCK_SECTOR_SIZE, PER_FAT_SECTOR] at *; omega)

theorem fat_congr (g : v.Geometry)
    (h : ∀ l, v.fatLba ≤ l → l < v.fatLba + v.fatSectors → ∀ i, i < BLOCK_SECTOR_SIZE →
      fs'.fatSector l i = fs.fatSector l i) : fs'.fat v = fs.fat v := by
  funext c
  rw [Fs.fat, Fs.fat]
  split
  · rename_i hc
    rw [Fs.entry, Fs.entry, rd32_sector (h _ (Nat.le_add_right _ _) (g.fatLba_lt hc))]
  · rfl

theorem data_congr (g : v.Geometry) (h : ∀ l, v.dataLba ≤ l → fs'.disk l = fs.disk l) :
    fs'.data v = fs.data v := by
  funext c i
  rw [Fs.data, Fs.data]
  split
  · rename_i hc
    have hc := (Bool.and_eq_true _ _ ▸ hc).1
    rw [h _ (Nat.le_trans (g.dataLba_le hc) (Nat.le_add_right _ _))]
  · rfl

theorem flushCopies_spec (g : v.Geometry) (left i : Nat) (hi : i + left ≤ v.numFats)
    (hs : fs.answers = [])
    (hlba : v.fatLba ≤ fs.fatCacheLba ∧ fs.fatCacheLba < v.fatLba + v.fatSectors) :
    ∃ disk images, flushCopies v left i fs = (true, { fs with disk := disk, images := images }) ∧
      ∀ l, (disk l = fs.disk l ∨ disk l = fs.fatCache ∧ ∃ j, i ≤ j ∧ j < i + left ∧
        l = fs.fatCacheLba + j * v.fatSectors) ∧
        (l = fs.fatCacheLba + i * v.fatSectors → 0 < left → disk l = fs.fatCache) := by
  induction left generalizing i fs with
  | zero => exact ⟨fs.disk, fs.images, rfl, fun l => ⟨.inl rfl, fun _ h => absurd h (by omega)⟩⟩
  | succ left ih =>
    obtain ⟨hbefore, -⟩ := g.copy_lba (i := i) (by omega) hlba
    have hr : inRange v (fs.fatCacheLba + i * v.fatSectors) 1 = true := by
      have := g.fits
      exact inRange_of_le (by omega) (by omega)
    rw [flushCopies, blockdevWrite_served hs hr]
    have hput : Fs.putSectors 1 (fs.fatCacheLba + i * v.fatSectors) fs.fatCache fs =
        fs.putSector (fs.fatCacheLba + i * v.fatSectors) fs.fatCache := rfl
    obtain ⟨disk, images, heq, hdisk⟩ := ih (i + 1)
      (by omega) (show (fs.putSector _ fs.fatCache).answers = [] from hs) hlba
    rw [hput]
    refine ⟨disk, images, heq, fun l => ⟨?_, fun hl _ => ?_⟩⟩
    · by_cases hl : l = fs.fatCacheLba + i * v.fatSectors
      · rcases (hdisk l).1 with h | ⟨h, j, hj₁, hj₂, hj⟩
        · refine .inr ⟨?_, i, by omega, by omega, hl⟩
          rw [h, hl]
          simp [Fs.putSector]
        · exact .inr ⟨h, j, by omega, by omega, hj⟩
      · rcases (hdisk l).1 with h | ⟨h, j, hj₁, hj₂, hj⟩
        · refine .inl ?_
          rw [h]
          simp [Fs.putSector, hl]
        · exact .inr ⟨h, j, by omega, by omega, hj⟩
    · rcases (hdisk l).1 with h | ⟨h, -⟩
      · rw [h, hl]
        simp [Fs.putSector]
      · exact h

theorem flush_spec (g : v.Geometry) (h : Reads v fs f d) :
    (fatCacheFlush v fs).1 = true ∧ Reads v (fatCacheFlush v fs).2 f d ∧
    (fatCacheFlush v fs).2.fatCacheLba = fs.fatCacheLba ∧
    ((fatCacheFlush v fs).2.fatCacheDirty = false ∨ (fatCacheFlush v fs).2.fatCacheLba = 0) ∧
    (fatCacheFlush v fs).2.memoCluster = fs.memoCluster := by
  rw [fatCacheFlush]
  split
  · rename_i hskip
    refine ⟨rfl, h, rfl, ?_, rfl⟩
    simpa using hskip
  · rename_i hdirty
    simp only [Bool.or_eq_true, Bool.not_eq_true', beq_iff_eq, not_or] at hdirty
    have hlba : v.fatLba ≤ fs.fatCacheLba ∧ fs.fatCacheLba < v.fatLba + v.fatSectors :=
      h.ok.lba.resolve_left hdirty.2
    obtain ⟨disk, images, heq, hdisk⟩ := flushCopies_spec g v.numFats 0
      (by omega) h.ok.served hlba
    rw [heq]
    have hhere : disk fs.fatCacheLba = fs.fatCache := (hdisk _).2 (by omega) g.fats_pos
    have hfat : ∀ l, v.fatLba ≤ l → l < v.fatLba + v.fatSectors → l ≠ fs.fatCacheLba →
        disk l = fs.disk l := by
      intro l h₁ h₂ hne
      rcases (hdisk l).1 with h | ⟨-, j, -, hj, rfl⟩
      · exact h
      · rcases (g.copy_lba (i := j) (by omega) hlba).2 with rfl | hge
        · exact absurd (by omega) hne
        · omega
    have hdata : ∀ l, v.dataLba ≤ l → disk l = fs.disk l := by
      intro l h₁
      rcases (hdisk l).1 with h | ⟨-, j, -, hj, rfl⟩
      · exact h
      · have := (g.copy_lba (i := j) (by omega) hlba).1
        omega
    have hview : ({ fs with disk := disk, images := images, fatCacheDirty := false } : Fs).fat v =
        fs.fat v := by
      refine fat_congr g fun l h₁ h₂ i _ => ?_
      simp only [Fs.fatSector]
      split
      · rfl
      · rename_i hne
        rw [hfat l h₁ h₂ hne]
    refine ⟨rfl, ⟨⟨h.ok.served, h.ok.lba, fun _ _ i _ => ?_, ?_⟩, hview.trans h.fat,
      (data_congr g hdata).trans h.data⟩, rfl, .inl rfl, rfl⟩
    · simp only [hhere]
    · intro hmemo
      rw [hview]
      exact h.ok.memo hmemo

theorem load_spec (g : v.Geometry) (h : Reads v fs f d) (hc : v.has c = true) :
    (fatCacheLoad v c fs).1 = true ∧ Reads v (fatCacheLoad v c fs).2 f d ∧
    (fatCacheLoad v c fs).2.fatCacheLba = v.fatLba + c / PER_FAT_SECTOR ∧
    (fatCacheLoad v c fs).2.memoCluster = fs.memoCluster := by
  have hlt := g.fatLba_lt hc
  rw [fatCacheLoad]
  split
  · rename_i hhit
    exact ⟨rfl, h, hhit.symm, rfl⟩
  · rename_i hmiss
    obtain ⟨hok, hq, hlba, hclean, hmemo⟩ := flush_spec g h
    rcases hfl : fatCacheFlush v fs with ⟨ok, fs₁⟩
    rw [hfl] at hok hq hlba hclean hmemo
    subst hok
    simp only
    rw [blockdevRead_served hq.ok.served (g.fat_inRange hc)]
    have hread : ∀ i, i < BLOCK_SECTOR_SIZE →
        fs₁.fatCache.copyAt 0 (fs₁.sectorsFrom (v.fatLba + c / PER_FAT_SECTOR))
          (1 * BLOCK_SECTOR_SIZE) i = fs₁.disk (v.fatLba + c / PER_FAT_SECTOR) i := by
      intro i hi
      rw [Mem.copyAt_inside (Nat.zero_le i) (by omega)]
      simp [Fs.sectorsFrom, Nat.div_eq_of_lt hi, Nat.mod_eq_of_lt hi]
    generalize fs₁.fatCache.copyAt 0 (fs₁.sectorsFrom (v.fatLba + c / PER_FAT_SECTOR))
      (1 * BLOCK_SECTOR_SIZE) = buf at hread
    have hview : ({ fs₁ with
        fatCache := buf, fatCacheLba := v.fatLba + c / PER_FAT_SECTOR } : Fs).fat v = fs₁.fat v := by
      refine fat_congr g fun l h₁ h₂ i hi => ?_
      simp only [Fs.fatSector]
      by_cases hl : l = v.fatLba + c / PER_FAT_SECTOR
      · have hne : l ≠ fs₁.fatCacheLba := by rw [hlba]; exact fun he => hmiss (hl.symm.trans he)
        rw [if_pos hl, if_neg hne, hread i hi, hl]
      · rw [if_neg hl]
        by_cases hl₁ : l = fs₁.fatCacheLba
        · have hne0 : fs₁.fatCacheLba ≠ 0 := by have := g.fat_pos; omega
          rw [if_pos hl₁, hl₁]
          exact (hq.ok.clean (hclean.resolve_right hne0) hne0 i hi).symm
        · rw [if_neg hl₁]
    refine ⟨rfl, ⟨⟨hq.ok.served, .inr ⟨by simp, hlt⟩, ?_, ?_⟩, hview.trans hq.fat, ?_⟩, rfl, hmemo⟩
    · intro _ _ i hi
      exact hread i hi
    · intro hm
      rw [hview]
      exact hq.ok.memo hm
    · exact (data_congr g fun _ _ => rfl).trans hq.data

theorem fatGet_spec (g : v.Geometry) (h : Reads v fs f d) (c : Nat) :
    (fatGet v c fs).1 = f c ∧ Reads v (fatGet v c fs).2 f d ∧
    (fatGet v c fs).2.memoCluster = fs.memoCluster := by
  rw [fatGet]
  split
  · rename_i hc
    refine ⟨?_, h, rfl⟩
    simp only [Bool.not_eq_true'] at hc
    rw [← h.fat, Fs.fat, if_neg (by simp [hc])]
  · rename_i hc
    have hc : v.has c = true := by simpa using hc
    obtain ⟨hok, hq, hlba, hmemo⟩ := load_spec g h hc
    rcases hl : fatCacheLoad v c fs with ⟨ok, fs₁⟩
    rw [hl] at hok hq hlba hmemo
    subst hok
    refine ⟨?_, hq, hmemo⟩
    rw [← hq.fat, Fs.fat, if_pos hc, Fs.entry, Fs.fatSector, if_pos hlba.symm]

/-! ## Writing the FAT -/

theorem Reads.fat_out (h : Reads v fs f d) (hc : v.has c = false) : f c = FAT_EOC := by
  rw [← h.fat, Fs.fat, if_neg (by simp [hc])]

/-- One entry of the cached sector, below its top four bits. -/
def storeEntry (c value : Nat) (fs : Fs) : Fs :=
  { fs with
    fatCache := fs.fatCache.wr32 (c % PER_FAT_SECTOR * 4)
      (fs.fatCache.rd32 (c % PER_FAT_SECTOR * 4) / 268435456 * 268435456 + value % 268435456)
    fatCacheDirty := true }

theorem storeEntry_fat (h : Reads v fs f d) (hc : v.has c = true) (value : Nat)
    (hlba : fs.fatCacheLba = v.fatLba + c / PER_FAT_SECTOR) :
    (storeEntry c value fs).fat v = update f c (value % 268435456) := by
  funext x
  rw [← h.fat, Fs.fat]
  by_cases hx : x = c
  · subst hx
    rw [update_self, if_pos hc, Fs.entry, Fs.fatSector, storeEntry, if_pos hlba.symm,
      Mem.rd32_wr32]
    omega
  · rw [update_of_ne hx, Fs.fat]
    split
    · rename_i hxv
      have hsector : (storeEntry c value fs).fatCacheLba = fs.fatCacheLba := rfl
      rw [Fs.entry, Fs.entry, Fs.fatSector, Fs.fatSector, hsector]
      split
      · -- the same sector, another entry of it
        rw [storeEntry, Mem.rd32_wr32_of_disjoint]
        simp only [PER_FAT_SECTOR] at *
        omega
      · rfl
    · rfl

theorem storeEntry_spec (h : Reads v fs f d) (hc : v.has c = true) (value : Nat)
    (hlba : fs.fatCacheLba = v.fatLba + c / PER_FAT_SECTOR)
    (hmemo : 2 ≤ fs.memoCluster → nth (update f c (value % 268435456)) fs.memoIndex
      fs.memoFirst = some fs.memoCluster) :
    Reads v (storeEntry c value fs) (update f c (value % 268435456)) d := by
  have hview := storeEntry_fat h hc value hlba
  refine ⟨⟨h.ok.served, h.ok.lba, fun hclean => absurd hclean (by simp [storeEntry]), fun hm => ?_⟩,
    hview, h.data⟩
  rw [hview]
  exact hmemo hm

theorem fatSet_spec (g : v.Geometry) (h : Reads v fs f d) (hc : v.has c = true) (value : Nat)
    (hvalue : value = 0 ∨ value = FAT_MASK ∨ fs.memoCluster < 2) :
    (fatSet v c value fs).1 = true ∧
    Reads v (fatSet v c value fs).2 (update f c (value % 268435456)) d ∧
    (fatSet v c value fs).2.memoCluster < 2 := by
  rw [fatSet, if_neg (by simp [hc])]
  have hforget : ∃ fs₀, (if value = 0 ∨ value = FAT_MASK then chainMemoForget fs else fs) = fs₀ ∧
      Reads v fs₀ f d ∧ fs₀.memoCluster < 2 := by
    refine ⟨_, rfl, ?_, ?_⟩
    · split
      · exact ⟨⟨h.ok.served, h.ok.lba, h.ok.clean, fun hm => absurd hm (by simp [chainMemoForget])⟩,
          h.fat, h.data⟩
      · exact h
    · split
      · simp [chainMemoForget]
      · rename_i hno
        rcases hvalue with h | h | h
        · exact absurd (.inl h) hno
        · exact absurd (.inr h) hno
        · exact h
  obtain ⟨fs₀, heq, h₀, hm₀⟩ := hforget
  rw [heq]
  obtain ⟨hok, hq, hlba, hmemo⟩ := load_spec g h₀ hc
  rcases hl : fatCacheLoad v c fs₀ with ⟨ok, fs₁⟩
  rw [hl] at hok hq hlba hmemo
  simp only at hok hq hlba hmemo
  subst hok
  exact ⟨rfl, storeEntry_spec hq hc value hlba fun hm => absurd hm (by omega),
    by simp only [hmemo]; exact hm₀⟩

end NovarisOS.Fat32
