/-
NovarisOS.Fat32.DirTheorems — a directory is its slots.

Slot `i` of a directory is 32 bytes of its clusters (`slotAt`), at a place
that no other slot has (`posOf`). `dir_entry_at` gives the one and the other,
`dir_entry_put` at that place writes the one. The scans only read.
-/
import NovarisOS.Fat32.Dir
import NovarisOS.Fat32.FileTheorems

namespace NovarisOS.Fat32

variable {v : Vol} {fs fs' : Fs} {f f' : Nat → Nat} {d d' : Nat → Mem} {c x i : Nat}
  {l l' w : List Nat} {node node' : Node}

/-! ## Nodes -/

/-- Only the storage of a node may differ, not what it is. -/
structure Restored (node node' : Node) : Prop where
  name : node'.name = node.name
  kind : node'.kind = node.kind
  inUse : node'.inUse = node.inUse
  refs : node'.refs = node.refs
  unlinked : node'.unlinked = node.unlinked
  lba : node'.fsDirentLba = node.fsDirentLba
  off : node'.fsDirentOff = node.fsDirentOff
  slots : node'.fsSlots = node.fsSlots
  populated : node'.populated = node.populated
  children : node'.children = node.children

theorem Restored.refl (node : Node) : Restored node node := by
  constructor <;> rfl

theorem Rehead.restored (h : Rehead node node') : Restored node node' := by
  constructor <;> rw [h]

theorem Restored.edit (h : Restored node node') (cluster length : Nat) (data : Option Mem)
    (dirty : Bool) :
    Restored node { node' with
      fsCluster := cluster, length := length, data := data, fsDirty := dirty } :=
  ⟨h.name, h.kind, h.inUse, h.refs, h.unlinked, h.lba, h.off, h.slots, h.populated, h.children⟩

/-! ## Slots -/

/-- The 32 bytes of a buffer that an entry is. -/
def entryOf (m : Mem) : Mem := fun k => if k < DIRENT_SIZE then m k else 0

/-- Slot `i` of the directory with the clusters `l`. -/
def slotAt (v : Vol) (d : Nat → Mem) (l : List Nat) (i : Nat) : Mem :=
  entryOf fun k => byteAt v d l (i * DIRENT_SIZE + k)

/-- How many slots so many clusters have. -/
def slotCount (v : Vol) (l : List Nat) : Nat := l.length * v.perCluster

/-- Where slot `i` is. -/
def posOf (v : Vol) (l : List Nat) (i : Nat) : Pos :=
  ⟨clusterLba v (l.getD (i / v.perCluster) 0) + i % v.perCluster / PER_SECTOR,
    i % v.perCluster % PER_SECTOR * DIRENT_SIZE⟩

theorem Vol.clusterBytes_eq (v : Vol) : v.clusterBytes = v.perCluster * DIRENT_SIZE := by
  simp only [Vol.clusterBytes, Vol.perCluster, BLOCK_SECTOR_SIZE, DIRENT_SIZE]
  omega

theorem Vol.Geometry.perCluster_pos (g : v.Geometry) : 0 < v.perCluster := by
  have := g.spc_pos
  simp only [Vol.perCluster, BLOCK_SECTOR_SIZE, DIRENT_SIZE]
  omega

theorem slot_byte (g : v.Geometry) (i k : Nat) (hk : k < DIRENT_SIZE) :
    (i * DIRENT_SIZE + k) / v.clusterBytes = i / v.perCluster ∧
    (i * DIRENT_SIZE + k) % v.clusterBytes = i % v.perCluster * DIRENT_SIZE + k := by
  have hpos := g.perCluster_pos
  have hi := Nat.div_add_mod i v.perCluster
  have hlt := Nat.mod_lt i hpos
  have hcb := v.clusterBytes_eq
  generalize i / v.perCluster = q at *
  generalize i % v.perCluster = r at *
  have hsum : i * DIRENT_SIZE + k = v.clusterBytes * q + (r * DIRENT_SIZE + k) := by
    rw [← hi, hcb]
    rw [Nat.add_mul, Nat.mul_right_comm, Nat.add_assoc]
  have hin : r * DIRENT_SIZE + k < v.clusterBytes := by
    rw [hcb]
    simp only [DIRENT_SIZE] at *
    omega
  rw [hsum, Nat.mul_add_div (by omega), Nat.mul_add_mod, Nat.div_eq_of_lt hin,
    Nat.mod_eq_of_lt hin]
  exact ⟨rfl, rfl⟩

theorem slot_index (h : i < slotCount v l) : ∃ x, l[i / v.perCluster]? = some x := by
  have hlt : i / v.perCluster < l.length :=
    Nat.div_lt_of_lt_mul (by rw [Nat.mul_comm]; exact h)
  exact ⟨_, List.getElem?_eq_getElem hlt⟩

theorem slotAt_eq (g : v.Geometry) (hx : l[i / v.perCluster]? = some x) :
    slotAt v d l i = entryOf ((d x).shift (i % v.perCluster * DIRENT_SIZE)) := by
  funext k
  simp only [slotAt, entryOf]
  split
  · rename_i hk
    obtain ⟨hdiv, hmod⟩ := slot_byte g i k hk
    rw [byteAt, hdiv, hmod, hx]
    rfl
  · rfl

theorem slot_sector (i : Nat) (hpos : 0 < v.perCluster) :
    i % v.perCluster / PER_SECTOR < v.sectorsPerCluster := by
  have := Nat.mod_lt i hpos
  simp only [Vol.perCluster, PER_SECTOR, BLOCK_SECTOR_SIZE, DIRENT_SIZE] at *
  omega

theorem dirEntryAt_spec (g : v.Geometry) (h : Reads v fs f d) (hl : Chain v f c l) (i : Nat) :
    ∃ fs', dirEntryAt v c i fs =
        (if i < slotCount v l then some (slotAt v d l i, posOf v l i) else none, fs') ∧
      Reads v fs' f d := by
  have hpos := g.perCluster_pos
  obtain ⟨hnth, h₁⟩ := chainNth_chain g h hl (i / v.perCluster)
  rw [dirEntryAt]
  rcases hc : chainNth v c (i / v.perCluster) fs with ⟨y, fs₁⟩
  rw [hc] at hnth h₁
  simp only at hnth h₁ ⊢
  by_cases hi : i < slotCount v l
  · obtain ⟨x, hx⟩ := slot_index hi
    rw [hx] at hnth
    obtain rfl : y = x := hnth
    have hhas := hl.has y (List.mem_of_getElem? hx)
    have hsec := slot_sector i hpos
    have hlba : u32 (clusterLba v y + i % v.perCluster / PER_SECTOR) =
        clusterLba v y + i % v.perCluster / PER_SECTOR := by
      have := g.cluster_fits hhas
      have := g.small
      exact u32_of_lt (by omega)
    obtain ⟨sec, hread, rfl⟩ := readCluster_spec g h₁ hhas (i % v.perCluster / PER_SECTOR) 1
      (by omega) (by omega) (fun _ => 0) 0
    refine ⟨fs₁, ?_, h₁⟩
    rw [if_neg (by have := (g.lt_bad hhas).1; omega), if_pos hi, hlba, hread]
    simp only [Prod.mk.injEq, Option.some.injEq, and_true]
    refine ⟨?_, ?_⟩
    · rw [slotAt_eq g hx]
      funext k
      simp only [Mem.copyAt_apply, Mem.shift_apply, entryOf]
      by_cases hk : k < DIRENT_SIZE
      · rw [if_pos (by omega), if_pos hk, if_pos (by
          simp only [PER_SECTOR, BLOCK_SECTOR_SIZE, DIRENT_SIZE] at *; omega)]
        congr 1
        simp only [PER_SECTOR, BLOCK_SECTOR_SIZE, DIRENT_SIZE] at *
        omega
      · rw [if_neg (by omega), if_neg hk]
    · rw [posOf, List.getD_eq_getElem?_getD, hx]
      rfl
  · have hnone : l[i / v.perCluster]? = none := by
      apply List.getElem?_eq_none
      exact (Nat.le_div_iff_mul_le hpos).mpr (by simpa [slotCount] using hi)
    rw [hnone] at hnth
    refine ⟨fs₁, ?_, h₁⟩
    rw [if_pos (show y = 0 from hnth), if_neg hi]

theorem dirEntryPut_spec (g : v.Geometry) (h : Reads v fs f d) (hl : Chain v f c l)
    (hi : i < slotCount v l) (ent : Mem) :
    ∃ fs' d', dirEntryPut v (posOf v l i) ent fs = (true, fs') ∧ Reads v fs' f d' ∧
      Wrote v d d' l (i * DIRENT_SIZE) DIRENT_SIZE ent := by
  have hpos := g.perCluster_pos
  obtain ⟨x, hx⟩ := slot_index hi
  have hxl := List.mem_of_getElem? hx
  have hhas := hl.has x hxl
  have hsec := slot_sector i hpos
  have hget : l.getD (i / v.perCluster) 0 = x := by
    rw [List.getD_eq_getElem?_getD, hx]
    rfl
  obtain ⟨hdiv, hmod⟩ := slot_byte g i 0 (by decide)
  simp only [Nat.add_zero] at hdiv hmod
  have hx' : l[i * DIRENT_SIZE / v.clusterBytes]? = some x := by rw [hdiv, hx]
  have hin := Nat.mod_lt i hpos
  rw [dirEntryPut, posOf, hget]
  obtain ⟨sec, hread, rfl⟩ := readCluster_spec g h hhas (i % v.perCluster / PER_SECTOR) 1
    (by omega) (by omega) (fun _ => 0) 0
  rw [hread]
  obtain ⟨fs', hwrite, h'⟩ := writeCluster_spec g h hhas (i % v.perCluster / PER_SECTOR) 1
    (by omega) (by omega) (Mem.copyAt (Mem.copyAt (fun _ => 0) 0 ((d x).shift
      (i % v.perCluster / PER_SECTOR * BLOCK_SECTOR_SIZE)) (1 * BLOCK_SECTOR_SIZE))
      (i % v.perCluster % PER_SECTOR * DIRENT_SIZE) ent DIRENT_SIZE)
  refine ⟨fs', _, hwrite, h', fun q => ?_, fun y hy => ?_⟩
  · have hupd := byteAt_update hl.nodup hx' (n := DIRENT_SIZE) (d := d)
      (by rw [hmod, v.clusterBytes_eq]; simp only [DIRENT_SIZE]; omega) ent q
    rw [← hupd, hmod]
    congr 2
    -- the rest of the sector is written back as it was read
    funext k
    simp only [Mem.copyAt_apply, Mem.shift_apply, PER_SECTOR, BLOCK_SECTOR_SIZE, DIRENT_SIZE] at *
    by_cases hk : i % v.perCluster * 32 ≤ k ∧ k < i % v.perCluster * 32 + 32
    · rw [if_pos (by omega), if_pos (by omega), if_pos hk]
      congr 1
      omega
    · rw [if_neg hk]
      by_cases hs : i % v.perCluster / 16 * 512 ≤ k ∧ k < i % v.perCluster / 16 * 512 + 1 * 512
      · rw [if_pos hs, if_neg (by omega), if_pos (by omega)]
        congr 1
        omega
      · rw [if_neg hs]
  · exact Function.update_of_ne (ne_of_mem_of_not_mem hxl hy).symm _ _

theorem Wrote.slotAt {ent : Mem} (h : Wrote v d d' l (i * DIRENT_SIZE) DIRENT_SIZE ent) (j : Nat) :
    slotAt v d' l j = if j = i then entryOf ent else slotAt v d l j := by
  have hbyte : ∀ k, k < DIRENT_SIZE → byteAt v d' l (j * DIRENT_SIZE + k) =
      if j = i then ent k else byteAt v d l (j * DIRENT_SIZE + k) := by
    intro k hk
    rw [h.bytes]
    simp only [DIRENT_SIZE] at *
    by_cases hj : j = i
    · rw [if_pos (by omega), if_pos hj]
      congr 1
      omega
    · rw [if_neg (by omega), if_neg hj]
  by_cases hj : j = i
  · rw [if_pos hj]
    funext k
    simp only [Fat32.slotAt, entryOf]
    split
    · rename_i hk
      rw [hbyte k hk, if_pos hj]
    · rfl
  · rw [if_neg hj]
    funext k
    simp only [Fat32.slotAt, entryOf]
    split
    · rename_i hk
      rw [hbyte k hk, if_neg hj]
    · rfl

theorem putSlot_spec (g : v.Geometry) (h : Reads v fs f d) (hl : Chain v f c l) (i : Nat)
    (ent : Mem) :
    (slotCount v l ≤ i ∧ ∃ fs', putSlot v c i ent fs = (none, fs') ∧ Reads v fs' f d) ∨
    (i < slotCount v l ∧ ∃ fs' d', putSlot v c i ent fs = (some (posOf v l i), fs') ∧
      Reads v fs' f d' ∧ Wrote v d d' l (i * DIRENT_SIZE) DIRENT_SIZE ent) := by
  rw [putSlot]
  obtain ⟨fs₁, hat, h₁⟩ := dirEntryAt_spec g h hl i
  rw [hat]
  by_cases hi : i < slotCount v l
  · obtain ⟨fs₂, d', hput, h₂, hwrote⟩ := dirEntryPut_spec g h₁ hl hi ent
    refine .inr ⟨hi, fs₂, d', ?_, h₂, hwrote⟩
    simp only [if_pos hi, hput]
  · refine .inl ⟨by omega, fs₁, ?_, h₁⟩
    simp only [if_neg hi]

theorem putSlot_frame (g : v.Geometry) (h : Reads v fs f d) (hl : Chain v f c l) (i : Nat)
    (ent : Mem) :
    ∃ res fs' d', putSlot v c i ent fs = (res, fs') ∧ Reads v fs' f d' ∧ Frame f f d d' l l [] ∧
      ∀ pos, res = some pos → i < slotCount v l ∧ pos = posOf v l i := by
  rcases putSlot_spec g h hl i ent with ⟨-, fs', heq, h'⟩ | ⟨hi, fs', d', heq, h', hwrote⟩
  · exact ⟨none, fs', d, heq, h', .refl f d l [], fun pos hp => absurd hp (by simp)⟩
  · exact ⟨_, fs', d', heq, h', hwrote.frame, fun pos hp => ⟨hi, (Option.some.inj hp).symm⟩⟩

/-! ## The scans -/

theorem findRun_reads (g : v.Geometry) (hl : Chain v f c l) (count left i run : Nat)
    (h : Reads v fs f d) : Reads v (findRun v c count left i run fs).2 f d := by
  induction left generalizing i run fs with
  | zero => exact h
  | succ left ih =>
    obtain ⟨fs₁, hat, h₁⟩ := dirEntryAt_spec g h hl i
    rw [findRun, hat]
    by_cases hi : i < slotCount v l
    · simp only [if_pos hi]
      split
      · split <;> exact h₁
      · split
        · split
          · exact h₁
          · exact ih _ _ h₁
        · exact ih _ _ h₁
    · simp only [if_neg hi]
      exact h₁

theorem shortNameTaken_reads (g : v.Geometry) (hl : Chain v f c l) (short11 : List UInt8)
    (h : Reads v fs f d) : Reads v (shortNameTaken v c short11 fs).2 f d := by
  suffices hloop : ∀ (left i : Nat) (fs : Fs), Reads v fs f d →
      Reads v (takenFrom v c short11 left i fs).2 f d from hloop _ _ _ h
  intro left
  induction left with
  | zero => exact fun _ _ h => h
  | succ left ih =>
    intro i fs h
    obtain ⟨fs₁, hat, h₁⟩ := dirEntryAt_spec g h hl i
    rw [takenFrom, hat]
    by_cases hi : i < slotCount v l
    · simp only [if_pos hi]
      split
      · exact h₁
      · split
        · exact h₁
        · exact ih _ _ h₁
    · simp only [if_neg hi]
      exact h₁

theorem generateShort_reads (g : v.Geometry) (hl : Chain v f c l) (name : List UInt8)
    (h : Reads v fs f d) : Reads v (generateShort v c name fs).2 f d := by
  suffices hloop : ∀ (left n : Nat) (fs : Fs), Reads v fs f d →
      Reads v (generateFrom v c name left n fs).2 f d from hloop _ _ _ h
  intro left
  induction left with
  | zero => exact fun _ _ h => h
  | succ left ih =>
    intro n fs h
    have h₁ := shortNameTaken_reads g hl (generatedShort name n) h
    rw [generateFrom]
    split
    · rename_i heq
      rw [heq] at h₁
      exact h₁
    · rename_i heq
      rw [heq] at h₁
      exact ih _ _ h₁

theorem chooseShort_reads (g : v.Geometry) (hl : Chain v f c l) (name : List UInt8)
    (h : Reads v fs f d) : Reads v (chooseShort v c name fs).2 f d := by
  have hgen : ∀ fs, Reads v fs f d → Reads v (chooseGenerated v c name fs).2 f d := by
    intro fs h
    have h₁ := generateShort_reads g hl name h
    rw [chooseGenerated]
    split
    · rename_i heq
      rw [heq] at h₁
      exact h₁
    · rename_i heq
      rw [heq] at h₁
      exact h₁
  rw [chooseShort]
  split
  · exact hgen fs h
  · rename_i short11 ntflags _
    have h₁ := shortNameTaken_reads g hl short11 h
    split
    · rename_i heq
      rw [heq] at h₁
      exact h₁
    · rename_i heq
      rw [heq] at h₁
      exact hgen _ h₁

/-! ## What a directory lists -/

/-- The long name `populate` starts with. -/
def noLfn : Lfn := ⟨fun _ => 0, 0, 0, 0⟩

/-- The entries `populate` makes nodes of, in so many slots. -/
def scan : Lfn → List Mem → List DirEntry
  | _, [] => []
  | lfn, ent :: rest =>
      if ent 0 = ENTRY_END then []
      else
        match entryStep lfn ent with
        | (lfn, none) => scan lfn rest
        | (lfn, some e) => e :: scan lfn rest

def slots (v : Vol) (d : Nat → Mem) (l : List Nat) : List Mem :=
  (List.range (slotCount v l)).map (slotAt v d l)

def entries (v : Vol) (d : Nat → Mem) (l : List Nat) : List DirEntry := scan noLfn (slots v d l)

theorem slotAt_congr (h : ∀ x ∈ l, d' x = d x) (i : Nat) : slotAt v d' l i = slotAt v d l i := by
  funext k
  simp only [slotAt, byteAt_congr h]

end NovarisOS.Fat32
