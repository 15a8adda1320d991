/-
NovarisOS.Fat32.Walks — which walks of the driver come to an end, whatever
is on the disk.

The loops of the source that have no bound of their own are here once more, as
bodies of `NovarisOS.Lib.Loop`: with the 32-bit index the source has, which
starts again at 0 behind 2^32 - 1, and no number of rounds.
-/
import NovarisOS.Fat32.Cache
import NovarisOS.Fat32.Space
import NovarisOS.Fat32.DirTheorems
import NovarisOS.Fat32.Driver
import NovarisOS.Lib.Loop

namespace NovarisOS.Fat32

open Function (update update_of_ne update_self)
open Loop

/-! ## The loops -/

/-- A round of `chain_length`. -/
def lengthRound (v : Vol) : Nat × Nat × Fs → Round (Nat × Nat × Fs) (Nat × Fs)
  | (n, cur, fs) =>
      if 2 ≤ cur ∧ cur < FAT_BAD ∧ n ≤ v.totalClusters then
        match fatGet v cur fs with
        | (next, fs) => .more (n + 1, next, fs)
      else .over (n, fs)

/-- A round of `free_chain`. -/
def freeChainRound (v : Vol) : Nat × Fs → Round (Nat × Fs) Fs
  | (cluster, fs) =>
      if 2 ≤ cluster ∧ cluster < FAT_BAD then
        match fatGet v cluster fs with
        | (next, fs) =>
          match fatSet v cluster 0 fs with
          | (false, fs) => .over fs
          | (true, fs) =>
            .more (next, { fs with
              freeCount := if fs.freeCount ≠ 0xFFFFFFFF then fs.freeCount + 1 else fs.freeCount
              freeHint := if cluster < fs.freeHint then cluster else fs.freeHint })
      else .over fs

/-- A round of `dir_find_slots`: the answer, or the free run at the end. -/
def findRound (v : Vol) (firstCluster count total : Nat) :
    Nat × Nat × Fs → Round (Nat × Nat × Fs) ((Option Nat ⊕ Nat) × Fs)
  | (i, run, fs) =>
      if i < total then
        match dirEntryAt v firstCluster i fs with
        | (none, fs) => .over (.inr run, fs)
        | (some (ent, _), fs) =>
          if ent 0 = ENTRY_END then
            if run + (total - i) ≥ count then .over (.inl (slotNumber (i - run)), fs)
            else .over (.inr (run + (total - i)), fs)
          else if ent 0 = ENTRY_FREE then
            if run + 1 ≥ count then .over (.inl (slotNumber (i + 1 - count)), fs)
            else .more (i + 1, run + 1, fs)
          else .more (i + 1, 0, fs)
      else .over (.inr run, fs)

/-- A round of `short_name_taken`. -/
def takenRound (v : Vol) (firstCluster : Nat) (short11 : List UInt8) :
    Nat × Fs → Round (Nat × Fs) (Bool × Fs)
  | (i, fs) =>
      match dirEntryAt v firstCluster i fs with
      | (none, fs) => .over (false, fs)
      | (some (ent, _), fs) =>
        if ent 0 = ENTRY_END then .over (false, fs)
        else if ent 0 ≠ ENTRY_FREE ∧ isLfn ent = false ∧ ent.bytes 0 11 = short11 then
          .over (true, fs)
        else .more (u32 (i + 1), fs)

/-- A round of `dir_free_entries`. -/
def freeRound (v : Vol) (firstCluster : Nat) (victim : Node) :
    Nat × Fs → Round (Nat × Fs) (Except Int Unit × Fs)
  | (i, fs) =>
      match dirEntryAt v firstCluster i fs with
      | (none, fs) => .over (.error ENOENT, fs)
      | (some (ent, pos), fs) =>
        if ent 0 = ENTRY_END then .over (.error ENOENT, fs)
        else if pos.lba = victim.fsDirentLba ∧ pos.off = victim.fsDirentOff then
          let slots := if victim.fsSlots ≠ 0 then victim.fsSlots else 1
          let start := if i + 1 ≥ slots then i + 1 - slots else 0
          .over (freeSlots v firstCluster (i + 1 - start) start fs)
        else .more (u32 (i + 1), fs)

/-- A round of `populate`. -/
def populateRound (v : Vol) (dir : Nat) : Nat × Lfn × State → Round (Nat × Lfn × State) State
  | (i, lfn, s) =>
      match dirEntryAt v (s.nodes dir).fsCluster i s.fs with
      | (none, fs) => .over (s.onDisk fs)
      | (some (ent, pos), fs) =>
        if ent 0 = ENTRY_END then .over (s.onDisk fs)
        else
          match entryStep lfn ent with
          | (lfn, none) => .more (u32 (i + 1), lfn, s.onDisk fs)
          | (lfn, some e) =>
            match entryKind v e fs with
            | (kind, size, fs) =>
              match nodeAlloc (s.onDisk fs) with
              | (none, s) => .over s
              | (some n, s) =>
                .more (u32 (i + 1), lfn, dirAppend dir n (s.set n (entryNode e kind size pos)))

variable {v : Vol} {fs fs' : Fs} {f : Nat → Nat} {d : Nat → Mem} {head : Nat}

/-! ## The loops with a bound -/

theorem length_finishes (n cur : Nat) (fs : Fs) : Finishes (lengthRound v) (n, cur, fs) := by
  refine finishes_of_measure (I := fun _ => True) (fun s => v.totalClusters + 1 - s.1)
    (fun s s' _ hb => ⟨trivial, ?_⟩) trivial
  simp only [lengthRound] at hb
  split at hb
  · rename_i hgo
    cases hb
    omega
  · exact absurd hb (by simp)

theorem find_finishes (head count total i run : Nat) (fs : Fs) :
    Finishes (findRound v head count total) (i, run, fs) := by
  refine finishes_of_measure (I := fun _ => True) (fun s => total - s.1)
    (fun s s' _ hb => ⟨trivial, ?_⟩) trivial
  simp only [findRound] at hb
  split at hb
  · rename_i hi
    split at hb
    · exact absurd hb (by simp)
    · split at hb
      · split at hb <;> exact absurd hb (by simp)
      · split at hb
        · split at hb
          · exact absurd hb (by simp)
          · cases hb
            omega
        · cases hb
          omega
  · exact absurd hb (by simp)

/-- How many entries of clusters are not 0. -/
def usedClusters (v : Vol) (f : Nat → Nat) : Nat := v.totalClusters - freeClusters v f

theorem freeChain_finishes (g : v.Geometry) (h : Reads v fs f d) (cluster : Nat) :
    Finishes (freeChainRound v) (cluster, fs) := by
  refine finishes_of_measure (I := fun s => ∃ f d, Reads v s.2 f d)
    (fun s => 2 * usedClusters v (s.2.fat v) + if 2 ≤ s.1 ∧ s.1 < FAT_BAD then 1 else 0)
    (fun s s' hI hb => ?_) ⟨f, d, h⟩
  obtain ⟨cluster, fs⟩ := s
  obtain ⟨f, d, h⟩ := hI
  simp only [freeChainRound] at hb
  split at hb
  · rename_i hgo
    obtain ⟨hget, h₁, -⟩ := fatGet_spec g h cluster
    rcases hf : fatGet v cluster fs with ⟨next, fs₁⟩
    rw [hf] at hget h₁ hb
    subst hget
    cases hc : v.has cluster with
    | false =>
      rw [fatSet, if_pos (by simp [hc])] at hb
      exact absurd hb (by simp)
    | true =>
      obtain ⟨hok, h₂, -⟩ := fatSet_spec g h₁ hc 0 (.inl rfl)
      rcases hs : fatSet v cluster 0 fs₁ with ⟨ok, fs₂⟩
      rw [hs] at hok h₂ hb
      subst hok
      simp only [Round.more.injEq] at hb
      subst hb
      have h₃ : Reads v { fs₂ with
          freeCount := if fs₂.freeCount ≠ 0xFFFFFFFF then fs₂.freeCount + 1 else fs₂.freeCount
          freeHint := if cluster < fs₂.freeHint then cluster else fs₂.freeHint }
          (update f cluster (0 % 268435456)) d :=
        ⟨⟨h₂.ok.served, h₂.ok.lba, h₂.ok.clean, h₂.ok.memo⟩, h₂.fat, h₂.data⟩
      refine ⟨⟨_, _, h₃⟩, ?_⟩
      simp only [h₃.fat, h.fat, if_pos hgo, usedClusters]
      by_cases h0 : f cluster = 0
      · have hsame : update f cluster (0 % 268435456) = f := by
          rw [← h0]
          simp [h0]
        rw [hsame, h0, if_neg (by omega)]
        omega
      · have htake := freeClusters_take (f := update f cluster (0 % 268435456)) hc
          (by simp) h0 fun y hy => by rw [update_of_ne hy]
        have hle := freeClusters_le v (update f cluster (0 % 268435456))
        split <;> omega
  · exact absurd hb (by simp)

/-! ## What a walk leaves alone -/

/-- The sectors that a walk may look at are as they were: all of them if the
cached FAT sector had nothing to write back, those behind the FAT otherwise. -/
structure Quiet (v : Vol) (fs fs' : Fs) : Prop where
  disk : ∀ lba, fs.fatCacheDirty = false ∨ v.dataLba ≤ lba → fs'.disk lba = fs.disk lba
  clean : fs.fatCacheDirty = false → fs'.fatCacheDirty = false

theorem Quiet.refl (fs : Fs) : Quiet v fs fs := ⟨fun _ _ => rfl, id⟩

theorem Quiet.trans {fs'' : Fs} (h : Quiet v fs fs') (h' : Quiet v fs' fs'') : Quiet v fs fs'' :=
  ⟨fun lba hl => (h'.disk lba (hl.imp_left h.clean)).trans (h.disk lba hl), fun hc => h'.clean (h.clean hc)⟩

theorem flush_quiet (g : v.Geometry) (h : Reads v fs f d) : Quiet v fs (fatCacheFlush v fs).2 := by
  rw [fatCacheFlush]
  split
  · exact .refl fs
  · rename_i hdirty
    simp only [Bool.or_eq_true, Bool.not_eq_true', beq_iff_eq, not_or, Bool.not_eq_false] at hdirty
    have hlba := h.ok.lba.resolve_left hdirty.2
    obtain ⟨disk, images, answers, heq, hwrote, -⟩ := flushCopies_any (v := v) v.numFats 0 fs
    have hdata : ∀ lba, v.dataLba ≤ lba → disk lba = fs.disk lba := by
      intro lba hl
      rcases hwrote lba with h' | ⟨-, j, -, hj, rfl⟩
      · exact h'
      · have := (g.copy_lba (i := j) (by omega) hlba).1
        omega
    rcases hfl : flushCopies v v.numFats 0 fs with ⟨ok, fs₁⟩
    rw [hfl] at heq
    subst heq
    have hquiet : ∀ lba, fs.fatCacheDirty = false ∨ v.dataLba ≤ lba → disk lba = fs.disk lba := by
      rintro lba (hc | hl)
      · exact absurd (hc.symm.trans hdirty.1) (by decide)
      · exact hdata lba hl
    cases ok with
    | false => exact ⟨hquiet, fun hc => hc⟩
    | true => exact ⟨hquiet, fun _ => rfl⟩

theorem load_quiet (g : v.Geometry) (h : Reads v fs f d) (c : Nat) :
    Quiet v fs (fatCacheLoad v c fs).2 := by
  have hflush := flush_quiet g h
  have hserved := (flush_spec g h).2.1.ok.served
  rw [fatCacheLoad]
  split
  · exact .refl fs
  · rcases hf : fatCacheFlush v fs with ⟨ok, fs₁⟩
    rw [hf] at hflush hserved
    cases ok with
    | false => exact hflush
    | true =>
      simp only at hserved
      simp only [blockdevRead, hserved]
      by_cases hin : inRange v (v.fatLba + c / PER_FAT_SECTOR) 1 = true
      · simp only [hin, Bool.not_true, Bool.false_eq_true, if_false]
        exact ⟨hflush.disk, hflush.clean⟩
      · simp only [hin, Bool.not_false, if_true]
        exact ⟨hflush.disk, hflush.clean⟩

theorem fatGet_quiet (g : v.Geometry) (h : Reads v fs f d) (c : Nat) :
    Quiet v fs (fatGet v c fs).2 := by
  have hload := load_quiet g h c
  rw [fatGet]
  split
  · exact .refl fs
  · rcases hl : fatCacheLoad v c fs with ⟨ok, fs₁⟩
    rw [hl] at hload
    cases ok <;> exact hload

theorem chainStep_quiet (g : v.Geometry) (k cur : Nat) (h : Reads v fs f d) :
    Quiet v fs (chainStep v k cur fs).2 := by
  induction k generalizing cur fs with
  | zero => exact .refl fs
  | succ k ih =>
    obtain ⟨-, h₁, -⟩ := fatGet_spec g h cur
    have hq := fatGet_quiet g h cur
    rw [chainStep]
    simp only
    split
    · exact hq
    · exact hq.trans (ih _ h₁)

theorem chainNth_quiet (g : v.Geometry) (h : Reads v fs f d) (first index : Nat) :
    Quiet v fs (chainNth v first index fs).2 := by
  rw [chainNth]
  split
  · exact .refl fs
  · have hstep : ∀ {k cur r fs₁}, chainStep v k cur fs = (r, fs₁) → Quiet v fs fs₁ :=
      fun {k cur _ _} heq => by simpa [heq] using chainStep_quiet g k cur h
    simp only
    split
    · rename_i heq
      exact hstep heq
    · rename_i heq
      exact ⟨(hstep heq).disk, (hstep heq).clean⟩

/-! ## The slots of a chain, whatever it is -/

/-- Slot `i` of the chain from `head` on, and where it is: nothing behind the
end of the chain or of the device. -/
def slotOn (v : Vol) (f : Nat → Nat) (disk : Nat → Mem) (head i : Nat) : Option (Mem × Pos) :=
  if head < 2 then none
  else
    match nth f (i / v.perCluster) head with
    | none => none
    | some c =>
      let lba := u32 (clusterLba v c + i % v.perCluster / PER_SECTOR)
      let off := i % v.perCluster % PER_SECTOR * DIRENT_SIZE
      if inRange v lba 1 then some (entryOf ((disk lba).shift off), ⟨lba, off⟩) else none

/-- The cached FAT sector is written back, or the chain stays in the volume. -/
def Settled (v : Vol) (fs : Fs) (head : Nat) : Prop :=
  fs.fatCacheDirty = false ∨ ∀ i c, nth (fs.fat v) i head = some c → v.has c = true

theorem nth_ge_two {f : Nat → Nat} {i c x : Nat} (hc : 2 ≤ c) (h : nth f i c = some x) : 2 ≤ x := by
  induction i generalizing c with
  | zero =>
    exact Option.some.inj h ▸ hc
  | succ i ih =>
    rw [nth, follow] at h
    split at h
    · exact absurd h (by simp)
    · exact ih (by omega) h

theorem look (g : v.Geometry) {fs₀ : Fs} (h₀ : Reads v fs₀ f d) (hs : Settled v fs₀ head)
    (h : Reads v fs f d) (hq : Quiet v fs₀ fs) (i : Nat) :
    ∃ fs', dirEntryAt v head i fs = (slotOn v f fs₀.disk head i, fs') ∧ Reads v fs' f d ∧
      Quiet v fs₀ fs' := by
  obtain ⟨hnth, h₁⟩ := chainNth_spec g h head (i / v.perCluster)
  have hq₁ := hq.trans (chainNth_quiet g h head (i / v.perCluster))
  rw [dirEntryAt]
  rcases hc : chainNth v head (i / v.perCluster) fs with ⟨cluster, fs₁⟩
  rw [hc] at hnth h₁ hq₁
  simp only at hnth h₁ hq₁ ⊢
  refine ⟨fs₁, ?_, h₁, hq₁⟩
  rw [slotOn]
  by_cases hhead : head < 2
  · rw [if_pos hhead] at hnth ⊢
    rw [if_pos hnth]
  rw [if_neg hhead] at hnth ⊢
  cases hx : nth f (i / v.perCluster) head with
  | none =>
    rw [hx] at hnth
    rw [if_pos (show cluster = 0 from hnth)]
  | some c =>
    rw [hx] at hnth
    obtain rfl : cluster = c := hnth
    have hge := nth_ge_two (by omega) hx
    rw [if_neg (by omega)]
    simp only
    generalize hlba : u32 (clusterLba v cluster + i % v.perCluster / PER_SECTOR) = lba
    by_cases hin : inRange v lba 1 = true
    · -- the sector is as it was at the start
      have hsec : fs₁.disk lba = fs₀.disk lba := by
        refine hq₁.disk lba (hs.imp_right fun hin => ?_)
        rw [h₀.fat] at hin
        have hhas := hin _ _ hx
        have := g.cluster_fits hhas
        have := g.small
        have := slot_sector i g.perCluster_pos
        rw [← hlba, u32_of_lt (by omega)]
        exact Nat.le_trans (g.dataLba_le hhas) (Nat.le_add_right _ _)
      rw [if_pos hin, blockdevRead_served h₁.ok.served hin]
      simp only [Prod.mk.injEq, Option.some.injEq, and_true]
      funext k
      simp only [Mem.copyAt_apply, Mem.shift_apply, entryOf, Fs.sectorsFrom]
      by_cases hk : k < DIRENT_SIZE
      · have hoff : i % v.perCluster % PER_SECTOR * DIRENT_SIZE + k < BLOCK_SECTOR_SIZE := by
          simp only [PER_SECTOR, BLOCK_SECTOR_SIZE, DIRENT_SIZE] at *
          omega
        rw [if_pos (by omega), if_pos hk, if_pos (by omega), Nat.sub_zero, Nat.sub_zero,
          Nat.div_eq_of_lt hoff, Nat.mod_eq_of_lt hoff, Nat.add_zero, hsec]
      · rw [if_neg (by omega), if_neg hk]
    · rw [if_neg hin, blockdevRead, if_pos (by simpa using hin)]

/-! ## The loops without a bound -/

/-- The slot the walk is at in its `n`-th round. -/
def walkSlot (v : Vol) (fs : Fs) (head n : Nat) : Option (Mem × Pos) :=
  slotOn v (fs.fat v) fs.disk head (u32 n)

theorem u32_succ (n : Nat) : u32 (u32 n + 1) = u32 (n + 1) := by simp [u32]

/-- `short_name_taken` stops at such a slot. -/
def TakenExit (short11 : List UInt8) : Option (Mem × Pos) → Prop
  | none => True
  | some (ent, _) =>
      ent 0 = ENTRY_END ∨ (ent 0 ≠ ENTRY_FREE ∧ isLfn ent = false ∧ ent.bytes 0 11 = short11)

/-- `dir_free_entries` stops at such a slot. -/
def FreeExit (victim : Node) : Option (Mem × Pos) → Prop
  | none => True
  | some (ent, pos) =>
      ent 0 = ENTRY_END ∨ (pos.lba = victim.fsDirentLba ∧ pos.off = victim.fsDirentOff)

/-- A walk from slot to slot, whose rounds only differ in the slots they are
over at. -/
theorem walk_finishes_iff {β : Type} {round : Nat × Fs → Round (Nat × Fs) β}
    {Exit : Option (Mem × Pos) → Prop} (g : v.Geometry) (hok : fs.Ok v) (hs : Settled v fs head)
    (hround : ∀ i fs₁ slot fs₂, dirEntryAt v head i fs₁ = (slot, fs₂) →
      (Exit slot → ∃ b, round (i, fs₁) = .over b) ∧
      (¬ Exit slot → round (i, fs₁) = .more (u32 (i + 1), fs₂))) :
    Finishes round (0, fs) ↔ ∃ n, Exit (walkSlot v fs head n) := by
  refine finishes_iff_exit (R := fun n s => s.1 = u32 n ∧ Reads v s.2 (fs.fat v) (fs.data v) ∧
    Quiet v fs s.2) (fun n s hR hexit => ?_) (fun n s hR hexit => ?_) ⟨rfl, hok.reads, .refl fs⟩
  all_goals
    obtain ⟨i, fs₁⟩ := s
    obtain ⟨rfl, h, hq⟩ := hR
    obtain ⟨fs₂, heq, h₂, hq₂⟩ := look g hok.reads hs h hq (u32 n)
    obtain ⟨hover, hmore⟩ := hround _ _ _ _ heq
  · exact hover hexit
  · exact ⟨_, hmore hexit, u32_succ n, h₂, hq₂⟩

theorem taken_finishes_iff (g : v.Geometry) (hok : fs.Ok v) (hs : Settled v fs head)
    (short11 : List UInt8) :
    Finishes (takenRound v head short11) (0, fs) ↔
      ∃ n, TakenExit short11 (walkSlot v fs head n) := by
  refine walk_finishes_iff g hok hs fun i fs₁ slot fs₂ heq => ?_
  simp only [takenRound, heq]
  rcases slot with _ | ⟨ent, pos⟩
  · simp [TakenExit]
  · simp only [TakenExit]
    split_ifs with hend hsame <;> simp [*]

theorem free_finishes_iff (g : v.Geometry) (hok : fs.Ok v) (hs : Settled v fs head)
    (victim : Node) :
    Finishes (freeRound v head victim) (0, fs) ↔ ∃ n, FreeExit victim (walkSlot v fs head n) := by
  refine walk_finishes_iff g hok hs fun i fs₁ slot fs₂ heq => ?_
  simp only [freeRound, heq]
  rcases slot with _ | ⟨ent, pos⟩
  · simp [FreeExit]
  · simp only [FreeExit]
    split_ifs with hend hsame <;> simp [*]

/-! ## `populate` -/

/-- The long name before slot `n` of a walk. -/
def lfnBefore (slot : Nat → Option (Mem × Pos)) : Nat → Lfn
  | 0 => noLfn
  | n + 1 =>
      match slot n with
      | none => lfnBefore slot n
      | some (ent, _) => (entryStep (lfnBefore slot n) ent).1

/-- Slot `n` of a walk makes a node. -/
def makesNode (slot : Nat → Option (Mem × Pos)) (n : Nat) : Bool :=
  match slot n with
  | none => false
  | some (ent, _) => (entryStep (lfnBefore slot n) ent).2.isSome

/-- How many nodes the slots before `n` make. -/
def nodesBefore (slot : Nat → Option (Mem × Pos)) : Nat → Nat
  | 0 => 0
  | n + 1 => nodesBefore slot n + if makesNode slot n then 1 else 0

/-- How many blocks the pool will get, of at most so many. -/
def blocksToCome : List Bool → Nat → Nat
  | true :: grants, left + 1 => blocksToCome grants left + 1
  | _, _ => 0

/-- How many nodes the pool has to give. -/
def State.room (s : State) : Nat :=
  s.freeList.length + VFS_NODES_PER_BLOCK * blocksToCome s.grants (VFS_MAX_BLOCKS - s.blocks)

/-- `populate` stops at slot `n`. -/
def PopulateExit (slot : Nat → Option (Mem × Pos)) (room n : Nat) : Prop :=
  match slot n with
  | none => True
  | some (ent, _) => ent 0 = ENTRY_END ∨ (makesNode slot n = true ∧ room ≤ nodesBefore slot n)

/-- The pool does not hold the node: it is neither free nor still to come. -/
structure OutOfPool (s : State) (dir : Nat) : Prop where
  free : dir ∉ s.freeList
  old : dir < s.blocks * VFS_NODES_PER_BLOCK

variable {s s' : State} {dir n : Nat}

/-- The numbers of a new block of nodes, in the order they are given out. -/
def newBlock (blocks : Nat) : List Nat :=
  ((List.range VFS_NODES_PER_BLOCK).map (blocks * VFS_NODES_PER_BLOCK + ·)).reverse

theorem nodeAlloc_cases (s : State) :
    (∃ n rest, s.freeList = n :: rest ∧
      nodeAlloc s = (some n, { s with freeList := rest }.set n { blank with inUse := true })) ∨
    (∃ n rest grants, s.freeList = [] ∧ s.blocks < VFS_MAX_BLOCKS ∧ s.grants = true :: grants ∧
      newBlock s.blocks = n :: rest ∧
      nodeAlloc s = (some n, { s with grants := grants, blocks := s.blocks + 1, freeList := rest }.set n
        { blank with inUse := true })) ∨
    ∃ grants, s.freeList = [] ∧ nodeAlloc s = (none, { s with grants := grants }) ∧
      (VFS_MAX_BLOCKS ≤ s.blocks ∧ grants = s.grants ∨
        s.blocks < VFS_MAX_BLOCKS ∧ (s.grants = [] ∧ grants = [] ∨ s.grants = false :: grants)) := by
  rcases s with ⟨nodes, _ | ⟨m, rest⟩, blocks, grants, root, fs⟩
  · rw [nodeAlloc, if_pos rfl, growPool]
    by_cases hmax : blocks ≥ VFS_MAX_BLOCKS
    · rw [if_pos hmax]
      exact .inr (.inr ⟨grants, rfl, rfl, .inl ⟨hmax, rfl⟩⟩)
    · rw [if_neg hmax]
      have hlt := Nat.lt_of_not_ge hmax
      rcases grants with _ | ⟨_ | _, grants⟩
      · exact .inr (.inr ⟨[], by simp, rfl, .inr ⟨hlt, .inl (by simp)⟩⟩)
      · exact .inr (.inr ⟨grants, rfl, rfl, .inr ⟨hlt, .inr rfl⟩⟩)
      · simp only [List.append_nil]
        cases hb : newBlock blocks with
        | nil => simpa [newBlock, VFS_NODES_PER_BLOCK] using congrArg List.length hb
        | cons m rest =>
          rw [newBlock] at hb
          rw [hb]
          exact .inr (.inl ⟨m, rest, grants, trivial, hlt, rfl, rfl, rfl⟩)
  · exact .inl ⟨m, rest, rfl, rfl⟩

theorem nodeAlloc_some (h : nodeAlloc s = (some n, s')) (hdir : OutOfPool s dir) :
    s.room = s'.room + 1 ∧ s'.fs = s.fs ∧ OutOfPool s' dir ∧ dir ≠ n ∧ s'.nodes dir = s.nodes dir := by
  rcases nodeAlloc_cases s with ⟨m, rest, hl, heq⟩ | ⟨m, rest, grants, hl, hmax, hg, hb, heq⟩ | ⟨_, _, heq, _⟩
  · obtain ⟨rfl, rfl⟩ : m = n ∧ _ = s' := by simpa [heq] using h
    have hnot := hdir.free
    rw [hl, List.mem_cons, not_or] at hnot
    refine ⟨?_, rfl, ⟨hnot.2, hdir.old⟩, hnot.1, update_of_ne hnot.1 _ _⟩
    simp only [State.room, State.set, hl, List.length_cons]
    omega
  · obtain ⟨rfl, rfl⟩ : m = n ∧ _ = s' := by simpa [heq] using h
    have hnot : dir ∉ m :: rest := by
      simp only [← hb, newBlock, List.mem_reverse, List.mem_map, List.mem_range, not_exists, not_and]
      intro k _ hk
      have := hdir.old
      omega
    rw [List.mem_cons, not_or] at hnot
    have hlen : rest.length + 1 = VFS_NODES_PER_BLOCK := by
      have := congrArg List.length hb
      simpa [newBlock] using this.symm
    have hleft : VFS_MAX_BLOCKS - s.blocks = VFS_MAX_BLOCKS - (s.blocks + 1) + 1 := by omega
    refine ⟨?_, rfl, ⟨hnot.2, ?_⟩, hnot.1, update_of_ne hnot.1 _ _⟩
    · rw [State.room, hl, hg, hleft, blocksToCome, Nat.mul_succ, State.room]
      simp only [State.set, List.length_nil]
      omega
    · have := hdir.old
      simp only [State.set, VFS_NODES_PER_BLOCK] at *
      omega
  · rw [heq] at h
    exact absurd h (by simp)

theorem nodeAlloc_none (h : nodeAlloc s = (none, s')) : s.room = 0 := by
  rcases nodeAlloc_cases s with ⟨m, rest, _, heq⟩ | ⟨m, rest, grants, _, _, _, _, heq⟩ | ⟨grants, hl, _, hwhy⟩
  · rw [heq] at h
    exact absurd h (by simp)
  · rw [heq] at h
    exact absurd h (by simp)
  · rw [State.room, hl]
    rcases hwhy with ⟨hmax, -⟩ | ⟨-, ⟨hg, -⟩ | hg⟩
    · rw [show VFS_MAX_BLOCKS - s.blocks = 0 by omega]
      cases s.grants with
      | nil => rfl
      | cons b _ => cases b <;> rfl
    · rw [hg]
      rfl
    · rw [hg]
      rfl

theorem entryKind_reads (h : Reads v fs f d) (e : DirEntry) : (entryKind v e fs).2.2 = fs := by
  have hlook : (looksLikeSymlink v e.cluster e.size fs).2 = fs := by
    rw [looksLikeSymlink]
    split
    · rfl
    · split
      · rfl
      · rw [blockdevRead, h.ok.served]
        by_cases hin : inRange v (clusterLba v e.cluster) 1 = true <;> simp [hin]
  rw [entryKind]
  split
  · rfl
  · split
    · rcases hl : looksLikeSymlink v e.cluster e.size fs with ⟨b, fs₁⟩
      rw [hl] at hlook
      cases b <;> exact hlook
    · rfl

/-- What is true of `populate` in its `n`-th round. -/
structure Populating (v : Vol) (dir head : Nat) (s₀ : State) (n : Nat) (s : Nat × Lfn × State) :
    Prop where
  index : s.1 = u32 n
  lfn : s.2.1 = lfnBefore (walkSlot v s₀.fs head) n
  reads : Reads v s.2.2.fs (s₀.fs.fat v) (s₀.fs.data v)
  quiet : Quiet v s₀.fs s.2.2.fs
  cluster : (s.2.2.nodes dir).fsCluster = head
  pool : OutOfPool s.2.2 dir
  room : s₀.room = s.2.2.room + nodesBefore (walkSlot v s₀.fs head) n

theorem populate_finishes_iff (g : v.Geometry) (s₀ : State) (hok : s₀.fs.Ok v)
    (hcluster : (s₀.nodes dir).fsCluster = head) (hs : Settled v s₀.fs head)
    (hpool : OutOfPool s₀ dir) :
    Finishes (populateRound v dir) (0, noLfn, s₀) ↔
      ∃ n, PopulateExit (walkSlot v s₀.fs head) s₀.room n := by
  refine finishes_iff_exit (R := Populating v dir head s₀) (fun n s hR hexit => ?_)
    (fun n s hR hexit => ?_)
    ⟨rfl, rfl, hok.reads, .refl _, hcluster, hpool, rfl⟩
  all_goals
    obtain ⟨i, lfn, s⟩ := s
    obtain ⟨rfl, rfl, h, hq, hhead, hout, hroom⟩ := hR
    simp only at h hq hhead hout hroom
    obtain ⟨fs₂, heq, h₂, hq₂⟩ := look g hok.reads hs h hq (u32 n)
    have hslot : slotOn v (s₀.fs.fat v) s₀.fs.disk head (u32 n) = walkSlot v s₀.fs head n := rfl
    simp only [populateRound, hhead, heq, hslot]
    generalize hwalk : walkSlot v s₀.fs head = slot at *
    rw [PopulateExit] at hexit
    rcases hn : slot n with _ | ⟨ent, pos⟩
    all_goals rw [hn] at hexit; simp only at hexit ⊢
  · exact ⟨_, rfl⟩
  · by_cases hend : ent 0 = ENTRY_END
    · exact ⟨_, if_pos hend⟩
    · rw [if_neg hend]
      obtain ⟨hmakes, hfull⟩ := hexit.resolve_left hend
      simp only [makesNode, hn] at hmakes
      rcases hstep : entryStep (lfnBefore slot n) ent with ⟨lfn, _ | e⟩
      · rw [hstep] at hmakes
        exact absurd hmakes (by simp)
      · have hfs := entryKind_reads h₂ e
        rcases hk : entryKind v e fs₂ with ⟨kind, size, fs₃⟩
        simp only [hk]
        rcases ha : nodeAlloc (s.onDisk fs₃) with ⟨_ | m, s₁⟩
        · exact ⟨_, rfl⟩
        · obtain ⟨hroom₁, -⟩ := nodeAlloc_some ha (show OutOfPool _ dir from ⟨hout.free, hout.old⟩)
          have : (s.onDisk fs₃).room = s.room := rfl
          omega
  · exact absurd trivial hexit
  · rw [not_or] at hexit
    rw [if_neg hexit.1]
    rcases hstep : entryStep (lfnBefore slot n) ent with ⟨lfn, _ | e⟩
    · refine ⟨_, rfl, u32_succ n, ?_, h₂, hq₂, hhead, ⟨hout.free, hout.old⟩, ?_⟩
      · rw [hwalk, lfnBefore, hn]
        simp only [hstep]
      · have hsame : (s.onDisk fs₂).room = s.room := rfl
        rw [hwalk, nodesBefore, makesNode, hn, hsame]
        simpa [hstep] using hroom
    · have hmakes : makesNode slot n = true := by
        rw [makesNode, hn]
        simp [hstep]
      have hfs := entryKind_reads h₂ e
      rcases hk : entryKind v e fs₂ with ⟨kind, size, fs₃⟩
      rw [hk] at hfs
      subst hfs
      simp only [hk]
      rcases ha : nodeAlloc (s.onDisk fs₃) with ⟨_ | m, s₁⟩
      · have hnone := nodeAlloc_none ha
        have : (s.onDisk fs₃).room = s.room := rfl
        exact absurd (show s₀.room ≤ nodesBefore slot n by omega) fun hle => hexit.2 ⟨hmakes, hle⟩
      · obtain ⟨hroom₁, hfs₁, hout₁, hne, hnode⟩ :=
          nodeAlloc_some ha (show OutOfPool _ dir from ⟨hout.free, hout.old⟩)
        have hsame : (s.onDisk fs₃).room = s.room := rfl
        refine ⟨_, rfl, u32_succ n, ?_, ?_, ?_, ?_, ?_, ?_⟩
        · rw [hwalk, lfnBefore, hn]
          simp only [hstep]
        · simpa [dirAppend, State.set, hfs₁, State.onDisk] using h₂
        · simpa [dirAppend, State.set, hfs₁, State.onDisk] using hq₂
        · simp only [dirAppend, State.set, update_self, update_of_ne hne, hnode]
          exact hhead
        · exact ⟨hout₁.free, hout₁.old⟩
        · rw [hwalk, nodesBefore, hmakes]
          have : (dirAppend dir m (s₁.set m (entryNode e kind size pos))).room = s₁.room := rfl
          simp only [this, if_true]
          omega

/-- Whatever is in the FAT and the clusters: `chain_length`, `free_chain` and
the scan of `dir_find_slots` come to an end, and the three other walks exactly
when the slots, counted on from 0 again behind 2^32, have one at which they
stop. -/
theorem walks_finish (g : v.Geometry) (fs : Fs) (hok : fs.Ok v) :
    (∀ first, Finishes (lengthRound v) (0, first, fs)) ∧
    (∀ cluster, Finishes (freeChainRound v) (cluster, fs)) ∧
    (∀ head count total, Finishes (findRound v head count total) (0, 0, fs)) ∧
    (∀ head short11, Settled v fs head → (Finishes (takenRound v head short11) (0, fs) ↔
      ∃ n, TakenExit short11 (walkSlot v fs head n))) ∧
    (∀ head victim, Settled v fs head → (Finishes (freeRound v head victim) (0, fs) ↔
      ∃ n, FreeExit victim (walkSlot v fs head n))) ∧
    ∀ (s : State) (dir head : Nat), s.fs = fs → (s.nodes dir).fsCluster = head → OutOfPool s dir →
      Settled v fs head → (Finishes (populateRound v dir) (0, noLfn, s) ↔
        ∃ n, PopulateExit (walkSlot v fs head) s.room n) := by
  refine ⟨fun first => length_finishes 0 first fs, freeChain_finishes g hok.reads,
    fun head count total => find_finishes head count total 0 0 fs,
    fun head short11 hs => taken_finishes_iff g hok hs short11,
    fun head victim hs => free_finishes_iff g hok hs victim, ?_⟩
  rintro s dir head rfl hcluster hpool hs
  exact populate_finishes_iff g s hok hcluster hs hpool

/-- The small volume with a root directory whose only cluster leads to itself
and has nothing but deleted entries. -/
def loopFs : Fs :=
  { smallFs with
    disk := fun lba => if lba = 1 then Mem.wr32 (fun _ => 0) 8 2 else fun _ => ENTRY_FREE }

theorem loopFs_ok : loopFs.Ok smallVol :=
  ⟨rfl, .inl rfl, fun _ h => absurd rfl h, fun h => absurd h (by decide)⟩

theorem loopFs_nth (i : Nat) : nth (loopFs.fat smallVol) i 2 = some 2 := by
  induction i with
  | zero => rfl
  | succ i ih =>
    have hfollow : follow (loopFs.fat smallVol) 2 = some 2 := by decide
    rw [nth, hfollow]
    exact ih

theorem loopFs_slot (n : Nat) :
    ∃ ent pos, walkSlot smallVol loopFs 2 n = some (ent, pos) ∧ ent 0 = ENTRY_FREE := by
  have hper : smallVol.perCluster = 16 := rfl
  have hsec : u32 n % 16 / PER_SECTOR = 0 := Nat.div_eq_of_lt (Nat.mod_lt _ (by decide))
  rw [walkSlot, slotOn, if_neg (by decide), loopFs_nth, hper]
  simp only [hsec]
  exact ⟨_, _, rfl, rfl⟩

/-- The same volume with an end mark in the fourth slot. -/
def markedFs : Fs :=
  { loopFs with
    disk := fun lba => if lba = 1 then loopFs.disk 1 else fun i => if i = 96 then ENTRY_END else ENTRY_FREE }

/-- On a chain that loops a walk finishes at an end mark, or at the entry it
looks for. -/
theorem walks_finish_looped :
    Finishes (takenRound smallVol 2 (pad 11 [])) (0, markedFs) ∧
      Finishes (freeRound smallVol 2 { smallRoot with fsDirentLba := smallVol.dataLba, fsDirentOff := 32 })
        (0, loopFs) := by
  have hmarked : markedFs.Ok smallVol := ⟨rfl, .inl rfl, fun _ h => absurd rfl h, fun h => absurd h (by decide)⟩
  constructor
  · obtain ⟨-, -, -, htaken, -⟩ := walks_finish smallVol_geometry markedFs hmarked
    refine (htaken 2 _ (.inl rfl)).mpr ⟨3, ?_⟩
    have hend : (walkSlot smallVol markedFs 2 3).all (fun slot => slot.1 0 == ENTRY_END) = true := by
      decide
    generalize walkSlot smallVol markedFs 2 3 = slot at hend ⊢
    rcases slot with _ | ⟨ent, pos⟩
    · trivial
    · exact .inl (by simpa using hend)
  · obtain ⟨-, -, -, -, hfree, -⟩ := walks_finish smallVol_geometry loopFs loopFs_ok
    exact (hfree 2 _ (.inl rfl)).mpr ⟨1, .inr ⟨by decide, by decide⟩⟩

/-- A scan for a short name that is not there never ends. -/
theorem walks_do_not_finish :
    ¬ ∀ (v : Vol) (fs : Fs), v.Geometry → fs.Ok v → ∀ (head : Nat) (short11 : List UInt8),
      Finishes (takenRound v head short11) (0, fs) := by
  intro h
  obtain ⟨n, hexit⟩ := (taken_finishes_iff smallVol_geometry loopFs_ok (.inl rfl) _).mp
    (h smallVol loopFs smallVol_geometry loopFs_ok 2 (pad 11 []))
  obtain ⟨ent, pos, hslot, hfree⟩ := loopFs_slot n
  rw [hslot] at hexit
  rcases hexit with hend | hhit
  · exact absurd (hfree.symm.trans hend) (by decide)
  · exact hhit.1 hfree

end NovarisOS.Fat32
