/-
NovarisOS.Fat32.MemoTheorems — the memo of `chain_nth` over whole runs, with
volumes mounted and unmounted on the way.

While a volume is mounted the memo is the end of a walk (`Fs.Ok`). In the
other states it may be left over from the volume before, and only its start is
right: an index of 0 comes with the head itself (`MemoHead`). A mount makes
the first from the second, because the first slot it reads is that of index 0.
-/
import NovarisOS.Fat32.Walks
import NovarisOS.Fat32.Mount

namespace NovarisOS.Fat32

open Function (update)

/-! ## The calls -/

inductive MemoOp where
  | set (cluster value : UInt32)
  | alloc (prev : UInt32)
  | free (cluster : UInt32)
  | ensure (node : Nat) (need : UInt32)
  | nth (first index : UInt32)
  | mount (dir : Nat) (dev : Device) (grant : Bool)
  | unmount (parent : Nat)

def Kernel.onDisk (k : Kernel) (fs : Fs) : Kernel := { k with state := k.state.onDisk fs }

def Kernel.memoCall (k : Kernel) : MemoOp → Kernel
  | .set cluster value => k.onDisk (fatSet k.vol cluster.toNat value.toNat k.state.fs).2
  | .alloc prev => k.onDisk (allocCluster k.vol prev.toNat k.state.fs).2
  | .free cluster => k.onDisk (freeChain k.vol cluster.toNat k.state.fs)
  | .ensure node need =>
      match ensureChain k.vol (k.state.nodes node) need.toNat k.state.fs with
      | (_, node', fs) => { k with state := (k.state.set node node').onDisk fs }
  | .nth first index => k.onDisk (chainNth k.vol first.toNat index.toNat k.state.fs).2
  | .mount dir dev grant => (fat32Mount k dir dev grant).2
  | .unmount parent => (fat32Unmount k parent).2

def memoCalls : Machine Kernel MemoOp Unit := ⟨fun k op => (k.memoCall op, ())⟩

/-- The plain walk from the head. -/
def plainNth (v : Vol) (first index : Nat) (fs : Fs) : Nat :=
  if first < 2 then 0
  else
    match chainStep v index first fs with
    | (none, _) => 0
    | (some c, _) => c

/-- What `fat_set` may do so that the memo stays right: it empties it, it does
nothing, or the walk that is remembered still ends where it did. -/
def LinkKept (v : Vol) (fs : Fs) (cluster value : Nat) : Prop :=
  value = 0 ∨ value = FAT_MASK ∨ v.has cluster = false ∨ fs.memoCluster < 2 ∨
    nth (update (fs.fat v) cluster (value % 268435456)) fs.memoIndex fs.memoFirst =
      some fs.memoCluster

/-- The links made are as above, and a volume that is mounted is laid out as
the format says, on a device that answers. -/
def MemoKept (k : Kernel) : MemoOp → Prop
  | .set cluster value =>
      k.mounted = true → LinkKept k.vol k.state.fs cluster.toNat value.toNat
  | .mount _ dev _ =>
      dev.answers = [] ∧ ((probe k dev).1 = .ok () → (probe k dev).2.1.Geometry)
  | _ => True

/-! ## What an invariant has to survive -/

/-- The memo is the same. -/
structure SameMemo (fs fs' : Fs) : Prop where
  first : fs'.memoFirst = fs.memoFirst
  index : fs'.memoIndex = fs.memoIndex
  cluster : fs'.memoCluster = fs.memoCluster

variable {v : Vol} {fs fs' fs'' : Fs} {c x : Nat}

theorem SameMemo.refl (fs : Fs) : SameMemo fs fs := ⟨rfl, rfl, rfl⟩

theorem SameMemo.trans (h : SameMemo fs fs') (h' : SameMemo fs' fs'') : SameMemo fs fs'' :=
  ⟨h'.first.trans h.first, h'.index.trans h.index, h'.cluster.trans h.cluster⟩

theorem read_memo (lba count : Nat) (buf : Mem) (off : Nat) (fs : Fs) :
    SameMemo fs (blockdevRead v lba count buf off fs).2.2 := by
  rw [blockdevRead]
  split
  · exact .refl fs
  · split <;> exact ⟨rfl, rfl, rfl⟩

theorem write_memo (lba count : Nat) (buf : Mem) (fs : Fs) :
    SameMemo fs (blockdevWrite v lba count buf fs).2 := by
  have hput : ∀ fs₁ : Fs, SameMemo fs fs₁ → SameMemo fs (Fs.putSectors count lba buf fs₁) := by
    intro fs₁ h
    obtain ⟨disk, images, heq⟩ := putSectors_keeps count lba buf fs₁
    rw [heq]
    exact ⟨h.first, h.index, h.cluster⟩
  rw [blockdevWrite]
  split
  · exact .refl fs
  · split
    · exact ⟨rfl, rfl, rfl⟩
    · exact hput _ ⟨rfl, rfl, rfl⟩
    · exact hput _ (.refl fs)

theorem flush_memo (fs : Fs) : SameMemo fs (fatCacheFlush v fs).2 := by
  rw [fatCacheFlush]
  split
  · exact .refl fs
  · obtain ⟨disk, images, answers, heq, -⟩ := flushCopies_any (v := v) v.numFats 0 fs
    rcases hf : flushCopies v v.numFats 0 fs with ⟨ok, fs₁⟩
    rw [hf] at heq
    subst heq
    cases ok <;> exact ⟨rfl, rfl, rfl⟩

theorem load_memo (c : Nat) (fs : Fs) : SameMemo fs (fatCacheLoad v c fs).2 := by
  rw [fatCacheLoad]
  split
  · exact .refl fs
  · have hflush := flush_memo (v := v) fs
    rcases hf : fatCacheFlush v fs with ⟨ok, fs₁⟩
    rw [hf] at hflush
    cases ok with
    | false => exact hflush
    | true =>
      have hread := read_memo (v := v) (v.fatLba + c / PER_FAT_SECTOR) 1 fs₁.fatCache 0 fs₁
      rcases hr : blockdevRead v (v.fatLba + c / PER_FAT_SECTOR) 1 fs₁.fatCache 0 fs₁ with
        ⟨ok, buf, fs₂⟩
      rw [hr] at hread
      have hboth := hflush.trans hread
      simp only [hr]
      cases ok <;> exact ⟨hboth.first, hboth.index, hboth.cluster⟩

theorem get_memo (c : Nat) (fs : Fs) : SameMemo fs (fatGet v c fs).2 := by
  rw [fatGet]
  split
  · exact .refl fs
  · have hload := load_memo (v := v) c fs
    rcases hl : fatCacheLoad v c fs with ⟨ok, fs₁⟩
    rw [hl] at hload
    cases ok <;> exact hload

theorem set_memo (c value : Nat) (fs : Fs) :
    SameMemo fs (fatSet v c value fs).2 ∨ SameMemo (chainMemoForget fs) (fatSet v c value fs).2 := by
  rw [fatSet]
  split
  · exact .inl (.refl fs)
  · have hload := load_memo (v := v) c
      (if value = 0 ∨ value = FAT_MASK then chainMemoForget fs else fs)
    have hstart : ∀ fs₁ : Fs,
        SameMemo (if value = 0 ∨ value = FAT_MASK then chainMemoForget fs else fs) fs₁ →
          SameMemo fs fs₁ ∨ SameMemo (chainMemoForget fs) fs₁ := by
      intro fs₁ h
      split at h
      · exact .inr h
      · exact .inl h
    rcases hl : fatCacheLoad v c
      (if value = 0 ∨ value = FAT_MASK then chainMemoForget fs else fs) with ⟨ok, fs₁⟩
    rw [hl] at hload
    cases ok with
    | false => exact hstart _ hload
    | true => exact hstart _ ⟨hload.first, hload.index, hload.cluster⟩

theorem set_done {value : Nat} (h : (fatSet v c value fs).1 = true) :
    v.has c = true ∧ (value = 0 ∨ value = FAT_MASK → (fatSet v c value fs).2.memoCluster < 2) := by
  rw [fatSet] at h ⊢
  cases hc : v.has c with
  | false => simp [hc] at h
  | true =>
    refine ⟨rfl, fun hvalue => ?_⟩
    simp only [Bool.not_true, Bool.false_eq_true, if_false, if_pos hvalue]
    have hload := load_memo (v := v) c (chainMemoForget fs)
    rcases hl : fatCacheLoad v c (chainMemoForget fs) with ⟨ok, fs₁⟩
    rw [hl] at hload
    have hnone : fs₁.memoCluster < 2 := by
      rw [hload.cluster]
      simp [chainMemoForget]
    cases ok <;> exact hnone

/-- An invariant of a volume that its functions keep. -/
structure Kept (v : Vol) (P : Fs → Prop) : Prop where
  get : ∀ c fs, P fs → P (fatGet v c fs).2
  set : ∀ c value fs, P fs → value = 0 ∨ value = FAT_MASK ∨ fs.memoCluster < 2 →
    P (fatSet v c value fs).2
  nth : ∀ first index fs, P fs → P (chainNth v first index fs).2
  zero : ∀ c fs, P fs → v.has c = true → P (zeroCluster v c fs).2
  counts : ∀ fs hint count, P fs → P { fs with freeHint := hint, freeCount := count }

namespace Kept

variable {P : Fs → Prop} (hP : Kept v P)
include hP

theorem took (c : Nat) (fs : Fs) (h : P fs) : P (took c fs) := hP.counts fs _ _ h

theorem allocScan (prev left c : Nat) (fs : Fs) (h : P fs) :
    P (allocScan v prev left c fs).2 ∧
    ∀ x, (allocScan v prev left c fs).1 = some x → x ≠ 0 → v.has x = true := by
  induction left generalizing c fs with
  | zero => exact ⟨h, by simp [Fat32.allocScan]⟩
  | succ left ih =>
    rw [Fat32.allocScan]
    have h₁ := hP.get c fs h
    rcases hf : fatGet v c fs with ⟨e, fs₁⟩
    rw [hf] at h₁
    dsimp only
    split
    · exact ih _ _ h₁
    · have hdone := @set_done v fs₁ c FAT_MASK
      have h₂ := hP.set c FAT_MASK fs₁ h₁ (.inr (.inl rfl))
      rcases hs : fatSet v c FAT_MASK fs₁ with ⟨ok, fs₂⟩
      rw [hs] at hdone h₂
      cases ok with
      | false => exact ⟨h₂, fun x hx hx0 => absurd (Option.some.inj hx).symm hx0⟩
      | true =>
        obtain ⟨hhas, hforgot⟩ := hdone rfl
        have hnew : ∀ y, some c = some y → y ≠ 0 → v.has y = true := by
          rintro y hy -
          rw [← Option.some.inj hy]
          exact hhas
        dsimp only
        split
        · exact ⟨hP.took c fs₂ h₂, hnew⟩
        · have h₃ := hP.set prev c fs₂ h₂ (.inr (.inr (hforgot (.inr rfl))))
          rcases hs' : fatSet v prev c fs₂ with ⟨ok, fs₃⟩
          rw [hs'] at h₃
          cases ok with
          | false => exact ⟨h₃, fun x hx hx0 => absurd (Option.some.inj hx).symm hx0⟩
          | true => exact ⟨hP.took c fs₃ h₃, hnew⟩

theorem allocCluster (prev : Nat) (fs : Fs) (h : P fs) :
    P (allocCluster v prev fs).2 ∧
    ((allocCluster v prev fs).1 ≠ 0 → v.has (allocCluster v prev fs).1 = true) := by
  rw [Fat32.allocCluster]
  generalize (if fs.freeHint < 2 then 2 else fs.freeHint) = start
  obtain ⟨h₁, hhas⟩ := hP.allocScan prev (v.totalClusters + 2 - start) start fs h
  rcases hs : Fat32.allocScan v prev (v.totalClusters + 2 - start) start fs with ⟨_ | x, fs₁⟩
  · rw [hs] at h₁
    obtain ⟨h₂, hhas₂⟩ := hP.allocScan prev (start - 2) 2 fs₁ h₁
    dsimp only
    rcases hs₂ : Fat32.allocScan v prev (start - 2) 2 fs₁ with ⟨_ | x, fs₂⟩
    · rw [hs₂] at h₂
      exact ⟨h₂, fun hne => absurd rfl hne⟩
    · rw [hs₂] at h₂ hhas₂
      exact ⟨h₂, hhas₂ x rfl⟩
  · rw [hs] at h₁ hhas
    exact ⟨h₁, hhas x rfl⟩

theorem freeLoop (fuel c : Nat) (fs : Fs) (h : P fs) : P (freeLoop v fuel c fs) := by
  induction fuel generalizing c fs with
  | zero => exact h
  | succ fuel ih =>
    rw [Fat32.freeLoop]
    split
    · have h₁ := hP.get c fs h
      rcases hf : fatGet v c fs with ⟨next, fs₁⟩
      rw [hf] at h₁
      have h₂ := hP.set c 0 fs₁ h₁ (.inl rfl)
      dsimp only
      rcases hs : fatSet v c 0 fs₁ with ⟨ok, fs₂⟩
      rw [hs] at h₂
      cases ok with
      | false => exact h₂
      | true => exact ih _ _ (hP.counts fs₂ _ _ h₂)
    · exact h

theorem freeChain (c : Nat) (fs : Fs) (h : P fs) : P (freeChain v c fs) := hP.freeLoop _ _ _ h

theorem chainCount (left n cur : Nat) (fs : Fs) (h : P fs) : P (chainCount v left n cur fs).2 := by
  induction left generalizing n cur fs with
  | zero => exact h
  | succ left ih =>
    rw [Fat32.chainCount]
    split
    · have h₁ := hP.get cur fs h
      rcases hf : fatGet v cur fs with ⟨next, fs₁⟩
      rw [hf] at h₁
      exact ih _ _ _ h₁
    · exact h

theorem rollback (headWas had : Nat) (node : Node) (fs : Fs) (h : P fs) :
    P (rollback v headWas had node fs).2 := by
  rw [Fat32.rollback]
  split
  · exact hP.freeChain _ _ h
  · have h₁ := hP.nth headWas (lastOf had) fs h
    rcases hn : chainNth v headWas (lastOf had) fs with ⟨keep, fs₁⟩
    rw [hn] at h₁
    dsimp only
    split
    · exact h₁
    · have h₂ := hP.get keep fs₁ h₁
      rcases hf : fatGet v keep fs₁ with ⟨rest, fs₂⟩
      rw [hf] at h₂
      have h₃ := hP.set keep FAT_MASK fs₂ h₂ (.inr (.inl rfl))
      rcases hs : fatSet v keep FAT_MASK fs₂ with ⟨ok, fs₃⟩
      rw [hs] at h₃
      split
      · exact hP.freeChain _ _ h₃
      · exact h₃

theorem growChain (headWas had : Nat) (node : Node) (left cur : Nat) (fs : Fs) (h : P fs) :
    P (growChain v headWas had node left cur fs).2.2 := by
  induction left generalizing cur fs with
  | zero => exact h
  | succ left ih =>
    rw [Fat32.growChain]
    obtain ⟨h₁, hhas⟩ := hP.allocCluster cur fs h
    rcases ha : Fat32.allocCluster v cur fs with ⟨next, fs₁⟩
    rw [ha] at h₁ hhas
    dsimp only
    have hzeroed : P (if next = 0 then (false, fs₁) else zeroCluster v next fs₁).2 := by
      split
      · exact h₁
      · rename_i hne
        exact hP.zero next fs₁ h₁ (hhas hne)
    rcases hz : (if next = 0 then (false, fs₁) else zeroCluster v next fs₁) with ⟨ok, fs₂⟩
    rw [hz] at hzeroed
    cases ok with
    | true => exact ih _ _ hzeroed
    | false => exact hP.rollback headWas had node fs₂ hzeroed

theorem extendChain (headWas had need : Nat) (node : Node) (fs : Fs) (h : P fs) :
    P (extendChain v headWas had need node fs).2.2 := by
  rw [Fat32.extendChain]
  have h₁ := hP.nth node.fsCluster (lastOf had) fs h
  rcases hn : chainNth v node.fsCluster (lastOf had) fs with ⟨cur, fs₁⟩
  rw [hn] at h₁
  dsimp only
  split
  · exact h₁
  · exact hP.growChain _ _ _ _ _ _ h₁

theorem ensureChain (node : Node) (need : Nat) (fs : Fs) (h : P fs) :
    P (ensureChain v node need fs).2.2 := by
  rw [Fat32.ensureChain]
  split
  · exact h
  · have hlen : P (chainLength v node.fsCluster fs).2 := by
      rw [chainLength]
      split
      · exact h
      · exact hP.chainCount _ _ _ _ h
    rcases hc : chainLength v node.fsCluster fs with ⟨had, fs₁⟩
    rw [hc] at hlen
    dsimp only
    split
    · exact hlen
    · split
      · obtain ⟨h₂, hhas⟩ := hP.allocCluster 0 fs₁ hlen
        rcases ha : Fat32.allocCluster v 0 fs₁ with ⟨first, fs₂⟩
        rw [ha] at h₂ hhas
        split
        · exact h₂
        · rename_i hne
          have h₃ := hP.zero first fs₂ h₂ (hhas hne)
          rcases hz : zeroCluster v first fs₂ with ⟨ok, fs₃⟩
          rw [hz] at h₃
          cases ok with
          | false => exact hP.freeChain first fs₃ h₃
          | true => exact hP.extendChain _ _ _ _ fs₃ h₃
      · exact hP.extendChain _ _ _ _ fs₁ hlen

end Kept

/-! ## The two invariants -/

/-- A memo of index 0 is the head itself. -/
def MemoHead (fs : Fs) : Prop :=
  2 ≤ fs.memoCluster → fs.memoIndex = 0 → fs.memoCluster = fs.memoFirst

theorem SameMemo.head (h : SameMemo fs fs') (hfs : MemoHead fs) : MemoHead fs' := by
  simp only [MemoHead, h.first, h.index, h.cluster]
  exact hfs

theorem Fs.Ok.head (h : fs.Ok v) : MemoHead fs := by
  intro hm h0
  have hwalk := h.memo hm
  rw [h0] at hwalk
  exact (Option.some.inj hwalk).symm

theorem MemoHead.forget (fs : Fs) : MemoHead (chainMemoForget fs) :=
  fun hm => absurd hm (by simp [chainMemoForget])

theorem chainStep_memo (k cur : Nat) (fs : Fs) : SameMemo fs (chainStep v k cur fs).2 := by
  induction k generalizing cur fs with
  | zero => exact .refl fs
  | succ k ih =>
    have hget := get_memo (v := v) cur fs
    rw [chainStep]
    rcases hf : fatGet v cur fs with ⟨next, fs₁⟩
    rw [hf] at hget
    dsimp only
    split
    · exact hget
    · exact hget.trans (ih next fs₁)

theorem chainNth_zero {first : Nat} (h : MemoHead fs) (hfirst : 2 ≤ first) :
    chainNth v first 0 fs =
      (first, { fs with memoFirst := first, memoIndex := 0, memoCluster := first }) := by
  rw [chainNth, if_neg (by omega)]
  by_cases hmemo : 2 ≤ fs.memoCluster ∧ fs.memoFirst = first ∧ fs.memoIndex ≤ 0
  · obtain ⟨h₁, h₂, h₃⟩ := hmemo
    have hhead := h h₁ (Nat.le_zero.mp h₃)
    simp [h₂, Nat.le_zero.mp h₃, chainStep, hhead]
  · have hno : (decide (2 ≤ fs.memoCluster) && fs.memoFirst == first &&
        decide (fs.memoIndex ≤ 0)) = false := by
      simpa [and_assoc] using hmemo
    simp only [hno, Bool.false_eq_true, if_false, Nat.sub_zero, chainStep]

theorem chainNth_head (first index : Nat) (h : MemoHead fs) :
    MemoHead (chainNth v first index fs).2 := by
  rw [chainNth]
  split
  · exact h
  · rename_i hfirst
    dsimp only
    generalize hb : (decide (2 ≤ fs.memoCluster) && fs.memoFirst == first &&
      decide (fs.memoIndex ≤ index)) = b
    have hstep := chainStep_memo (v := v) (index - if b then fs.memoIndex else 0)
      (if b then fs.memoCluster else first) fs
    rcases hs : chainStep v (index - if b then fs.memoIndex else 0)
      (if b then fs.memoCluster else first) fs with ⟨_ | cur, fs₁⟩
    · rw [hs] at hstep
      exact hstep.head h
    · rintro - h0
      subst h0
      have hnth := @chainNth_zero v _ first h (by omega)
      rw [chainNth, if_neg hfirst] at hnth
      simp only [hb, hs] at hnth
      exact congrArg Prod.fst hnth

theorem head_kept (v : Vol) : Kept v MemoHead where
  get c fs h := (get_memo c fs).head h
  set c value fs h _ := (set_memo c value fs).elim (fun hm => hm.head h) fun hm => hm.head (.forget fs)
  nth first index _ h := chainNth_head first index h
  zero _ fs h _ := (write_memo _ _ _ fs).head h
  counts _ _ _ h := h

theorem ok_kept (g : v.Geometry) : Kept v (Fs.Ok v) where
  get c _ h := (fatGet_spec g h.reads c).2.1.ok
  set c value fs h hvalue := by
    cases hc : v.has c with
    | false =>
      rw [fatSet, if_pos (by simp [hc])]
      exact h
    | true => exact (fatSet_spec g h.reads hc value hvalue).2.1.ok
  nth first index _ h := (chainNth_spec g h.reads first index).2.ok
  zero c fs h hc := by
    obtain ⟨fs', heq, hr⟩ := zeroCluster_spec g h.reads hc
    rw [heq]
    exact hr.ok
  counts _ _ _ h := ⟨h.served, h.lba, h.clean, h.memo⟩

/-! ## A link -/

theorem fatSet_links (g : v.Geometry) (h : fs.Ok v) (hc : v.has c = true) {value : Nat}
    (hvalue : ¬ (value = 0 ∨ value = FAT_MASK)) :
    SameMemo fs (fatSet v c value fs).2 ∧
    (fatSet v c value fs).2.fat v = update (fs.fat v) c (value % 268435456) ∧
    ((2 ≤ fs.memoCluster → nth (update (fs.fat v) c (value % 268435456)) fs.memoIndex
      fs.memoFirst = some fs.memoCluster) → (fatSet v c value fs).2.Ok v) := by
  rw [fatSet, if_neg (by simp [hc]), if_neg hvalue]
  have hmemo := load_memo (v := v) c fs
  obtain ⟨hok, hq, hlba, -⟩ := load_spec g h.reads hc
  rcases hl : fatCacheLoad v c fs with ⟨ok, fs₁⟩
  rw [hl] at hmemo hok hq hlba
  subst hok
  refine ⟨⟨hmemo.first, hmemo.index, hmemo.cluster⟩, storeEntry_fat hq hc value hlba, fun hwalk => ?_⟩
  refine (storeEntry_spec hq hc value hlba fun hm => ?_).ok
  rw [hmemo.first, hmemo.index, hmemo.cluster]
  exact hwalk (hmemo.cluster ▸ hm)

theorem fatSet_memo (g : v.Geometry) (h : fs.Ok v) (c value : Nat) :
    (fatSet v c value fs).2.Ok v ↔ LinkKept v fs c value := by
  simp only [LinkKept]
  by_cases hvalue : value = 0 ∨ value = FAT_MASK
  · have hset := (ok_kept g).set c value fs h (or_assoc.mp (.inl hvalue))
    exact ⟨fun _ => or_assoc.mp (.inl hvalue), fun _ => hset⟩
  cases hc : v.has c with
  | false =>
    rw [fatSet, if_pos (by simp [hc])]
    exact ⟨fun _ => .inr (.inr (.inl rfl)), fun _ => h⟩
  | true =>
    obtain ⟨hmemo, hfat, hok⟩ := fatSet_links g h hc hvalue
    constructor
    · intro h'
      by_cases hm : fs.memoCluster < 2
      · exact .inr (.inr (.inr (.inl hm)))
      · have hwalk := h'.memo (by rw [hmemo.cluster]; omega)
        rw [hfat, hmemo.first, hmemo.index, hmemo.cluster] at hwalk
        exact .inr (.inr (.inr (.inr hwalk)))
    · rintro (h0 | hmask | hno | hm | hwalk)
      · exact absurd (.inl h0) hvalue
      · exact absurd (.inr hmask) hvalue
      · exact absurd hno (by decide)
      · exact hok fun hm' => absurd hm' (by omega)
      · exact hok fun _ => hwalk

/-! ## Mounting and unmounting -/

theorem read_served (h : fs.answers = []) (lba count : Nat) (buf : Mem) (off : Nat) :
    (blockdevRead v lba count buf off fs).2.2 = fs := by
  rw [blockdevRead]
  split
  · rfl
  · rw [h]

theorem dirEntryAt_ok (g : v.Geometry) (h : fs.Ok v) (head index : Nat) :
    (dirEntryAt v head index fs).2.Ok v := by
  have hnth := (ok_kept g).nth head (index / v.perCluster) fs h
  rw [dirEntryAt]
  rcases hn : chainNth v head (index / v.perCluster) fs with ⟨cluster, fs₁⟩
  rw [hn] at hnth
  dsimp only
  split
  · exact hnth
  · have hread := read_served (v := v) hnth.served
      (u32 (clusterLba v cluster + index % v.perCluster / PER_SECTOR)) 1 (fun _ => 0) 0
    rcases hr : blockdevRead v (u32 (clusterLba v cluster + index % v.perCluster / PER_SECTOR)) 1
      (fun _ => 0) 0 fs₁ with ⟨ok, sec, fs₂⟩
    rw [hr] at hread
    subst hread
    cases ok <;> exact hnth

theorem nodeAlloc_disk (s : State) : (nodeAlloc s).2.fs = s.fs := by
  have hgrow : (growPool s).2.fs = s.fs := by
    rw [growPool]
    split
    · rfl
    · split <;> rfl
  rw [nodeAlloc]
  have hstart : (if s.freeList = [] then growPool s else (true, s)).2.fs = s.fs := by
    split
    · exact hgrow
    · rfl
  rcases hs : (if s.freeList = [] then growPool s else (true, s)) with ⟨ok, s₁⟩
  rw [hs] at hstart
  cases ok with
  | false => exact hstart
  | true =>
    dsimp only
    split <;> exact hstart

theorem populateFrom_ok (g : v.Geometry) (dir left i : Nat) (lfn : Lfn) (s : State)
    (h : s.fs.Ok v) : (populateFrom v dir left i lfn s).fs.Ok v := by
  induction left generalizing i lfn s with
  | zero => exact h
  | succ left ih =>
    rw [populateFrom]
    have hslot := dirEntryAt_ok g h (s.nodes dir).fsCluster i
    rcases hd : dirEntryAt v (s.nodes dir).fsCluster i s.fs with ⟨_ | ⟨ent, pos⟩, fs⟩
    · rw [hd] at hslot
      exact hslot
    · rw [hd] at hslot
      dsimp only
      split
      · exact hslot
      · rcases entryStep lfn ent with ⟨lfn, _ | e⟩
        · exact ih _ _ _ hslot
        · have hkind := entryKind_reads hslot.reads e
          dsimp only
          rcases hk : entryKind v e fs with ⟨kind, size, fs₁⟩
          rw [hk] at hkind
          subst hkind
          have hnode := nodeAlloc_disk (s.onDisk fs₁)
          rcases ha : nodeAlloc (s.onDisk fs₁) with ⟨_ | n, s₁⟩
          · rw [ha] at hnode
            exact hnode ▸ hslot
          · rw [ha] at hnode
            refine ih _ _ _ ?_
            exact hnode ▸ hslot

theorem populateFrom_forget {dir : Nat} {s : State} (hhead : MemoHead s.fs)
    (hroot : 2 ≤ (s.nodes dir).fsCluster) (left : Nat) (lfn : Lfn) :
    populateFrom v dir (left + 1) 0 lfn s =
      populateFrom v dir (left + 1) 0 lfn (s.onDisk (chainMemoForget s.fs)) := by
  have hslot : dirEntryAt v (s.nodes dir).fsCluster 0 s.fs =
      dirEntryAt v ((s.onDisk (chainMemoForget s.fs)).nodes dir).fsCluster 0
        (s.onDisk (chainMemoForget s.fs)).fs := by
    have hnth : chainNth v (s.nodes dir).fsCluster 0 s.fs =
        chainNth v (s.nodes dir).fsCluster 0 (chainMemoForget s.fs) := by
      rw [chainNth_zero hhead hroot, chainNth_zero (.forget s.fs) hroot]
      rfl
    simp only [State.onDisk]
    rw [dirEntryAt, dirEntryAt, Nat.zero_div, hnth]
  rw [populateFrom, populateFrom, hslot]
  rfl

theorem probe_disk {k : Kernel} {dev : Device} (hans : dev.answers = []) :
    (probe k dev).2.2.2 = (onDevice dev k.state.fs) := by
  have hbpb : ∀ (v : Vol) (lba : Nat) (fs : Fs), fs.answers = [] →
      (readBpb v lba fs).2.2.2 = fs := by
    intro v lba fs hserved
    have hread := read_served (v := v) hserved lba 1 (fun _ => 0) 0
    rw [readBpb]
    rcases hr : blockdevRead v lba 1 (fun _ => 0) 0 fs with ⟨ok, bs, fs₁⟩
    rw [hr] at hread
    cases ok with
    | false => exact hread
    | true =>
      dsimp only
      repeat' split
      all_goals exact hread
  have hpart : ∀ (v : Vol) (fs : Fs), fs.answers = [] → (findPartition v fs).2 = fs := by
    intro v fs hserved
    have hread := read_served (v := v) hserved 0 1 (fun _ => 0) 0
    rw [findPartition]
    rcases hr : blockdevRead v 0 1 (fun _ => 0) 0 fs with ⟨ok, mbr, fs₁⟩
    rw [hr] at hread
    cases ok <;> exact hread
  have hfound := hpart (noVol dev.sectors k.vol.clock) (onDevice dev k.state.fs) hans
  rw [probe]
  rcases hp : findPartition (noVol dev.sectors k.vol.clock) (onDevice dev k.state.fs) with ⟨_ | lba, fs⟩
  · rw [hp] at hfound
    subst hfound
    exact hbpb _ _ _ hans
  · rw [hp] at hfound
    subst hfound
    exact hbpb _ _ _ hans

theorem probe_root {k : Kernel} {dev : Device} (h : (probe k dev).1 = .ok ()) :
    2 ≤ (probe k dev).2.1.rootCluster := by
  have hbpb : ∀ (v : Vol) (lba : Nat) (fs : Fs), (readBpb v lba fs).1 = .ok () →
      2 ≤ (readBpb v lba fs).2.1.rootCluster := by
    intro v lba fs
    rw [readBpb]
    rcases hr : blockdevRead v lba 1 (fun _ => 0) 0 fs with ⟨ok, bs, fs₁⟩
    cases ok with
    | false => simp
    | true =>
      dsimp only
      generalize (if bs.rd32 32 ≠ 0 then bs.rd32 32 else bs.rd16 19) = total
      split
      · simp
      · rename_i hok
        have hroot : 2 ≤ bs.rd32 44 := by
          simp only [Bool.or_eq_true, Bool.not_eq_true', not_or, Bool.not_eq_false, bpbOk,
            Bool.and_eq_true, decide_eq_true_eq] at hok
          exact hok.1.2
        split
        · simp
        · split
          · simp
          · exact fun _ => hroot
  rw [probe] at h ⊢
  rcases hp : findPartition (noVol dev.sectors k.vol.clock) (onDevice dev k.state.fs) with ⟨_ | lba, fs⟩
  · rw [hp] at h
    exact hbpb _ _ _ h
  · rw [hp] at h
    exact hbpb _ _ _ h

theorem readFsinfo_ok (h : fs.Ok v) (lba : Nat) : (readFsinfo v lba fs).Ok v := by
  have hread := read_served (v := v) h.served lba 1 (fun _ => 0) 0
  rw [readFsinfo]
  split
  · exact h
  · rcases hr : blockdevRead v lba 1 (fun _ => 0) 0 fs with ⟨ok, fi, fs₁⟩
    rw [hr] at hread
    subst hread
    cases ok with
    | false => exact h
    | true =>
      dsimp only
      split
      · exact ⟨h.served, h.lba, h.clean, h.memo⟩
      · exact h

/-- The invariant: a memo of index 0 is the head, and while a volume is
mounted all of the memo is right. -/
structure MemoInv (k : Kernel) : Prop where
  head : MemoHead k.state.fs
  live : k.mounted = true → k.vol.Geometry ∧ k.state.fs.Ok k.vol

variable {k k' : Kernel}

theorem MemoInv.of_ok (g : k.vol.Geometry) (h : k.state.fs.Ok k.vol) : MemoInv k :=
  ⟨h.head, fun _ => ⟨g, h⟩⟩

theorem MemoInv.keep (h : MemoInv k) (hvol : k'.vol = k.vol) (hmounted : k'.mounted = k.mounted)
    (hkeep : ∀ P, Kept k.vol P → P k.state.fs → P k'.state.fs) : MemoInv k' := by
  refine ⟨hkeep _ (head_kept k.vol) h.head, fun hm => ?_⟩
  obtain ⟨g, hok⟩ := h.live (hmounted ▸ hm)
  rw [hvol]
  exact ⟨g, hkeep _ (ok_kept g) hok⟩

theorem MemoInv.stale (h : MemoInv k) (hmemo : SameMemo k.state.fs k'.state.fs)
    (hmounted : k'.mounted = false) : MemoInv k' :=
  ⟨hmemo.head h.head, fun hm => absurd (hm.symm.trans hmounted) (by decide)⟩

theorem fat32Mount_inv (h : MemoInv k) (dir : Nat) {dev : Device} (grant : Bool)
    (hans : dev.answers = [])
    (hgeo : (probe k dev).1 = .ok () → (probe k dev).2.1.Geometry) :
    MemoInv (fat32Mount k dir dev grant).2 := by
  have hdisk := probe_disk (k := k) hans
  have hroot := @probe_root k dev
  rw [fat32Mount]
  split
  · exact h
  split
  · exact h
  split
  · exact h
  rename_i hoff
  have hoff : k.mounted = false := by simpa using hoff
  rcases hp : probe k dev with ⟨_ | _, v, fsinfo, fs⟩
  · rw [hp] at hdisk
    subst hdisk
    exact h.stale ⟨rfl, rfl, rfl⟩ hoff
  · rw [hp] at hdisk hroot hgeo
    simp only at hdisk hroot hgeo
    subst hdisk
    have g := hgeo trivial
    cases grant with
    | false => exact h.stale ⟨rfl, rfl, rfl⟩ hoff
    | true =>
      have hlive : ∀ s : State, MemoHead s.fs → s.fs.answers = [] → s.fs.fatCacheLba = 0 →
          (s.nodes dir).populated = false → (s.nodes dir).fsCluster = v.rootCluster →
          (populate v dir s).fs.Ok v := by
        intro s hhead hserved hlba hpop hcluster
        rw [populate, if_neg (by simp [hpop])]
        have hforget := @populateFrom_forget v dir
          (s.set dir { s.nodes dir with populated := true }) hhead
          (by simpa [State.set, hcluster] using hroot trivial)
          (v.totalClusters * v.perCluster) ⟨fun _ => 0, 0, 0, 0⟩
        rw [Vol.slotRounds, hforget]
        refine populateFrom_ok g _ _ _ _ _ ⟨hserved, .inl hlba, fun _ hne => absurd hlba hne, ?_⟩
        exact fun hm => absurd hm (by simp [State.onDisk, chainMemoForget])
      refine .of_ok g (readFsinfo_ok (hlive _ ?_ ?_ ?_ ?_ ?_) fsinfo)
      · exact (SameMemo.refl k.state.fs).head h.head
      · exact hans
      · rfl
      · simp [State.set]
      · simp [State.set]

theorem nodeRelease_disk (n : Nat) (s : State) : (nodeRelease n s).fs = s.fs := by
  rw [nodeRelease]
  split <;> rfl

theorem dropSubtree_disk (levels dir : Nat) (s : State) : (dropSubtree levels dir s).2.fs = s.fs := by
  have hrelease : ∀ (l : List Nat) (s : State), (releaseAll l s).fs = s.fs := by
    intro l
    induction l with
    | nil => exact fun _ => rfl
    | cons c cs ih => exact fun s => (ih _).trans (nodeRelease_disk c s)
  have hscan : ∀ (drop : Nat → State → Bool × State), (∀ c s, (drop c s).2.fs = s.fs) →
      ∀ (l : List Nat) (s : State), (dropScan drop l s).2.fs = s.fs := by
    intro drop hdrop l
    induction l with
    | nil => exact fun _ => rfl
    | cons c cs ih =>
      intro s
      rw [dropScan]
      split
      · rfl
      split
      · have hc := hdrop c s
        rcases hd : drop c s with ⟨ok, s₁⟩
        rw [hd] at hc
        cases ok with
        | false => exact hc
        | true => exact (ih s₁).trans hc
      · exact ih s
  induction levels generalizing dir s with
  | zero => rfl
  | succ levels ih =>
    have hpass := hscan _ ih (s.nodes dir).children s
    rw [dropSubtree]
    rcases hd : dropScan (dropSubtree levels) (s.nodes dir).children s with ⟨ok, s₁⟩
    rw [hd] at hpass
    cases ok with
    | false => exact hpass
    | true => exact (hrelease _ s₁).trans hpass

theorem fat32Sync_memo (k : Kernel) : SameMemo k.state.fs (fat32Sync k).2.state.fs := by
  rw [fat32Sync]
  split
  · exact .refl _
  · have hflush := flush_memo (v := k.vol) k.state.fs
    rcases hf : fatCacheFlush k.vol k.state.fs with ⟨ok, fs₁⟩
    rw [hf] at hflush
    cases ok with
    | false => exact hflush
    | true =>
      dsimp only
      split
      · exact hflush
      · have hread := read_memo (v := k.vol) k.fsinfoLba 1 (fun _ => 0) 0 fs₁
        rcases hr : blockdevRead k.vol k.fsinfoLba 1 (fun _ => 0) 0 fs₁ with ⟨ok, fi, fs₂⟩
        rw [hr] at hread
        have hboth := hflush.trans hread
        cases ok with
        | false => exact hboth
        | true =>
          dsimp only
          split
          · exact hboth.trans (write_memo (v := k.vol) _ 1 _ fs₂)
          · exact hboth

theorem remakeMountPoint_disk (parent mp : Nat) (s : State) :
    (remakeMountPoint parent mp s).fs = s.fs := by
  have hnode := nodeAlloc_disk (nodeRelease mp (dirRemove parent mp s))
  rw [nodeRelease_disk] at hnode
  rw [remakeMountPoint]
  rcases ha : nodeAlloc (nodeRelease mp (dirRemove parent mp s)) with ⟨_ | n, s₁⟩
  · rw [ha] at hnode
    exact hnode
  · rw [ha] at hnode
    exact hnode

theorem fat32Unmount_inv (h : MemoInv k) (parent : Nat) : MemoInv (fat32Unmount k parent).2 := by
  rw [fat32Unmount]
  split
  · exact h
  split
  · exact h
  have hdrop := dropSubtree_disk (VFS_MAX_BLOCKS * VFS_NODES_PER_BLOCK) k.state.root k.state
  rcases hd : dropSubtree (VFS_MAX_BLOCKS * VFS_NODES_PER_BLOCK) k.state.root k.state with ⟨ok, s⟩
  rw [hd] at hdrop
  simp only at hdrop
  cases ok with
  | false => exact h.keep rfl rfl fun P _ hfs => hdrop ▸ hfs
  | true =>
    have hsync := fat32Sync_memo { k with state := s }
    simp only [hdrop] at hsync
    refine h.stale ?_ rfl
    have hmade := remakeMountPoint_disk parent (fat32Sync { k with state := s }).2.state.root
      (fat32Sync { k with state := s }).2.state
    dsimp only [State.onDisk]
    rw [hmade]
    exact ⟨hsync.first, hsync.index, hsync.cluster⟩

/-! ## Runs -/

theorem memoCall_inv (h : MemoInv k) (op : MemoOp) (hg : MemoKept k op) : MemoInv (k.memoCall op) := by
  cases op with
  | set cluster value =>
    refine ⟨?_, fun hm => ?_⟩
    · rcases set_memo (v := k.vol) cluster.toNat value.toNat k.state.fs with hmemo | hmemo
      · exact hmemo.head h.head
      · exact hmemo.head (.forget _)
    · obtain ⟨g, hok⟩ := h.live hm
      exact ⟨g, (fatSet_memo g hok cluster.toNat value.toNat).mpr (hg hm)⟩
  | alloc prev => exact h.keep rfl rfl fun P hP hfs => (hP.allocCluster prev.toNat _ hfs).1
  | free cluster => exact h.keep rfl rfl fun P hP hfs => hP.freeChain cluster.toNat _ hfs
  | ensure node need =>
    have hensure := fun P (hP : Kept k.vol P) =>
      hP.ensureChain (k.state.nodes node) need.toNat k.state.fs
    simp only [Kernel.memoCall]
    rcases he : ensureChain k.vol (k.state.nodes node) need.toNat k.state.fs with ⟨r, node', fs₁⟩
    rw [he] at hensure
    exact h.keep rfl rfl hensure
  | nth first index => exact h.keep rfl rfl fun P hP hfs => hP.nth first.toNat index.toNat _ hfs
  | mount dir dev grant => exact fat32Mount_inv h dir grant hg.1 hg.2
  | unmount parent => exact fat32Unmount_inv h parent

theorem chainNth_plain (h : MemoHead fs) (hm : fs.memoCluster < 2 ∨ fs.memoIndex = 0)
    (first index : Nat) : (chainNth v first index fs).1 = plainNth v first index fs := by
  rw [chainNth, plainNth]
  split
  · rfl
  · generalize hb : (decide (2 ≤ fs.memoCluster) && fs.memoFirst == first &&
      decide (fs.memoIndex ≤ index)) = b
    have hcur : (if b then fs.memoCluster else first) = first ∧
        (if b then fs.memoIndex else 0) = 0 := by
      cases b with
      | false => exact ⟨rfl, rfl⟩
      | true =>
        simp only [Bool.and_eq_true, decide_eq_true_eq, beq_iff_eq] at hb
        have h0 := hm.resolve_left (by omega)
        exact ⟨(h hb.1.1 h0).trans hb.1.2, h0⟩
    dsimp only
    rw [hcur.1, hcur.2, Nat.sub_zero]
    rcases chainStep v index first fs with ⟨_ | cur, fs₁⟩ <;> rfl

theorem chainNth_mounted (g : v.Geometry) (h : fs.Ok v) (first index : Nat) :
    (chainNth v first index fs).1 = plainNth v first index fs := by
  obtain ⟨hstep, -⟩ := chainStep_spec g index first h.reads
  rw [(chainNth_spec g h.reads first index).1, plainNth]
  rcases hs : chainStep v index first fs with ⟨r, fs₁⟩
  rw [hs] at hstep
  subst hstep
  split
  · rfl
  · cases nth (fs.fat v) index first <;> rfl

/-- From boot, over any run of the chain operations, mounts and unmounts in
which every link that `fat_set` makes leaves the remembered walk where it
ends: while a volume is mounted, and without one as long as no walk of a
volume that is gone is remembered, `chain_nth` is the plain walk for every
head and index. -/
theorem chain_nth_memo (hoff : k.mounted = false) (hmemo : k.state.fs.memoCluster = 0)
    (ops : List MemoOp) (hg : memoCalls.Guarded MemoKept k ops) :
    let now := memoCalls.run k ops
    (now.mounted = true ∨ now.state.fs.memoCluster < 2 ∨ now.state.fs.memoIndex = 0) →
    ∀ first index : Nat, (chainNth now.vol first index now.state.fs).1 =
      plainNth now.vol first index now.state.fs := by
  intro now hnow first index
  have hstart : MemoInv k :=
    ⟨fun hm => absurd hm (by omega), fun hm => absurd (hm.symm.trans hoff) (by decide)⟩
  have hinv := memoCalls.invariant_of_step
    (fun k op (h : MemoInv k) hop => memoCall_inv h op hop) ops k hstart hg
  rcases hnow with hm | hm
  · obtain ⟨g, hok⟩ := hinv.live hm
    exact chainNth_mounted g hok first index
  · exact chainNth_plain hinv.head hm first index

/-- The kernel at boot, with one empty directory. -/
def bootKernel : Kernel where
  vol := noVol 0 fun _ => ⟨2026, 1, 1, 0, 0, 0⟩
  fsinfoLba := 0
  mounted := false
  state := {
    nodes := fun n => if n = 0 then { blank with inUse := true, kind := .directory } else blank
    freeList := []
    blocks := 0
    grants := []
    root := 0
    fs := {
      disk := fun _ _ => 0
      images := []
      answers := []
      fatCache := fun _ => 0
      fatCacheLba := 0
      fatCacheDirty := false
      memoFirst := 0
      memoIndex := 0
      memoCluster := 0
      freeHint := 0
      freeCount := 0
      ticks := 0 } }

/-- A boot sector of a volume of eight clusters of one sector. -/
def smallBpb : Mem :=
  [(11, 0), (12, 2), (13, 1), (14, 1), (16, 1), (32, 10), (36, 1), (44, 2), (510, 0x55),
    (511, 0xAA)].foldl (fun m (b : Nat × UInt8) => update m b.1 b.2) fun _ => 0

/-- On it the root, and a chain of the clusters 3, 4 and 5. -/
def smallFat : Mem :=
  [(2, FAT_MASK), (3, 4), (4, 5), (5, FAT_MASK)].foldl
    (fun m (e : Nat × Nat) => m.wr32 (e.1 * 4) e.2) fun _ => 0

def smallDevice : Device where
  sectors := 10
  disk lba := if lba = 0 then smallBpb else if lba = 1 then smallFat else fun _ => 0
  answers := []

theorem smallDevice_geometry : (probe bootKernel smallDevice).2.1.Geometry := by
  constructor <;> decide

/-- A chain is walked to its end and then made longer. -/
theorem chain_nth_memo_append :
    let ops : List MemoOp := [.mount 0 smallDevice true, .nth 3 2, .set 5 6]
    let now := memoCalls.run bootKernel ops
    (now.mounted = true ∨ now.state.fs.memoCluster < 2 ∨ now.state.fs.memoIndex = 0) ∧
    (chainNth now.vol 3 3 now.state.fs).1 = 6 := by
  intro ops now
  have hmounted : now.mounted = true := by decide
  refine ⟨.inl hmounted, (chain_nth_memo rfl rfl ops ?_ (.inl hmounted) 3 3).trans (by decide)⟩
  refine ⟨⟨rfl, fun _ => smallDevice_geometry⟩, trivial, fun _ => ?_, trivial⟩
  exact .inr (.inr (.inr (.inr (by decide))))

/-- A volume of two FAT sectors, with a chain of the clusters 3, 130 and 131
from one to the other. -/
def twoSectorDevice (numFats : UInt8) (sectors : Nat) (answers : List Answer) : Device where
  sectors := sectors
  disk lba :=
    if lba = 0 then
      update (update (update (smallBpb.wr32 32 259) 36 2) 16 numFats) 13 1
    else if lba = 1 then smallFat.wr32 (3 * 4) 130
    else if lba = 2 then (Mem.wr32 (fun _ => 0) (2 * 4) 131).wr32 (3 * 4) FAT_MASK
    else fun _ => 0
  answers := answers

/-- The walk remembered is not the one there is: after the second cluster of
the chain was linked to another; after an unmount, which keeps the memo; on a
device that fails to read the FAT again; and on one that has no room for the
second FAT, so that the first cannot be written back. -/
theorem chain_nth_memo_wrong :
    let after := fun ops => memoCalls.run bootKernel ops
    let memo := fun (k : Kernel) => (chainNth k.vol 3 2 k.state.fs).1
    let plain := fun (k : Kernel) => plainNth k.vol 3 2 k.state.fs
    let failing := twoSectorDevice 1 257 (List.replicate 5 .done ++ [.failed fun _ => 0])
    let short := twoSectorDevice 2 3 []
    memo (after [.mount 0 smallDevice true, .nth 3 2, .set 4 6]) ≠
      plain (after [.mount 0 smallDevice true, .nth 3 2, .set 4 6]) ∧
    memo (after [.mount 0 smallDevice true, .nth 3 2, .unmount 1]) ≠
      plain (after [.mount 0 smallDevice true, .nth 3 2, .unmount 1]) ∧
    memo (after [.mount 0 failing true, .nth 3 2]) ≠ plain (after [.mount 0 failing true, .nth 3 2]) ∧
    memo (after [.mount 0 short true, .nth 3 2, .set 131 200]) ≠
      plain (after [.mount 0 short true, .nth 3 2, .set 131 200]) := by
  refine ⟨?_, ?_, ?_, ?_⟩ <;> decide

end NovarisOS.Fat32
