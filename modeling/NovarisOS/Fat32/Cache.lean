/-
NovarisOS.Fat32.Cache — the one cached sector of the FAT, on a device whose
writes may fail.

`fat_cache_flush` writes the cached sector to every copy of the FAT and stops
at the first write that fails; the sector then stays dirty, some copies have
it and some do not. Behind all of that there is one table: `Backed v T fs`
says that the volume stands for the table `T`, whatever part of it is in the
cache.
-/
import NovarisOS.Fat32.VolumeTheorems
import NovarisOS.Lib.Machine

namespace NovarisOS.Fat32

open Function (update update_apply update_of_ne update_self)

/-! ## The calls -/

inductive FatOp where
  | get (cluster : UInt32)
  | set (cluster value : UInt32)
  | flush
  deriving DecidableEq

inductive FatOut where
  | entry (e : Nat)
  | done (ok : Bool)
  deriving DecidableEq

def Fs.fatCall (v : Vol) (fs : Fs) : FatOp → Fs × FatOut
  | .get cluster =>
      match fatGet v cluster.toNat fs with
      | (e, fs) => (fs, .entry e)
  | .set cluster value =>
      match fatSet v cluster.toNat value.toNat fs with
      | (ok, fs) => (fs, .done ok)
  | .flush =>
      match fatCacheFlush v fs with
      | (ok, fs) => (fs, .done ok)

def fatCalls (v : Vol) : Machine Fs FatOp FatOut := ⟨Fs.fatCall v⟩

/-- The low 28 bits of every entry, as the successful calls of `fat_set`
leave them. -/
def lastSet (T : Nat → Nat) : FatOp → FatOut → Nat → Nat
  | .set cluster value, .done true =>
      update T cluster.toNat (value.toNat % 268435456)
  | _, _ => T

/-- The table after a run. -/
def tableAfter (v : Vol) : (Nat → Nat) → Fs → List FatOp → Nat → Nat
  | T, _, [] => T
  | T, fs, op :: ops =>
      tableAfter v (lastSet T op (fs.fatCall v op).2) (fs.fatCall v op).1 ops

/-- The device's next answer is a failure. -/
def fails : List Answer → Bool
  | .failed _ :: _ => true
  | _ => false

/-- Where the sector of the cluster has to be read, the read is answered. -/
def ReadServed (v : Vol) (cluster : Nat) (fs : Fs) : Prop :=
  v.fatLba + cluster / PER_FAT_SECTOR ≠ fs.fatCacheLba → (fatCacheFlush v fs).1 = true →
    fails (fatCacheFlush v fs).2.answers = false

instance (v : Vol) (cluster : Nat) (fs : Fs) : Decidable (ReadServed v cluster fs) :=
  inferInstanceAs (Decidable (_ → _ → _))

/-- The reads of a call are answered. -/
def ReadsServed (v : Vol) (fs : Fs) : FatOp → Prop
  | .get cluster => ReadServed v cluster.toNat fs
  | .set cluster value =>
      ReadServed v cluster.toNat
        (if value.toNat = 0 ∨ value.toNat = FAT_MASK then chainMemoForget fs else fs)
  | .flush => True

instance (v : Vol) (fs : Fs) : (op : FatOp) → Decidable (ReadsServed v fs op)
  | .get cluster => inferInstanceAs (Decidable (ReadServed v cluster.toNat fs))
  | .set _ _ => inferInstanceAs (Decidable (ReadServed v _ _))
  | .flush => inferInstanceAs (Decidable True)

/-! ## The table behind the cache -/

/-- How many entries the FAT has room for. -/
def Vol.entries (v : Vol) : Nat := v.fatSectors * PER_FAT_SECTOR

/-- The entry of a copy of the FAT on the disk. -/
def Fs.stored (v : Vol) (fs : Fs) (copy c : Nat) : Nat :=
  (fs.disk (v.fatLba + c / PER_FAT_SECTOR + copy * v.fatSectors)).rd32 (c % PER_FAT_SECTOR * 4)

/-- The copies of the FAT are the same. -/
def Identical (v : Vol) (fs : Fs) : Prop :=
  ∀ c, c < v.entries → ∀ copy, copy < v.numFats → fs.stored v copy c = fs.stored v 0 c

/-- The volume stands for the table `T`: the cached sector is a part of it,
the other sectors are it in every copy, and the top four bits are it
everywhere. -/
structure Backed (v : Vol) (T : Nat → Nat) (fs : Fs) : Prop where
  lba : fs.fatCacheLba = 0 ∨
    (v.fatLba ≤ fs.fatCacheLba ∧ fs.fatCacheLba < v.fatLba + v.fatSectors)
  cached : ∀ c, c < v.entries → v.fatLba + c / PER_FAT_SECTOR = fs.fatCacheLba →
    fs.fatCache.rd32 (c % PER_FAT_SECTOR * 4) = T c
  copies : ∀ c, c < v.entries →
    (fs.fatCacheDirty = true → v.fatLba + c / PER_FAT_SECTOR ≠ fs.fatCacheLba) →
    ∀ copy, copy < v.numFats → fs.stored v copy c = T c
  tops : ∀ c, c < v.entries → ∀ copy, copy < v.numFats →
    fs.stored v copy c / 268435456 = T c / 268435456

variable {v : Vol} {fs fs' : Fs} {T : Nat → Nat} {c : Nat}

theorem Vol.Geometry.lt_entries (g : v.Geometry) (hc : v.has c = true) : c < v.entries := by
  obtain ⟨-, h⟩ := Vol.has_iff.mp hc
  have := g.table
  simp only [Vol.entries]
  omega

theorem sector_lt (hc : c < v.entries) : c / PER_FAT_SECTOR < v.fatSectors :=
  Nat.div_lt_of_lt_mul (by rw [Nat.mul_comm]; exact hc)

theorem copy_inj {a b i j n : Nat} (ha : a < n) (hb : b < n) (h : a + i * n = b + j * n) :
    a = b ∧ i = j := by
  have hn : 0 < n := by omega
  have hmod := congrArg (· % n) h
  have hdiv := congrArg (· / n) h
  simp only [Nat.add_mul_mod_self_right, Nat.mod_eq_of_lt ha, Nat.mod_eq_of_lt hb,
    Nat.add_mul_div_right _ _ hn, Nat.div_eq_of_lt ha, Nat.div_eq_of_lt hb] at hmod hdiv
  omega

theorem Backed.of_mount (hlba : fs.fatCacheLba = 0) (g : v.Geometry) (hsame : Identical v fs) :
    Backed v (fs.stored v 0) fs := by
  have := g.fat_pos
  refine ⟨.inl hlba, fun c _ h => ?_, fun c hc _ => hsame c hc, fun c hc copy hcopy => ?_⟩
  · rw [hlba] at h
    exact absurd (Nat.eq_zero_of_add_eq_zero_right h) (by omega)
  · rw [hsame c hc copy hcopy]

theorem Backed.forget (h : Backed v T fs) : Backed v T (chainMemoForget fs) :=
  ⟨h.lba, h.cached, h.copies, h.tops⟩

/-! ## Writing back -/

theorem flushCopies_any (left i : Nat) (fs : Fs) :
    ∃ disk images answers, (flushCopies v left i fs).2 =
        { fs with disk := disk, images := images, answers := answers } ∧
      (∀ l, disk l = fs.disk l ∨ disk l = fs.fatCache ∧ ∃ j, i ≤ j ∧ j < i + left ∧
        l = fs.fatCacheLba + j * v.fatSectors) ∧
      ((flushCopies v left i fs).1 = true → ∀ j, i ≤ j → j < i + left →
        disk (fs.fatCacheLba + j * v.fatSectors) = fs.fatCache) := by
  induction left generalizing i fs with
  | zero => exact ⟨fs.disk, fs.images, fs.answers, rfl, fun l => .inl rfl, fun _ j _ _ => by omega⟩
  | succ left ih =>
    rw [flushCopies]
    have hwrite : ∃ ok disk images answers,
        blockdevWrite v (fs.fatCacheLba + i * v.fatSectors) 1 fs.fatCache fs =
          (ok, { fs with disk := disk, images := images, answers := answers }) ∧
        (ok = false → disk = fs.disk) ∧
        (ok = true → disk = update fs.disk (fs.fatCacheLba + i * v.fatSectors)
          fs.fatCache) := by
      rw [blockdevWrite]
      split
      · exact ⟨false, fs.disk, fs.images, fs.answers, rfl, fun _ => rfl, by simp⟩
      · split
        · exact ⟨false, fs.disk, fs.images, _, rfl, fun _ => rfl, by simp⟩
        · exact ⟨true, _, _, _, rfl, by simp, fun _ => rfl⟩
        · exact ⟨true, _, _, _, rfl, by simp, fun _ => rfl⟩
    obtain ⟨ok, disk₁, images₁, answers₁, heq, hfail, hdone⟩ := hwrite
    rw [heq]
    cases ok with
    | false =>
      have hdisk := hfail rfl
      exact ⟨disk₁, images₁, answers₁, rfl, fun l => .inl (congrFun hdisk l), by simp⟩
    | true =>
      have hdisk := hdone rfl
      obtain ⟨disk, images, answers, heq', hwrote, hall⟩ := ih (i + 1)
        { fs with disk := disk₁, images := images₁, answers := answers₁ }
      simp only at heq' hwrote hall ⊢
      refine ⟨disk, images, answers, heq', fun l => ?_, fun hok j h₁ h₂ => ?_⟩
      · rcases hwrote l with h | ⟨h, j, h₁, h₂, hj⟩
        · rw [h, hdisk, update_apply]
          split
          · exact .inr ⟨rfl, i, by omega, by omega, ‹_›⟩
          · exact .inl rfl
        · exact .inr ⟨h, j, by omega, by omega, hj⟩
      · by_cases hj : j = i
        · subst hj
          rcases hwrote (fs.fatCacheLba + j * v.fatSectors) with h | ⟨h, -⟩
          · rw [h, hdisk, update_self]
          · exact h
        · exact hall hok j (by omega) (by omega)

theorem flush_any (h : Backed v T fs) :
    Backed v T (fatCacheFlush v fs).2 ∧
    (fatCacheFlush v fs).2.fatCacheLba = fs.fatCacheLba ∧
    ((fatCacheFlush v fs).1 = true →
      (fatCacheFlush v fs).2.fatCacheDirty = false ∨ (fatCacheFlush v fs).2.fatCacheLba = 0) := by
  rw [fatCacheFlush]
  split
  · rename_i hskip
    exact ⟨h, rfl, fun _ => by simpa using hskip⟩
  · rename_i hdirty
    simp only [Bool.or_eq_true, Bool.not_eq_true', beq_iff_eq, not_or] at hdirty
    have hlba := h.lba.resolve_left hdirty.2
    obtain ⟨disk, images, answers, heq, hwrote, hall⟩ := flushCopies_any (v := v) v.numFats 0 fs
    -- a copy of an entry of the cached sector is as before or new, any other is as before
    have hentry : ∀ c, c < v.entries → ∀ copy, copy < v.numFats →
        (disk (v.fatLba + c / PER_FAT_SECTOR + copy * v.fatSectors)).rd32
          (c % PER_FAT_SECTOR * 4) = fs.stored v copy c ∨
        (v.fatLba + c / PER_FAT_SECTOR = fs.fatCacheLba ∧
          (disk (v.fatLba + c / PER_FAT_SECTOR + copy * v.fatSectors)).rd32
            (c % PER_FAT_SECTOR * 4) = T c) := by
      intro c hc copy hcopy
      rcases hwrote (v.fatLba + c / PER_FAT_SECTOR + copy * v.fatSectors) with h' | ⟨h', j, -, -, hj⟩
      · exact .inl (by rw [h', Fs.stored])
      · have hsec := sector_lt hc
        have hsame := copy_inj hsec (show fs.fatCacheLba - v.fatLba < v.fatSectors by omega)
          (show c / PER_FAT_SECTOR + copy * v.fatSectors =
            fs.fatCacheLba - v.fatLba + j * v.fatSectors by omega)
        have hhere : v.fatLba + c / PER_FAT_SECTOR = fs.fatCacheLba := by omega
        exact .inr ⟨hhere, by rw [h', h.cached c hc hhere]⟩
    have htops : ∀ c, c < v.entries → ∀ copy, copy < v.numFats →
        (disk (v.fatLba + c / PER_FAT_SECTOR + copy * v.fatSectors)).rd32
          (c % PER_FAT_SECTOR * 4) / 268435456 = T c / 268435456 := by
      intro c hc copy hcopy
      rcases hentry c hc copy hcopy with h' | ⟨-, h'⟩
      · rw [h', h.tops c hc copy hcopy]
      · rw [h']
    have hother : ∀ c, c < v.entries → v.fatLba + c / PER_FAT_SECTOR ≠ fs.fatCacheLba →
        ∀ copy, copy < v.numFats →
        (disk (v.fatLba + c / PER_FAT_SECTOR + copy * v.fatSectors)).rd32
          (c % PER_FAT_SECTOR * 4) = T c := by
      intro c hc hne copy hcopy
      rcases hentry c hc copy hcopy with h' | ⟨hhere, -⟩
      · rw [h', h.copies c hc (fun _ => hne) copy hcopy]
      · exact absurd hhere hne
    rcases hfl : flushCopies v v.numFats 0 fs with ⟨ok, fs₁⟩
    rw [hfl] at heq hall
    subst heq
    cases ok with
    | false =>
      refine ⟨⟨h.lba, h.cached, fun c hc hne => ?_, htops⟩, rfl, by simp⟩
      exact hother c hc (hne (by simpa using hdirty.1))
    | true =>
      refine ⟨⟨h.lba, h.cached, fun c hc _ copy hcopy => ?_, htops⟩, rfl, fun _ => .inl rfl⟩
      by_cases hhere : v.fatLba + c / PER_FAT_SECTOR = fs.fatCacheLba
      · have hcopy' := hall rfl copy (Nat.zero_le _) (by omega)
        simp only [Fs.stored]
        rw [hhere, hcopy', h.cached c hc hhere]
      · exact hother c hc hhere copy hcopy

/-! ## Loading a sector -/

theorem load_any (g : v.Geometry) (h : Backed v T fs) (hc : v.has c = true)
    (hread : ReadServed v c fs) :
    Backed v T (fatCacheLoad v c fs).2 ∧
    ((fatCacheLoad v c fs).1 = true →
      (fatCacheLoad v c fs).2.fatCacheLba = v.fatLba + c / PER_FAT_SECTOR) ∧
    ((fatCacheLoad v c fs).1 = false →
      v.fatLba + c / PER_FAT_SECTOR ≠ fs.fatCacheLba ∧ (fatCacheFlush v fs).1 = false) := by
  rw [fatCacheLoad]
  split
  · rename_i hhit
    exact ⟨h, fun _ => hhit.symm, by simp⟩
  · rename_i hmiss
    obtain ⟨h₁, hlba, hclean⟩ := flush_any h
    have hserved := hread hmiss
    rcases hfl : fatCacheFlush v fs with ⟨ok, fs₁⟩
    rw [hfl] at h₁ hlba hclean hserved
    cases ok with
    | false => exact ⟨h₁, by simp, fun _ => ⟨hmiss, rfl⟩⟩
    | true =>
      have hanswer := hserved rfl
      have hclean := hclean rfl
      have hin := g.fat_inRange hc
      have hrd : ∃ answers, blockdevRead v (v.fatLba + c / PER_FAT_SECTOR) 1 fs₁.fatCache 0 fs₁ =
          (true, fs₁.fatCache.copyAt 0 (fs₁.sectorsFrom (v.fatLba + c / PER_FAT_SECTOR))
            (1 * BLOCK_SECTOR_SIZE), { fs₁ with answers := answers }) := by
        rw [blockdevRead, if_neg (by simp [hin])]
        split
        · rename_i heq
          rw [heq] at hanswer
          exact absurd hanswer (by simp [fails])
        · exact ⟨_, rfl⟩
        · exact ⟨fs₁.answers, rfl⟩
      obtain ⟨answers, hrd⟩ := hrd
      simp only [hrd]
      have hstored : ∀ c', c' < v.entries → ∀ copy, copy < v.numFats →
          fs₁.stored v copy c' = T c' := by
        intro c' hc' copy hcopy
        refine h₁.copies c' hc' (fun hd => ?_) copy hcopy
        rcases hclean with hd' | h0
        · rw [hd'] at hd
          exact absurd hd (by simp)
        · have := g.fat_pos
          rw [h0]
          exact fun h => absurd (Nat.eq_zero_of_add_eq_zero_right h) (by omega)
      refine ⟨⟨.inr ⟨by simp, g.fatLba_lt hc⟩, fun c' hc' hhere => ?_, fun c' hc' _ => hstored c' hc',
        fun c' hc' copy hcopy => ?_⟩, fun _ => trivial, by simp⟩
      · simp only at hhere
        rw [← hstored c' hc' 0 g.fats_pos, Fs.stored, Nat.zero_mul, Nat.add_zero, hhere]
        refine rd32_sector (fun i hi => ?_) c'
        dsimp only
        rw [Mem.copyAt_inside (Nat.zero_le i) (by omega)]
        simp [Fs.sectorsFrom, Nat.div_eq_of_lt hi, Nat.mod_eq_of_lt hi]
      · have := hstored c' hc' copy hcopy
        simp only [Fs.stored] at this ⊢
        rw [this]

/-! ## The calls on the table -/

/-- The load that `fat_get` of a cluster of the volume needs fails. -/
def LoadFails (v : Vol) (cluster : Nat) (fs : Fs) : Prop :=
  v.fatLba + cluster / PER_FAT_SECTOR ≠ fs.fatCacheLba ∧ (fatCacheFlush v fs).1 = false

instance (v : Vol) (cluster : Nat) (fs : Fs) : Decidable (LoadFails v cluster fs) :=
  inferInstanceAs (Decidable (_ ∧ _))

theorem fatGet_any (g : v.Geometry) (h : Backed v T fs) (hread : ReadServed v c fs) :
    Backed v T (fatGet v c fs).2 ∧
    (fatGet v c fs).1 =
      if v.has c = true ∧ ¬ LoadFails v c fs then T c % 268435456 else FAT_EOC := by
  rw [fatGet]
  cases hc : v.has c with
  | false => simpa using h
  | true =>
    obtain ⟨h₁, hlba, hfail⟩ := load_any g h hc hread
    simp only [Bool.not_true, Bool.false_eq_true, if_false]
    rcases hl : fatCacheLoad v c fs with ⟨ok, fs₁⟩
    rw [hl] at h₁ hlba hfail
    cases ok with
    | false =>
      have hfails : LoadFails v c fs := hfail rfl
      exact ⟨h₁, by simp [hfails]⟩
    | true =>
      have hloads : ¬ LoadFails v c fs := by
        rintro ⟨hmiss, hfl⟩
        rw [fatCacheLoad, if_neg hmiss] at hl
        rcases hf : fatCacheFlush v fs with ⟨ok, fs₂⟩
        rw [hf] at hfl hl
        subst hfl
        simp at hl
      refine ⟨h₁, ?_⟩
      dsimp only
      rw [if_pos ⟨trivial, hloads⟩, h₁.cached c (g.lt_entries hc) (hlba rfl).symm]

theorem fatSet_any (g : v.Geometry) (h : Backed v T fs) (value : Nat)
    (hread : ReadServed v c
      (if value = 0 ∨ value = FAT_MASK then chainMemoForget fs else fs)) :
    ((fatSet v c value fs).1 = true → v.has c = true ∧
      Backed v (update T c (T c / 268435456 * 268435456 + value % 268435456))
        (fatSet v c value fs).2) ∧
    ((fatSet v c value fs).1 = false → Backed v T (fatSet v c value fs).2) := by
  rw [fatSet]
  cases hc : v.has c with
  | false => exact ⟨by simp, fun _ => h⟩
  | true =>
    have h₀ : Backed v T (if value = 0 ∨ value = FAT_MASK then chainMemoForget fs else fs) := by
      split
      · exact h.forget
      · exact h
    obtain ⟨h₁, hlba, -⟩ := load_any g h₀ hc hread
    simp only [Bool.not_true, Bool.false_eq_true, if_false]
    generalize (if value = 0 ∨ value = FAT_MASK then chainMemoForget fs else fs) = fs₀ at *
    rcases hl : fatCacheLoad v c fs₀ with ⟨ok, fs₁⟩
    rw [hl] at h₁ hlba
    simp only at h₁ hlba
    cases ok with
    | false => exact ⟨by simp, fun _ => h₁⟩
    | true =>
      refine ⟨fun _ => ⟨trivial, ?_⟩, by simp⟩
      dsimp only
      have hlba := hlba rfl
      have hce := g.lt_entries hc
      have hold := h₁.cached c hce hlba.symm
      have htop : ∀ c', update T c (T c / 268435456 * 268435456 + value % 268435456) c' /
          268435456 = T c' / 268435456 := by
        intro c'
        rw [update_apply]
        split
        · rename_i heq
          rw [heq]
          omega
        · rfl
      refine ⟨h₁.lba, fun c' hc' hhere => ?_, fun c' hc' hne copy hcopy => ?_,
        fun c' hc' copy hcopy => ?_⟩
      · rw [update_apply]
        split
        · rename_i heq
          subst heq
          have := Mem.rd32_lt fs₁.fatCache (c' % PER_FAT_SECTOR * 4)
          rw [Mem.rd32_wr32, hold]
          omega
        · rename_i hne
          rw [Mem.rd32_wr32_of_disjoint, h₁.cached c' hc' hhere]
          simp only [PER_FAT_SECTOR] at *
          omega
      · have hne' : v.fatLba + c' / PER_FAT_SECTOR ≠ fs₁.fatCacheLba := hne rfl
        have hcc : c' ≠ c := by
          rintro rfl
          exact hne' hlba.symm
        rw [update_of_ne hcc]
        exact h₁.copies c' hc' (fun _ => hne') copy hcopy
      · rw [htop]
        exact h₁.tops c' hc' copy hcopy

/-! ## Runs -/

/-- A table from the top four bits and the rest. -/
def whole (top T : Nat → Nat) (c : Nat) : Nat := top c * 268435456 + T c

variable {top : Nat → Nat}

theorem whole_low (hT : T c < 268435456) : whole top T c % 268435456 = T c := by
  simp only [whole]
  omega

theorem whole_top (hT : T c < 268435456) : whole top T c / 268435456 = top c := by
  simp only [whole]
  omega

theorem fatCall_backed (g : v.Geometry) (hT : ∀ c, T c < 268435456)
    (h : Backed v (whole top T) fs) (op : FatOp) (hread : ReadsServed v fs op) :
    Backed v (whole top (lastSet T op (fs.fatCall v op).2)) (fs.fatCall v op).1 ∧
    ∀ c, lastSet T op (fs.fatCall v op).2 c < 268435456 := by
  cases op with
  | get cluster => exact ⟨(fatGet_any g h hread).1, hT⟩
  | flush =>
    refine ⟨?_, ?_⟩
    · simp only [Fs.fatCall, lastSet]
      exact (flush_any h).1
    · simpa [Fs.fatCall, lastSet] using hT
  | set cluster value =>
    obtain ⟨hdone, hfail⟩ := fatSet_any g h value.toNat hread
    simp only [Fs.fatCall]
    rcases hs : fatSet v cluster.toNat value.toNat fs with ⟨ok, fs₁⟩
    rw [hs] at hdone hfail
    cases ok with
    | false => exact ⟨hfail rfl, hT⟩
    | true =>
      obtain ⟨-, h₁⟩ := hdone rfl
      have heq : whole top (update T cluster.toNat (value.toNat % 268435456)) =
          update (whole top T) cluster.toNat
            (whole top T cluster.toNat / 268435456 * 268435456 + value.toNat % 268435456) := by
        funext c
        rw [whole_top (hT _)]
        simp only [update_apply, whole]
        split
        · rename_i hc
          rw [hc]
        · rfl
      simp only [lastSet]
      rw [heq]
      refine ⟨h₁, fun c => ?_⟩
      rw [update_apply]
      split
      · exact Nat.mod_lt _ (by decide)
      · exact hT c

theorem fatCalls_backed (g : v.Geometry) (ops : List FatOp) (hT : ∀ c, T c < 268435456)
    (h : Backed v (whole top T) fs) (hg : (fatCalls v).Guarded (ReadsServed v) fs ops) :
    Backed v (whole top (tableAfter v T fs ops)) ((fatCalls v).run fs ops) ∧
    ∀ c, tableAfter v T fs ops c < 268435456 := by
  induction ops generalizing T fs with
  | nil => exact ⟨h, hT⟩
  | cons op ops ih =>
    obtain ⟨h₁, hT₁⟩ := fatCall_backed g hT h op hg.1
    exact ih hT₁ h₁ hg.2

/-- On a volume whose copies of the FAT start the same, after any run of the
three calls in which writes may fail: `fat_get` gives what the last
successful `fat_set` gave, unless the cluster is none or the write-back that
has to come first fails; no copy of an entry has other top bits than at the
start; and after a flush that succeeds every copy is the table. -/
theorem fat_cache_coherent (g : v.Geometry) (fs : Fs) (hlba : fs.fatCacheLba = 0)
    (hsame : Identical v fs) (ops : List FatOp)
    (hg : (fatCalls v).Guarded (ReadsServed v) fs ops) :
    let now := (fatCalls v).run fs ops
    let T := tableAfter v (fun c => fs.stored v 0 c % 268435456) fs ops
    (∀ c, ReadServed v c now → (fatGet v c now).1 =
      if v.has c = true ∧ ¬ LoadFails v c now then T c else FAT_EOC) ∧
    (∀ c, c < v.entries → ∀ copy, copy < v.numFats →
      now.stored v copy c / 268435456 = fs.stored v 0 c / 268435456) ∧
    (∀ c, c < v.entries → v.fatLba + c / PER_FAT_SECTOR = now.fatCacheLba →
      now.fatCache.rd32 (c % PER_FAT_SECTOR * 4) / 268435456 = fs.stored v 0 c / 268435456) ∧
    ((fatCacheFlush v now).1 = true → ∀ c, c < v.entries → ∀ copy, copy < v.numFats →
      (fatCacheFlush v now).2.stored v copy c =
        fs.stored v 0 c / 268435456 * 268435456 + T c) := by
  intro now T
  have hstart : Backed v (whole (fun c => fs.stored v 0 c / 268435456)
      fun c => fs.stored v 0 c % 268435456) fs := by
    have heq : whole (fun c => fs.stored v 0 c / 268435456)
        (fun c => fs.stored v 0 c % 268435456) = fs.stored v 0 := by
      funext c
      simp only [whole]
      omega
    rw [heq]
    exact .of_mount hlba g hsame
  obtain ⟨hnow, hT⟩ := fatCalls_backed g ops (fun c => Nat.mod_lt _ (by decide)) hstart hg
  refine ⟨fun c hread => ?_, fun c hc copy hcopy => ?_, fun c hc hhere => ?_,
    fun hok c hc copy hcopy => ?_⟩
  · obtain ⟨-, hval⟩ := fatGet_any g hnow hread
    rw [hval, whole_low (hT c)]
  · rw [hnow.tops c hc copy hcopy, whole_top (hT c)]
  · rw [hnow.cached c hc hhere, whole_top (hT c)]
  · obtain ⟨hflushed, -, hclean⟩ := flush_any hnow
    refine hflushed.copies c hc (fun hd hhere => ?_) copy hcopy
    have := g.fat_pos
    rcases hclean hok with hd' | h0
    · exact absurd (hd.symm.trans hd') (by decide)
    · rw [h0] at hhere
      exact absurd (Nat.eq_zero_of_add_eq_zero_right hhere) (by omega)

/-- Two copies of a FAT of two sectors. -/
def mirroredVol : Vol where
  sectors := 259
  sectorsPerCluster := 1
  numFats := 2
  fatSectors := 2
  rootCluster := 2
  fatLba := 1
  dataLba := 5
  totalClusters := 254
  clock _ := ⟨2026, 1, 1, 0, 0, 0⟩

/-- Just mounted, all zeros: the second write to it will fail. -/
def mirroredFs : Fs where
  disk _ _ := 0
  images := []
  answers := [.done, .done, .failed fun _ => 0]
  fatCache _ := 0
  fatCacheLba := 0
  fatCacheDirty := false
  memoFirst := 0
  memoIndex := 0
  memoCluster := 0
  freeHint := 2
  freeCount := 0
  ticks := 0

theorem mirroredVol_geometry : mirroredVol.Geometry := by constructor <;> decide

theorem mirroredFs_identical : Identical mirroredVol mirroredFs := fun _ _ _ _ => rfl

/-- The second copy cannot be written at first: the other sector is not
loaded, and nothing is lost. -/
theorem fat_cache_coherent_half_written :
    let ops : List FatOp := [.set 2 5, .get 129, .flush]
    (fatCalls mirroredVol).Guarded (ReadsServed mirroredVol) mirroredFs ops ∧
    (fatGet mirroredVol 2 ((fatCalls mirroredVol).run mirroredFs ops)).1 = 5 := by
  intro ops
  have hg : (fatCalls mirroredVol).Guarded (ReadsServed mirroredVol) mirroredFs ops := by
    decide
  obtain ⟨hget, -⟩ := fat_cache_coherent mirroredVol_geometry mirroredFs rfl mirroredFs_identical
    ops hg
  refine ⟨hg, (hget 2 (by decide)).trans ?_⟩
  rw [if_pos (by decide)]
  decide

/-- `fat_get` of an entry that is 0 and was never set gives the mark for the
end of a chain while the write-back fails. -/
theorem fat_cache_get_fails :
    ¬ ∀ (v : Vol) (fs : Fs), v.Geometry → fs.fatCacheLba = 0 → Identical v fs →
      ∀ (ops : List FatOp), (fatCalls v).Guarded (ReadsServed v) fs ops →
        ∀ c, ReadServed v c ((fatCalls v).run fs ops) →
          (fatGet v c ((fatCalls v).run fs ops)).1 =
            tableAfter v (fun c => fs.stored v 0 c % 268435456) fs ops c := by
  intro h
  have hbad := h mirroredVol mirroredFs mirroredVol_geometry rfl mirroredFs_identical [.set 2 5]
    (by decide) 129 (by decide)
  exact absurd hbad (by decide)

end NovarisOS.Fat32
