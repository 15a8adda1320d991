/-
NovarisOS.Fat32.ChainTheorems — what the chain operations do to the FAT and
the clusters.

A chain is a list of clusters (`Chain`): each has an entry that is not 0 and
leads to the next, the last one's ends the chain. `chain_nth` and
`chain_length` are the list's `[·]?` and `length`, `free_chain` clears the
entries of the list and no others.
-/
import NovarisOS.Fat32.VolumeTheorems

namespace NovarisOS.Fat32

open Function (update update_apply update_of_ne update_self)

variable {v : Vol} {fs fs' : Fs} {f f' : Nat → Nat} {d d' : Nat → Mem} {c x : Nat}
  {l l' : List Nat}

/-! ## Chains -/

/-- The cluster an entry or a first-cluster field leads to. -/
def decode (c : Nat) : Option Nat := if c < 2 ∨ FAT_BAD ≤ c then none else some c

theorem follow_eq (f : Nat → Nat) (c : Nat) : follow f c = decode (f c) := rfl

/-- The clusters behind the first-cluster field `c`. -/
structure Chain (v : Vol) (f : Nat → Nat) (c : Nat) (l : List Nat) : Prop where
  links : Links (follow f) (decode c) l
  head : c < FAT_BAD
  has : ∀ x ∈ l, v.has x = true
  used : ∀ x ∈ l, f x ≠ 0

theorem Vol.Geometry.lt_bad (g : v.Geometry) (hc : v.has c = true) : 2 ≤ c ∧ c < FAT_BAD := by
  obtain ⟨h₁, h₂⟩ := Vol.has_iff.mp hc
  have := g.bits
  omega

theorem Vol.Geometry.decode_has (g : v.Geometry) (hc : v.has c = true) : decode c = some c := by
  have := g.lt_bad hc
  exact if_neg (by omega)

theorem decode_end (h : c < 2 ∨ FAT_BAD ≤ c) : decode c = none := if_pos h

theorem decode_eq_some (h : decode c = some x) : x = c ∧ 2 ≤ c ∧ c < FAT_BAD := by
  rw [decode] at h
  split at h
  · exact absurd h (by simp)
  · rename_i hc
    exact ⟨(Option.some.inj h).symm, by omega, by omega⟩

namespace Chain

theorem nodup (h : Chain v f c l) : l.Nodup := h.links.nodup

theorem unique (h : Chain v f c l) (h' : Chain v f c l') : l = l' := h.links.unique h'.links

theorem of_empty (h : c < 2) : Chain v f c [] :=
  ⟨decode_end (.inl h), by simp only [FAT_BAD]; omega, by simp, by simp⟩

theorem lt_two_iff (h : Chain v f c l) : c < 2 ↔ l = [] := by
  constructor
  · intro hc
    have hl := h.links
    rw [decode_end (.inl hc)] at hl
    exact hl.eq_nil
  · rintro rfl
    have hend : decode c = none := h.links
    have := h.head
    rw [decode] at hend
    split at hend
    · omega
    · exact absurd hend (by simp)

theorem congr (h : Chain v f c l) (hsame : ∀ x ∈ l, f' x = f x) : Chain v f' c l :=
  ⟨h.links.congr fun x hx => by rw [follow_eq, follow_eq, hsame x hx], h.head, h.has,
    fun x hx => by rw [hsame x hx]; exact h.used x hx⟩

theorem length_le (h : Chain v f c l) : l.length ≤ v.totalClusters := by
  have hsub : l ⊆ (List.range v.totalClusters).map (· + 2) := by
    intro x hx
    obtain ⟨h₁, h₂⟩ := Vol.has_iff.mp (h.has x hx)
    exact List.mem_map.mpr ⟨x - 2, List.mem_range.mpr (by omega), by omega⟩
  simpa using (h.nodup.subperm hsub).length_le

end Chain

theorem lastOf_length (hne : l ≠ []) : lastOf l.length = l.length - 1 :=
  if_neg (Nat.ne_of_gt (List.length_pos_of_ne_nil hne))

theorem nth_add (f : Nat → Nat) (i j c : Nat) : nth f (i + j) c = (nth f i c).bind (nth f j) := by
  induction i generalizing c with
  | zero => simp [nth]
  | succ i ih =>
    rw [Nat.succ_add, nth, nth]
    cases hc : follow f c with
    | none => rfl
    | some y => exact ih y

theorem nth_of_links {i : Nat} (h : Links (follow f) (some c) l) : nth f i c = l[i]? := by
  induction i generalizing c l with
  | zero =>
    cases l with
    | nil => exact absurd h (by simp [Links])
    | cons y r => rw [nth, Option.some.inj h.1]; rfl
  | succ i ih =>
    cases l with
    | nil => exact absurd h (by simp [Links])
    | cons y r =>
      obtain rfl := Option.some.inj h.1
      have hr : Links (follow f) (follow f c) r := h.2
      rw [nth, List.getElem?_cons_succ]
      cases hy : follow f c with
      | none =>
        rw [hy] at hr
        rw [hr.eq_nil]
        rfl
      | some z =>
        rw [hy] at hr
        exact ih hr

theorem Chain.nth_eq (h : Chain v f c l) (hc : 2 ≤ c) (i : Nat) : nth f i c = l[i]? := by
  have hl := h.links
  have := h.head
  rw [decode, if_neg (by omega)] at hl
  exact nth_of_links hl

/-! ## Walking a chain -/

theorem chainStep_spec (g : v.Geometry) (k cur : Nat) (h : Reads v fs f d) :
    (chainStep v k cur fs).1 = nth f k cur ∧ Reads v (chainStep v k cur fs).2 f d := by
  induction k generalizing cur fs with
  | zero => exact ⟨rfl, h⟩
  | succ k ih =>
    obtain ⟨hget, h₁, -⟩ := fatGet_spec g h cur
    rw [chainStep]
    rcases hf : fatGet v cur fs with ⟨next, fs₁⟩
    rw [hf] at hget h₁
    subst hget
    simp only [nth, follow]
    split
    · exact ⟨rfl, h₁⟩
    · exact ih _ h₁

theorem chainNth_spec (g : v.Geometry) (h : Reads v fs f d) (first index : Nat) :
    (chainNth v first index fs).1 = (if first < 2 then 0 else (nth f index first).getD 0) ∧
    Reads v (chainNth v first index fs).2 f d := by
  rw [chainNth]
  split
  · exact ⟨rfl, h⟩
  · have hstart : ∀ b : Bool, (b = true → 2 ≤ fs.memoCluster ∧ fs.memoFirst = first ∧
        fs.memoIndex ≤ index) →
        nth f (index - (if b then fs.memoIndex else 0)) (if b then fs.memoCluster else first) =
          nth f index first := by
      intro b hb
      cases b with
      | false => rfl
      | true =>
        obtain ⟨h₁, h₂, h₃⟩ := hb rfl
        have hmemo := h.ok.memo h₁
        rw [h.fat, h₂] at hmemo
        have hsplit := nth_add f fs.memoIndex (index - fs.memoIndex) first
        rw [Nat.add_sub_cancel' h₃, hmemo] at hsplit
        exact hsplit.symm
    generalize hb : (decide (2 ≤ fs.memoCluster) && fs.memoFirst == first &&
      decide (fs.memoIndex ≤ index)) = b
    have hwalk := hstart b (by
      rintro rfl
      simpa [and_assoc] using hb)
    obtain ⟨hstep, h₁⟩ := chainStep_spec g (index - (if b then fs.memoIndex else 0))
      (if b then fs.memoCluster else first) h
    rw [hwalk] at hstep
    rcases hs : chainStep v (index - (if b then fs.memoIndex else 0))
      (if b then fs.memoCluster else first) fs with ⟨cur, fs₁⟩
    rw [hs] at hstep h₁
    subst hstep
    simp only [hs]
    cases hn : nth f index first with
    | none => exact ⟨rfl, h₁⟩
    | some cur =>
      refine ⟨rfl, ⟨h₁.ok.served, h₁.ok.lba, h₁.ok.clean, fun _ => ?_⟩, h₁.fat, h₁.data⟩
      have hview : ({ fs₁ with
        memoFirst := first, memoIndex := index, memoCluster := cur } : Fs).fat v = f := h₁.fat
      rw [hview]
      exact hn

theorem chainNth_chain (g : v.Geometry) (h : Reads v fs f d) (hl : Chain v f c l) (i : Nat) :
    (chainNth v c i fs).1 = l[i]?.getD 0 ∧ Reads v (chainNth v c i fs).2 f d := by
  obtain ⟨hval, h₁⟩ := chainNth_spec g h c i
  refine ⟨?_, h₁⟩
  rw [hval]
  split
  · rename_i hc
    rw [hl.lt_two_iff.mp hc]
    rfl
  · rename_i hc
    rw [hl.nth_eq (by omega)]

theorem chainCount_spec (g : v.Geometry) (left n : Nat) (h : Reads v fs f d)
    (hl : Links (follow f) (decode c) l) (hle : l.length ≤ left) :
    (chainCount v left n c fs).1 = n + l.length ∧ Reads v (chainCount v left n c fs).2 f d := by
  induction left generalizing n c l fs with
  | zero =>
    rw [List.length_eq_zero_iff.mp (Nat.le_zero.mp hle)]
    exact ⟨rfl, h⟩
  | succ left ih =>
    rw [chainCount]
    cases l with
    | nil =>
      have hend : decode c = none := hl
      have hstop : ¬ (2 ≤ c ∧ c < FAT_BAD) := by
        intro hc
        rw [decode, if_neg (by omega)] at hend
        exact absurd hend (by simp)
      rw [if_neg hstop]
      exact ⟨rfl, h⟩
    | cons y r =>
      obtain ⟨rfl, h₁, h₂⟩ := decode_eq_some hl.1
      rw [if_pos ⟨h₁, h₂⟩]
      obtain ⟨hget, hr, -⟩ := fatGet_spec g h y
      rcases hf : fatGet v y fs with ⟨next, fs₁⟩
      rw [hf] at hget hr
      subst hget
      obtain ⟨hlen, hreads⟩ := ih (n + 1) hr hl.2 (by simpa using hle)
      refine ⟨?_, hreads⟩
      rw [hlen, List.length_cons]
      omega

theorem chainLength_chain (g : v.Geometry) (h : Reads v fs f d) (hl : Chain v f c l) :
    (chainLength v c fs).1 = l.length ∧ Reads v (chainLength v c fs).2 f d := by
  rw [chainLength]
  split
  · rename_i hc
    rw [hl.lt_two_iff.mp hc]
    exact ⟨rfl, h⟩
  · have hle := hl.length_le
    obtain ⟨hlen, hreads⟩ := chainCount_spec g (v.totalClusters + 1) 0 h hl.links (by omega)
    exact ⟨by rw [hlen, Nat.zero_add], hreads⟩

/-! ## The free count -/

section
omit v f d

variable {v : Vol}

@[simp] theorem blockdevRead_count (lba count : Nat) (buf : Mem) (off : Nat) (fs : Fs) :
    (blockdevRead v lba count buf off fs).2.2.freeCount = fs.freeCount := by
  rw [blockdevRead]
  split
  · rfl
  · split <;> rfl

@[simp] theorem blockdevWrite_count (lba count : Nat) (buf : Mem) (fs : Fs) :
    (blockdevWrite v lba count buf fs).2.freeCount = fs.freeCount := by
  have hput : ∀ fs : Fs, (Fs.putSectors count lba buf fs).freeCount = fs.freeCount := by
    intro fs
    obtain ⟨disk, images, h⟩ := putSectors_keeps count lba buf fs
    rw [h]
  rw [blockdevWrite]
  split
  · rfl
  · split
    · rfl
    · exact hput _
    · exact hput _

@[simp] theorem flushCopies_count (left i : Nat) (fs : Fs) :
    (flushCopies v left i fs).2.freeCount = fs.freeCount := by
  induction left generalizing i fs with
  | zero => rfl
  | succ left ih =>
    rw [flushCopies]
    have hwrite := blockdevWrite_count (v := v) (fs.fatCacheLba + i * v.fatSectors) 1 fs.fatCache fs
    rcases hw : blockdevWrite v (fs.fatCacheLba + i * v.fatSectors) 1 fs.fatCache fs with ⟨ok, fs₁⟩
    rw [hw] at hwrite
    cases ok with
    | false => exact hwrite
    | true => exact (ih (i + 1) fs₁).trans hwrite

@[simp] theorem fatCacheFlush_count (fs : Fs) :
    (fatCacheFlush v fs).2.freeCount = fs.freeCount := by
  rw [fatCacheFlush]
  split
  · rfl
  · have hcopies := flushCopies_count (v := v) v.numFats 0 fs
    rcases hc : flushCopies v v.numFats 0 fs with ⟨ok, fs₁⟩
    rw [hc] at hcopies
    cases ok <;> exact hcopies

@[simp] theorem fatCacheLoad_count (c : Nat) (fs : Fs) :
    (fatCacheLoad v c fs).2.freeCount = fs.freeCount := by
  rw [fatCacheLoad]
  split
  · rfl
  · have hflush := fatCacheFlush_count (v := v) fs
    rcases hf : fatCacheFlush v fs with ⟨ok, fs₁⟩
    rw [hf] at hflush
    cases ok with
    | false => exact hflush
    | true =>
      have hread := blockdevRead_count (v := v) (v.fatLba + c / PER_FAT_SECTOR) 1 fs₁.fatCache 0 fs₁
      rcases hr : blockdevRead v (v.fatLba + c / PER_FAT_SECTOR) 1 fs₁.fatCache 0 fs₁ with
        ⟨ok, buf, fs₂⟩
      rw [hr] at hread
      simp only [hr]
      cases ok <;> exact hread.trans hflush

@[simp] theorem fatGet_count (c : Nat) (fs : Fs) : (fatGet v c fs).2.freeCount = fs.freeCount := by
  rw [fatGet]
  split
  · rfl
  · have hload := fatCacheLoad_count (v := v) c fs
    rcases hl : fatCacheLoad v c fs with ⟨ok, fs₁⟩
    rw [hl] at hload
    cases ok <;> exact hload

@[simp] theorem fatSet_count (c value : Nat) (fs : Fs) :
    (fatSet v c value fs).2.freeCount = fs.freeCount := by
  rw [fatSet]
  split
  · rfl
  · have hforget : (if value = 0 ∨ value = FAT_MASK then chainMemoForget fs else fs).freeCount =
        fs.freeCount := by split <;> rfl
    generalize (if value = 0 ∨ value = FAT_MASK then chainMemoForget fs else fs) = fs₀ at *
    have hload := fatCacheLoad_count (v := v) c fs₀
    rcases hl : fatCacheLoad v c fs₀ with ⟨ok, fs₁⟩
    rw [hl] at hload
    cases ok <;> exact hload.trans hforget

@[simp] theorem zeroCluster_count (c : Nat) (fs : Fs) :
    (zeroCluster v c fs).2.freeCount = fs.freeCount :=
  blockdevWrite_count _ _ _ _

@[simp] theorem chainStep_count (left c : Nat) (fs : Fs) :
    (chainStep v left c fs).2.freeCount = fs.freeCount := by
  induction left generalizing c fs with
  | zero => rfl
  | succ left ih =>
    rw [chainStep]
    simp only
    split
    · exact fatGet_count c fs
    · exact (ih _ _).trans (fatGet_count c fs)

@[simp] theorem chainNth_count (first index : Nat) (fs : Fs) :
    (chainNth v first index fs).2.freeCount = fs.freeCount := by
  rw [chainNth]
  split
  · rfl
  · have hstep : ∀ {k cur r fs₁}, chainStep v k cur fs = (r, fs₁) → fs₁.freeCount = fs.freeCount :=
      fun {k cur _ _} heq => (congrArg (·.2.freeCount) heq).symm.trans (chainStep_count k cur fs)
    simp only
    split <;> rename_i heq <;> exact (hstep heq :)

@[simp] theorem chainCount_count (left n c : Nat) (fs : Fs) :
    (chainCount v left n c fs).2.freeCount = fs.freeCount := by
  induction left generalizing n c fs with
  | zero => rfl
  | succ left ih =>
    rw [chainCount]
    split
    · exact (ih _ _ _).trans (fatGet_count c fs)
    · rfl

@[simp] theorem chainLength_count (first : Nat) (fs : Fs) :
    (chainLength v first fs).2.freeCount = fs.freeCount := by
  rw [chainLength]
  split
  · rfl
  · exact chainCount_count _ _ _ _

end

/-- How many clusters are free. -/
def freeClusters (v : Vol) (f : Nat → Nat) : Nat :=
  (List.range v.totalClusters).countP fun i => decide (f (i + 2) = 0)

/-- `free_count` is right. -/
def Counted (v : Vol) (fs : Fs) (f : Nat → Nat) : Prop := fs.freeCount = freeClusters v f

theorem freeClusters_le (v : Vol) (f : Nat → Nat) : freeClusters v f ≤ v.totalClusters := by
  simpa [freeClusters] using List.countP_le_length (l := List.range v.totalClusters)
    (p := fun i => decide (f (i + 2) = 0))

theorem freeClusters_congr (h : ∀ y, f' y = 0 ↔ f y = 0) :
    freeClusters v f' = freeClusters v f := by
  simp only [freeClusters, h]

theorem freeClusters_take (hhas : v.has x = true) (hx : f x = 0) (hx' : f' x ≠ 0)
    (hsame : ∀ y, y ≠ x → (f' y = 0 ↔ f y = 0)) :
    freeClusters v f = freeClusters v f' + 1 := by
  obtain ⟨h₁, h₂⟩ := Vol.has_iff.mp hhas
  have hperm := List.perm_cons_erase (List.mem_range.mpr (show x - 2 < v.totalClusters by omega))
  have hrest : ((List.range v.totalClusters).erase (x - 2)).countP (fun i => decide (f (i + 2) = 0)) =
      ((List.range v.totalClusters).erase (x - 2)).countP fun i => decide (f' (i + 2) = 0) := by
    refine List.countP_congr fun i hi => ?_
    obtain ⟨hne, -⟩ := (List.nodup_range.mem_erase_iff).mp hi
    simpa using (hsame (i + 2) (by omega)).symm
  have hx2 : x - 2 + 2 = x := by omega
  rw [freeClusters, freeClusters, hperm.countP_eq, hperm.countP_eq, List.countP_cons,
    List.countP_cons, hrest, hx2]
  simp [hx, hx']

theorem Counted.took (g : v.Geometry) (h : Counted v fs f) (hhas : v.has x = true) (hx : f x = 0)
    (hx' : f' x ≠ 0) (hsame : ∀ y, y ≠ x → (f' y = 0 ↔ f y = 0)) (y : Nat) :
    Counted v (took y fs) f' := by
  have htake := freeClusters_take hhas hx hx' hsame
  have hle := freeClusters_le v f
  have := g.bits
  simp only [Counted, Fat32.took] at h ⊢
  rw [h, if_pos (by simp only [FAT_BAD] at this; omega)]
  omega

theorem Counted.gave (g : v.Geometry) (h : Counted v fs f) (hhas : v.has x = true) (hx : f x ≠ 0)
    (hint : Nat) :
    Counted v { fs with
      freeCount := if fs.freeCount ≠ 0xFFFFFFFF then fs.freeCount + 1 else fs.freeCount
      freeHint := hint } (update f x (0 % 268435456)) := by
  have htake := freeClusters_take (f := update f x (0 % 268435456)) hhas
    (by simp) hx fun y hy => by rw [update_of_ne hy]
  have hle := freeClusters_le v f
  have := g.bits
  simp only [Counted] at h ⊢
  rw [h, if_pos (by simp only [FAT_BAD] at this; omega), htake]

/-! ## Taking a cluster -/

/-- The FAT after `x` was taken and linked behind `prev`. -/
def link (f : Nat → Nat) (prev x : Nat) : Nat → Nat :=
  if prev = 0 then update f x FAT_MASK
  else update (update f x FAT_MASK) prev x

theorem link_self {prev : Nat} (hx : f x = 0) (hprev : prev = 0 ∨ f prev ≠ 0) :
    link f prev x x ≠ 0 := by
  rw [link]
  split
  · simp
  · rename_i hp
    have hne : x ≠ prev := by
      rintro rfl
      exact hprev.resolve_left hp hx
    rw [update_of_ne hne, update_self]
    decide

theorem link_zero {prev y : Nat} (hx0 : x ≠ 0) (hprev : prev = 0 ∨ f prev ≠ 0) (hy : y ≠ x) :
    link f prev x y = 0 ↔ f y = 0 := by
  rw [link]
  split
  · rw [update_of_ne hy]
  · rename_i hp
    by_cases hyp : y = prev
    · rw [hyp, update_self]
      simp [hx0, hprev.resolve_left hp]
    · rw [update_of_ne hyp, update_of_ne hy]

theorem Reads.has_of_free (h : Reads v fs f d) (hx : f x = 0) : v.has x = true := by
  cases hv : v.has x with
  | true => rfl
  | false => exact absurd ((h.fat_out hv).symm.trans hx) (by decide)

theorem Reads.took (h : Reads v fs f d) (c : Nat) : Reads v (Fat32.took c fs) f d :=
  ⟨⟨h.ok.served, h.ok.lba, h.ok.clean, h.ok.memo⟩, h.fat, h.data⟩

theorem allocScan_spec (g : v.Geometry) {prev : Nat} (hprev : prev = 0 ∨ v.has prev = true)
    (left c : Nat) (h : Reads v fs f d) :
    (∃ fs', allocScan v prev left c fs = (none, fs') ∧ Reads v fs' f d ∧
      (∀ x, c ≤ x → x < c + left → f x ≠ 0) ∧ fs'.freeCount = fs.freeCount) ∨
    (∃ x fs', allocScan v prev left c fs = (some x, fs') ∧ f x = 0 ∧
      Reads v fs' (link f prev x) d ∧
      ((prev = 0 ∨ f prev ≠ 0) → Counted v fs f → Counted v fs' (link f prev x))) := by
  induction left generalizing c fs with
  | zero => exact .inl ⟨fs, rfl, h, fun x h₁ h₂ => absurd h₂ (by omega), rfl⟩
  | succ left ih =>
    obtain ⟨hget, h₁, -⟩ := fatGet_spec g h c
    have hcount := fatGet_count (v := v) c fs
    rw [allocScan]
    rcases hf : fatGet v c fs with ⟨e, fs₁⟩
    rw [hf] at hget h₁ hcount
    subst hget
    simp only
    split
    · rename_i hused
      rcases ih (c + 1) h₁ with ⟨fs', heq, hr, hall, hcount'⟩ | ⟨x, fs', heq, hx, hr, hcounted⟩
      · refine .inl ⟨fs', heq, hr, fun x hx₁ hx₂ => ?_, hcount'.trans hcount⟩
        by_cases hx : x = c
        · subst hx; exact hused
        · exact hall x (by omega) (by omega)
      · exact .inr ⟨x, fs', heq, hx, hr, fun hp hc => hcounted hp (hcount.trans hc)⟩
    · rename_i hfree
      have hfree : f c = 0 := by simpa using hfree
      have hc := h₁.has_of_free hfree
      obtain ⟨hge, hlt⟩ := g.lt_bad hc
      obtain ⟨hok, h₂, hm⟩ := fatSet_spec g h₁ hc FAT_MASK (.inr (.inl rfl))
      have hcount₂ := (fatSet_count (v := v) c FAT_MASK fs₁).trans hcount
      rcases hs : fatSet v c FAT_MASK fs₁ with ⟨ok, fs₂⟩
      rw [hs] at hok h₂ hm hcount₂
      subst hok
      right
      by_cases hp : prev = 0
      · simp only [if_pos hp]
        refine ⟨c, _, rfl, hfree, ?_, fun _ hcounted => ?_⟩
        · rw [link, if_pos hp]
          exact h₂.took c
        · exact Counted.took g (hcount₂.trans hcounted) hc hfree (link_self hfree (.inl hp))
            (fun y hy => link_zero (by omega) (.inl hp) hy) c
      · simp only [if_neg hp]
        obtain ⟨hok, h₃, -⟩ := fatSet_spec g h₂ (hprev.resolve_left hp) c
          (.inr (.inr hm))
        have hcount₃ := (fatSet_count (v := v) prev c fs₂).trans hcount₂
        rcases hs' : fatSet v prev c fs₂ with ⟨ok, fs₃⟩
        rw [hs'] at hok h₃ hcount₃
        subst hok
        refine ⟨c, _, rfl, hfree, ?_, fun hused hcounted => ?_⟩
        · rw [link, if_neg hp]
          have hmod : c % 268435456 = c := Nat.mod_eq_of_lt (by simp only [FAT_BAD] at hlt; omega)
          rw [hmod] at h₃
          exact h₃.took c
        · exact Counted.took g (hcount₃.trans hcounted) hc hfree (link_self hfree hused)
            (fun y hy => link_zero (by omega) hused hy) c

theorem allocCluster_spec (g : v.Geometry) {prev : Nat} (hprev : prev = 0 ∨ v.has prev = true)
    (h : Reads v fs f d) :
    (∃ fs', allocCluster v prev fs = (0, fs') ∧ Reads v fs' f d ∧
      (∀ x, v.has x = true → f x ≠ 0) ∧ fs'.freeCount = fs.freeCount) ∨
    (∃ x fs', allocCluster v prev fs = (x, fs') ∧ f x = 0 ∧ v.has x = true ∧
      Reads v fs' (link f prev x) d ∧
      ((prev = 0 ∨ f prev ≠ 0) → Counted v fs f → Counted v fs' (link f prev x))) := by
  rw [allocCluster]
  generalize (if fs.freeHint < 2 then 2 else fs.freeHint) = start
  rcases allocScan_spec g hprev (v.totalClusters + 2 - start) start h with
    ⟨fs₁, heq, h₁, hall, hcount⟩ | ⟨x, fs₁, heq, hx, h₁, hcounted⟩
  · rw [heq]
    simp only
    rcases allocScan_spec g hprev (start - 2) 2 h₁ with
      ⟨fs₂, heq₂, h₂, hall₂, hcount₂⟩ | ⟨x, fs₂, heq₂, hx, h₂, hcounted⟩
    · rw [heq₂]
      refine .inl ⟨fs₂, rfl, h₂, fun x hx => ?_, hcount₂.trans hcount⟩
      obtain ⟨hx₁, hx₂⟩ := Vol.has_iff.mp hx
      by_cases hxs : start ≤ x
      · exact hall x hxs (by omega)
      · exact hall₂ x hx₁ (by omega)
    · rw [heq₂]
      exact .inr ⟨x, fs₂, rfl, hx, h₁.has_of_free hx, h₂, fun hp hc => hcounted hp (hcount.trans hc)⟩
  · rw [heq]
    exact .inr ⟨x, fs₁, rfl, hx, h.has_of_free hx, h₁, hcounted⟩

/-! ## Writing clusters -/

theorem data_eq (fs : Fs) {i : Nat} (hc : v.has c = true) (hi : i < v.clusterBytes) :
    fs.data v c i = fs.disk (clusterLba v c + i / BLOCK_SECTOR_SIZE) (i % BLOCK_SECTOR_SIZE) := by
  simp [Fs.data, hc, hi]

theorem data_zero (fs : Fs) {i : Nat} (h : ¬ (v.has c = true ∧ i < v.clusterBytes)) :
    fs.data v c i = 0 := by
  simp only [Fs.data, Bool.and_eq_true, decide_eq_true_eq]
  exact if_neg h

theorem Reads.data_out (h : Reads v fs f d) {i : Nat} (hi : v.clusterBytes ≤ i) : d c i = 0 := by
  rw [← h.data]
  exact data_zero fs (by omega)

theorem writeCluster_spec (g : v.Geometry) (h : Reads v fs f d) (hc : v.has c = true)
    (s count : Nat) (hpos : 0 < count) (hle : s + count ≤ v.sectorsPerCluster) (buf : Mem) :
    ∃ fs', blockdevWrite v (clusterLba v c + s) count buf fs = (true, fs') ∧
      Reads v fs' f (update d c ((d c).copyAt (s * BLOCK_SECTOR_SIZE) buf
        (count * BLOCK_SECTOR_SIZE))) := by
  have hfit := g.cluster_fits hc
  have hdata := g.dataLba_le hc
  have hfat := g.fatSectors_le
  rw [blockdevWrite_served h.ok.served (inRange_of_le hpos (by omega))]
  refine ⟨_, rfl, ?_⟩
  have hdisk := putSectors_disk count (clusterLba v c + s) buf fs
  obtain ⟨disk, images, heq⟩ := putSectors_keeps count (clusterLba v c + s) buf fs
  rw [heq] at hdisk ⊢
  simp only at hdisk
  have hlow : ∀ l, l < v.dataLba → disk l = fs.disk l := by
    intro l hl
    rw [hdisk, if_neg (by omega)]
  have hview : ({ fs with disk := disk, images := images } : Fs).fat v = fs.fat v := by
    refine fat_congr g fun l _ hl i _ => ?_
    simp only [Fs.fatSector]
    rw [hlow l (by omega)]
  refine ⟨⟨h.ok.served, h.ok.lba, ?_, ?_⟩, hview.trans h.fat, ?_⟩
  · intro hclean hne i hi
    rcases h.ok.lba with h0 | h0
    · exact absurd h0 hne
    · have hsame : disk fs.fatCacheLba = fs.disk fs.fatCacheLba := hlow _ (by omega)
      exact (h.ok.clean hclean hne i hi).trans (congrFun hsame.symm i)
  · intro hm
    rw [hview]
    exact h.ok.memo hm
  · funext x i
    rw [← h.data]
    by_cases hin : v.has x = true ∧ i < v.clusterBytes
    · obtain ⟨hx, hi⟩ := hin
      rw [data_eq _ hx hi]
      simp only [hdisk]
      simp only [Vol.clusterBytes, BLOCK_SECTOR_SIZE] at hi ⊢
      by_cases hxc : x = c
      · subst hxc
        rw [update_self, Mem.copyAt_apply, data_eq fs hx hi]
        by_cases hrun : s * 512 ≤ i ∧ i < s * 512 + count * 512
        · rw [if_pos hrun, if_pos (by omega), Mem.shift_apply]
          congr 1
          omega
        · rw [if_neg hrun, if_neg (by omega)]
      · rw [update_of_ne hxc, data_eq fs hx hi, if_neg]
        rintro ⟨h₁, h₂⟩
        exact hxc (g.clusterLba_inj (i / 512)
          (clusterLba v x + i / 512 - clusterLba v c) hx hc (by omega) (by omega)
          (by omega)).1
    · rw [data_zero _ hin]
      by_cases hxc : x = c
      · subst hxc
        rw [update_self, Mem.copyAt_outside, data_zero fs hin]
        simp only [hc, true_and, Vol.clusterBytes, BLOCK_SECTOR_SIZE] at hin ⊢
        omega
      · rw [update_of_ne hxc, data_zero fs hin]

theorem zeroCluster_spec (g : v.Geometry) (h : Reads v fs f d) (hc : v.has c = true) :
    ∃ fs', zeroCluster v c fs = (true, fs') ∧ Reads v fs' f (update d c fun _ => 0) := by
  obtain ⟨fs', heq, hr⟩ := writeCluster_spec g h hc 0 v.sectorsPerCluster g.spc_pos (by omega) fun _ => 0
  refine ⟨fs', heq, ?_⟩
  convert hr using 2
  funext i
  rw [Mem.copyAt_apply]
  split
  · rfl
  · rename_i hi
    exact (h.data_out (by simp only [Vol.clusterBytes]; omega)).symm

/-! ## Freeing a chain -/

theorem freeLoop_spec (g : v.Geometry) {fuel : Nat} (h : Reads v fs f d)
    (hl : Links (follow f) (decode c) l) (hhas : ∀ x ∈ l, v.has x = true)
    (hfuel : l.length < fuel) :
    Reads v (freeLoop v fuel c fs) (fun x => if x ∈ l then 0 else f x) d ∧
    ((∀ x ∈ l, f x ≠ 0) → Counted v fs f →
      Counted v (freeLoop v fuel c fs) fun x => if x ∈ l then 0 else f x) := by
  induction fuel generalizing c l f fs with
  | zero => exact absurd hfuel (Nat.not_lt_zero _)
  | succ fuel ih =>
    rw [freeLoop]
    cases l with
    | nil =>
      have hend : decode c = none := hl
      have hstop : ¬ (2 ≤ c ∧ c < FAT_BAD) := by
        intro hc
        rw [decode, if_neg (by omega)] at hend
        exact absurd hend (by simp)
      rw [if_neg hstop]
      exact ⟨by simpa using h, fun _ hc => by simpa using hc⟩
    | cons y r =>
      obtain ⟨rfl, h₁, h₂⟩ := decode_eq_some hl.1
      rw [if_pos ⟨h₁, h₂⟩]
      obtain ⟨hget, hr, -⟩ := fatGet_spec g h y
      have hcount := fatGet_count (v := v) y fs
      rcases hf : fatGet v y fs with ⟨next, fs₁⟩
      rw [hf] at hget hr hcount
      subst hget
      obtain ⟨hok, hset, -⟩ := fatSet_spec g hr (hhas y List.mem_cons_self) 0 (.inl rfl)
      have hcount₂ := (fatSet_count (v := v) y 0 fs₁).trans hcount
      rcases hs : fatSet v y 0 fs₁ with ⟨ok, fs₂⟩
      rw [hs] at hok hset hcount₂
      subst hok
      have hy : y ∉ r := (List.nodup_cons.mp hl.nodup).1
      have hnext : Links (follow (update f y (0 % 268435456))) (decode (f y)) r := by
        refine hl.2.congr fun z hz => ?_
        rw [follow_eq, follow_eq, update_of_ne (ne_of_mem_of_not_mem hz hy)]
      have hcounted : Reads v { fs₂ with
          freeCount := if fs₂.freeCount ≠ 0xFFFFFFFF then fs₂.freeCount + 1 else fs₂.freeCount
          freeHint := if y < fs₂.freeHint then y else fs₂.freeHint }
          (update f y (0 % 268435456)) d :=
        ⟨⟨hset.ok.served, hset.ok.lba, hset.ok.clean, hset.ok.memo⟩, hset.fat, hset.data⟩
      obtain ⟨hrest, hcrest⟩ := ih hcounted hnext
        (fun z hz => hhas z (List.mem_cons_of_mem y hz)) (by simpa using hfuel)
      have hcleared : (fun x => if x ∈ y :: r then 0 else f x) =
          fun x => if x ∈ r then 0 else update f y (0 % 268435456) x := by
        funext z
        by_cases hz : z = y
        · subst hz
          simp
        · simp [hz]
      rw [hcleared]
      simp only [hs]
      refine ⟨hrest, fun hused hc => hcrest (fun z hz => ?_) ?_⟩
      · rw [update_of_ne (ne_of_mem_of_not_mem hz hy)]
        exact hused z (List.mem_cons_of_mem y hz)
      · exact Counted.gave g (hcount₂.trans hc) (hhas y List.mem_cons_self)
          (hused y List.mem_cons_self) _

theorem freeChain_spec (g : v.Geometry) (h : Reads v fs f d) (hl : Chain v f c l) :
    Reads v (freeChain v c fs) (fun x => if x ∈ l then 0 else f x) d := by
  have := hl.length_le
  exact (freeLoop_spec g h hl.links hl.has (by omega)).1

theorem freeChain_counted (g : v.Geometry) (h : Reads v fs f d) (hl : Chain v f c l)
    (hc : Counted v fs f) : Counted v (freeChain v c fs) fun x => if x ∈ l then 0 else f x := by
  have := hl.length_le
  exact (freeLoop_spec g h hl.links hl.has (by omega)).2 hl.used hc

/-- The FAT after a chain was cut behind `k` and the rest `r` was freed. -/
def cutFat (f : Nat → Nat) (k : Nat) (r : List Nat) : Nat → Nat :=
  fun x => if x ∈ r then 0 else update f k FAT_MASK x

namespace Chain

variable {b r : List Nat} {k : Nat}

theorem not_mem_rest (h : Chain v f c (b ++ [k] ++ r)) (hx : x ∈ b ++ [k]) : x ∉ r :=
  fun hr => (List.nodup_append.mp h.nodup).2.2 x hx x hr rfl

theorem rest (h : Chain v f c (b ++ [k] ++ r)) : Links (follow f) (decode (f k)) r := by
  have hlinks := h.links
  rw [List.append_assoc] at hlinks
  exact hlinks.suffix

theorem cut (h : Chain v f c (b ++ [k] ++ r)) : Chain v (cutFat f k r) c (b ++ [k]) := by
  have hk : k ∉ b := fun hm =>
    (List.nodup_append.mp (List.nodup_append.mp h.nodup).1).2.2 k hm k (by simp) rfl
  have hold : ∀ x ∈ b, cutFat f k r x = f x := by
    intro x hx
    rw [cutFat, if_neg (h.not_mem_rest (List.mem_append_left _ hx)),
      update_of_ne (ne_of_mem_of_not_mem hx hk)]
  have hlast : cutFat f k r k = FAT_MASK := by
    rw [cutFat, if_neg (h.not_mem_rest (by simp)), update_self]
  refine ⟨?_, h.head, fun x hx => h.has x (List.mem_append_left _ hx), ?_⟩
  · have hlinks := h.links
    rw [List.append_assoc] at hlinks
    refine hlinks.cut ?_ fun z hz => ?_
    · rw [follow_eq, hlast]
      exact decode_end (.inr (by decide))
    · rw [follow_eq, follow_eq, hold z hz]
  · intro x hx
    rcases List.mem_append.mp hx with hx | hx
    · rw [hold x hx]
      exact h.used x (by simp [hx])
    · rw [List.mem_singleton.mp hx, hlast]
      decide

end Chain

theorem freeClusters_mask {k : Nat} (hk : f k ≠ 0) :
    freeClusters v (update f k FAT_MASK) = freeClusters v f := by
  refine freeClusters_congr fun y => ?_
  rw [update_apply]
  split
  · rename_i hy
    rw [hy]
    simp [hk]
  · rfl

theorem freeRest_spec (g : v.Geometry) (h : Reads v fs f d) {b r : List Nat} {k : Nat}
    (hl : Chain v f c (b ++ [k] ++ r)) (hrest : 2 ≤ f k ∧ f k < FAT_BAD) :
    Reads v (freeChain v (f k) (fatSet v k FAT_MASK fs).2) (cutFat f k r) d ∧
    (Counted v fs f → Counted v (freeChain v (f k) (fatSet v k FAT_MASK fs).2) (cutFat f k r)) := by
  have hk := hl.has k (by simp)
  obtain ⟨-, h₁, -⟩ := fatSet_spec g h hk FAT_MASK (.inr (.inl rfl))
  have hnotin : k ∉ r := hl.not_mem_rest (by simp)
  have hsame : ∀ x ∈ r, update f k FAT_MASK x = f x := fun x hx =>
    update_of_ne (ne_of_mem_of_not_mem hx hnotin) _ _
  have hchain : Chain v (update f k FAT_MASK) (f k) r := by
    refine ⟨?_, hrest.2, fun x hx => hl.has x (List.mem_append_right _ hx), ?_⟩
    · exact hl.rest.congr fun z hz => by rw [follow_eq, follow_eq, hsame z hz]
    · intro x hx
      rw [hsame x hx]
      exact hl.used x (List.mem_append_right _ hx)
  exact ⟨freeChain_spec g h₁ hchain, fun hc => freeChain_counted g h₁ hchain
    (((fatSet_count k FAT_MASK fs).trans hc).trans (freeClusters_mask (hl.used k (by simp))).symm)⟩

/-! ## Growing a chain -/

/-- The chain `l` has become `l ++ new`, from the cluster `c`: the new
clusters were free and are zeroed, no other chain or cluster changed. -/
structure Grown (v : Vol) (f f' : Nat → Nat) (d d' : Nat → Mem) (l new : List Nat) (c : Nat) :
    Prop where
  chain : Chain v f' c (l ++ new)
  fresh : ∀ x ∈ new, f x = 0
  outside : ∀ x, x ∉ l → x ∉ new → f' x = f x
  kept : ∀ x, f x ≠ 0 → d' x = d x
  zeroed : ∀ x ∈ new, d' x = fun _ => 0

namespace Grown

variable {new : List Nat} {f₁ f₂ : Nat → Nat} {d₁ : Nat → Mem}

theorem refl (h : Chain v f c l) : Grown v f f d d l [] c :=
  ⟨by simpa using h, by simp, fun _ _ _ => rfl, fun _ _ => rfl, by simp⟩

theorem free_iff (h : Grown v f f' d d' l new c) (hused : ∀ x ∈ l, f x ≠ 0) (x : Nat) :
    f' x = 0 ↔ f x = 0 ∧ x ∉ new := by
  by_cases hl : x ∈ l
  · have h₁ := h.chain.used x (List.mem_append_left _ hl)
    have h₂ := hused x hl
    simp [h₁, h₂]
  · by_cases hn : x ∈ new
    · have h₁ := h.chain.used x (List.mem_append_right _ hn)
      simp [h₁, hn]
    · simp [h.outside x hl hn, hn]

theorem first (g : v.Geometry) (hx : f x = 0) (hhas : v.has x = true) :
    Grown v f (link f 0 x) d (update d x fun _ => 0) [] [x] x := by
  have hlink : link f 0 x = update f x FAT_MASK := if_pos rfl
  rw [hlink]
  refine ⟨⟨⟨g.decode_has hhas, ?_⟩, (g.lt_bad hhas).2, by simpa using hhas, ?_⟩, by simpa using hx,
    ?_, ?_, by simp⟩
  · rw [follow_eq, update_self]
    exact decode_end (.inr (by decide))
  · simp
  · intro y _ hy
    exact update_of_ne (by simpa using hy) _ _
  · intro y hy
    refine update_of_ne ?_ _ _
    rintro rfl
    exact hy hx

/-- One more cluster behind the last. -/
theorem next (g : v.Geometry) (h : Grown v f f₁ d d₁ l new c) {a : List Nat} {cur : Nat}
    (hcur : l ++ new = a ++ [cur]) (hx : f₁ x = 0) (hhas : v.has x = true) :
    Grown v f (link f₁ cur x) d (update d₁ x fun _ => 0) l (new ++ [x]) c := by
  have hchain := h.chain
  rw [hcur] at hchain
  have hcurmem : cur ∈ a ++ [cur] := by simp
  have hcur2 := (g.lt_bad (hchain.has cur hcurmem)).1
  have hlink : link f₁ cur x = update (update f₁ x FAT_MASK) cur x :=
    if_neg (by omega)
  have hxc : x ≠ cur := by
    rintro rfl
    exact hchain.used x hcurmem hx
  have hnotin : x ∉ a ++ [cur] := fun hm => hchain.used x hm hx
  have hat : ∀ y, y ≠ cur → y ≠ x → link f₁ cur x y = f₁ y := by
    intro y h₁ h₂
    rw [hlink, update_of_ne h₁, update_of_ne h₂]
  have hatcur : link f₁ cur x cur = x := by rw [hlink, update_self]
  have hatx : link f₁ cur x x = FAT_MASK := by
    rw [hlink, update_of_ne hxc, update_self]
  have hnew : l ++ (new ++ [x]) = a ++ [cur, x] := by
    rw [← List.append_assoc, hcur, List.append_assoc]
    rfl
  have ha : ∀ z ∈ a, z ≠ cur ∧ z ≠ x := by
    intro z hz
    refine ⟨?_, ?_⟩
    · rintro rfl
      have := List.nodup_append.mp hchain.nodup
      exact this.2.2 z hz z (by simp) rfl
    · rintro rfl
      exact hnotin (List.mem_append_left _ hz)
  refine ⟨⟨?_, h.chain.head, ?_, ?_⟩, ?_, ?_, ?_, ?_⟩
  · rw [hnew]
    refine hchain.links.concat ?_ ?_ fun z hz => ?_
    · rw [follow_eq, hatcur, g.decode_has hhas]
    · rw [follow_eq, hatx]
      exact decode_end (.inr (by decide))
    · rw [follow_eq, follow_eq, hat z (ha z hz).1 (ha z hz).2]
  · intro y hy
    rw [← List.append_assoc, List.mem_append] at hy
    rcases hy with hy | hy
    · exact h.chain.has y hy
    · rw [List.mem_singleton.mp hy]
      exact hhas
  · intro y hy
    by_cases hyx : y = x
    · rw [hyx, hatx]
      decide
    · by_cases hyc : y = cur
      · have := (g.lt_bad hhas).1
        rw [hyc, hatcur]
        omega
      · rw [hat y hyc hyx]
        refine h.chain.used y ?_
        rw [← List.append_assoc, List.mem_append] at hy
        exact hy.resolve_right (by simpa using hyx)
  · intro y hy
    rcases List.mem_append.mp hy with hy | hy
    · exact h.fresh y hy
    · obtain rfl := List.mem_singleton.mp hy
      rw [← h.outside y ?_ ?_]
      · exact hx
      · exact fun hm => hnotin (hcur ▸ List.mem_append_left _ hm)
      · exact fun hm => hnotin (hcur ▸ List.mem_append_right _ hm)
  · intro y hyl hyn
    have hyx : y ≠ x := by rintro rfl; simp at hyn
    have hyn' : y ∉ new := fun hm => hyn (List.mem_append_left _ hm)
    have hyc : y ≠ cur := by
      rintro rfl
      have hm : y ∈ l ++ new := by rw [hcur]; simp
      exact (List.mem_append.mp hm).elim hyl hyn'
    rw [hat y hyc hyx, h.outside y hyl hyn']
  · intro y hy
    have hyx : y ≠ x := by
      rintro rfl
      refine hy ?_
      rw [← h.outside y ?_ ?_]
      · exact hx
      · exact fun hm => hnotin (hcur ▸ List.mem_append_left _ hm)
      · exact fun hm => hnotin (hcur ▸ List.mem_append_right _ hm)
    rw [update_of_ne hyx, h.kept y hy]
  · intro y hy
    by_cases hyx : y = x
    · rw [hyx, update_self]
    · rw [update_of_ne hyx]
      rcases List.mem_append.mp hy with hy | hy
      · exact h.zeroed y hy
      · exact absurd (List.mem_singleton.mp hy) hyx

theorem undo_first (h : Grown v f f₁ d d₁ [] new c) {head : Nat} (hhead : head < 2) :
    Grown v f (fun x => if x ∈ new then 0 else f₁ x) d d₁ [] [] head := by
  refine ⟨Chain.of_empty hhead, by simp, fun x hl _ => ?_, h.kept, by simp⟩
  by_cases hx : x ∈ new
  · simp only [hx, if_true]
    exact (h.fresh x hx).symm
  · simp only [hx, if_false]
    exact h.outside x hl hx

theorem undo {k : Nat} {b : List Nat} (h : Grown v f f₁ d d₁ (b ++ [k]) new c) :
    Grown v f (cutFat f₁ k new) d d₁ (b ++ [k]) [] c := by
  refine ⟨by simpa using h.chain.cut, by simp, fun x hl _ => ?_, h.kept, by simp⟩
  rw [cutFat]
  by_cases hx : x ∈ new
  · rw [if_pos hx]
    exact (h.fresh x hx).symm
  · have hxk : x ≠ k := by rintro rfl; simp at hl
    rw [if_neg hx, update_of_ne hxk]
    exact h.outside x hl hx

end Grown

/-- Only the first cluster and the dirty flag of a node may differ. -/
def Rehead (node node' : Node) : Prop :=
  node' = { node with fsCluster := node'.fsCluster, fsDirty := node'.fsDirty }

variable {node : Node} {new : List Nat} {f₁ : Nat → Nat} {d₁ : Nat → Mem} {headWas had : Nat}

/-- The chain that is being grown: one that had no cluster, or one that had
`had`. -/
def Base (headWas had c : Nat) (l : List Nat) : Prop :=
  (headWas < 2 ∧ l = []) ∨ (headWas = c ∧ had = l.length ∧ l ≠ [])

theorem rollback_spec (g : v.Geometry) (h : Reads v fs f₁ d₁)
    (hg : Grown v f f₁ d d₁ l new node.fsCluster) (hbase : Base headWas had node.fsCluster l) :
    ∃ node' fs' f', rollback v headWas had node fs = (node', fs') ∧ Reads v fs' f' d₁ ∧
      Grown v f f' d d₁ l [] headWas ∧ node'.fsCluster = headWas ∧ Rehead node node' ∧
      (Counted v fs f₁ → Counted v fs' f') := by
  rcases hbase with ⟨hhead, rfl⟩ | ⟨rfl, rfl, hne⟩
  · rw [rollback, if_pos hhead]
    have hchain : Chain v f₁ node.fsCluster new := hg.chain
    exact ⟨_, _, _, rfl, freeChain_spec g h hchain, hg.undo_first hhead, rfl, rfl,
      freeChain_counted g h hchain⟩
  · obtain ⟨b, k, rfl⟩ := (List.eq_nil_or_concat' _).resolve_left hne
    have hhead : ¬ node.fsCluster < 2 := fun hlt => by
      have := hg.chain.lt_two_iff.mp hlt
      simp at this
    rw [rollback, if_neg hhead, lastOf_length (by simp)]
    obtain ⟨hnth, h₁⟩ := chainNth_chain g h hg.chain ((b ++ [k]).length - 1)
    have hcount := chainNth_count (v := v) node.fsCluster ((b ++ [k]).length - 1) fs
    rcases hc : chainNth v node.fsCluster ((b ++ [k]).length - 1) fs with ⟨keep, fs₁⟩
    rw [hc] at hnth h₁ hcount
    simp only at hnth h₁ hcount
    have hkeep : keep = k := by
      rw [hnth]
      simp
    subst hkeep
    have hk : v.has keep = true := hg.chain.has keep (by simp)
    simp only
    rw [if_neg (by have := (g.lt_bad hk).1; omega)]
    obtain ⟨hget, h₂, -⟩ := fatGet_spec g h₁ keep
    have hcount₂ := (fatGet_count (v := v) keep fs₁).trans hcount
    rcases hf : fatGet v keep fs₁ with ⟨rest, fs₂⟩
    rw [hf] at hget h₂ hcount₂
    subst hget
    by_cases hrest : 2 ≤ f₁ keep ∧ f₁ keep < FAT_BAD
    · obtain ⟨h₃, hcounted⟩ := freeRest_spec g h₂ hg.chain hrest
      refine ⟨_, _, _, ?_, h₃, hg.undo, rfl, rfl, fun hc => hcounted (hcount₂.trans hc)⟩
      simp only [if_pos hrest]
    · obtain rfl : new = [] := by
        have := hg.chain.rest
        rw [decode_end (by omega)] at this
        exact this.eq_nil
      obtain ⟨-, h₃, -⟩ := fatSet_spec g h₂ hk FAT_MASK (.inr (.inl rfl))
      have hcut : cutFat f₁ keep [] = update f₁ keep (FAT_MASK % 268435456) := by
        funext x
        simp [cutFat]
      rw [← hcut] at h₃
      refine ⟨_, _, _, ?_, h₃, hg.undo, rfl, rfl, fun hc => ?_⟩
      · simp only [if_neg hrest]
      · rw [hcut]
        exact ((fatSet_count keep FAT_MASK fs₂).trans (hcount₂.trans hc)).trans
          (freeClusters_mask (hg.chain.used keep (by simp))).symm

theorem growChain_spec (g : v.Geometry) (left : Nat) {cur : Nat} {a : List Nat}
    (h : Reads v fs f₁ d₁) (hg : Grown v f f₁ d d₁ l new node.fsCluster)
    (hcur : l ++ new = a ++ [cur]) (hbase : Base headWas had node.fsCluster l) :
    ∃ res node' fs' f' d' new', growChain v headWas had node left cur fs = (res, node', fs') ∧
      Reads v fs' f' d' ∧ Grown v f f' d d' l new' node'.fsCluster ∧ Rehead node node' ∧
      ((res = .ok () ∧ node'.fsCluster = node.fsCluster ∧
          (l ++ new').length = (l ++ new).length + left) ∨
        (res = .error ENOSPC ∧ new' = [] ∧ node'.fsCluster = headWas)) ∧
      (Counted v fs f₁ → Counted v fs' f') := by
  induction left generalizing cur fs f₁ d₁ new a with
  | zero => exact ⟨_, _, _, f₁, d₁, new, rfl, h, hg, rfl, .inl ⟨rfl, rfl, rfl⟩, id⟩
  | succ left ih =>
    have hcurhas : v.has cur = true := by
      refine hg.chain.has cur ?_
      rw [hcur]
      simp
    rw [growChain]
    rcases allocCluster_spec g (.inr hcurhas) h with
      ⟨fs₁, heq, h₁, -, hcount⟩ | ⟨x, fs₁, heq, hx, hhas, h₁, hcounted⟩
    · rw [heq]
      simp only [if_true]
      obtain ⟨node', fs', f', hroll, hr, hg', hhead, hre, hcounted⟩ := rollback_spec g h₁ hg hbase
      rw [hroll]
      exact ⟨_, _, _, f', d₁, [], rfl, hr, by rw [hhead]; exact hg', hre, .inr ⟨rfl, rfl, hhead⟩,
        fun hc => hcounted (hcount.trans hc)⟩
    · rw [heq]
      have hx0 : x ≠ 0 := by have := (g.lt_bad hhas).1; omega
      obtain ⟨fs₂, hz, h₂⟩ := zeroCluster_spec g h₁ hhas
      have hcount := (congrArg (·.2.freeCount) hz).symm.trans (zeroCluster_count x fs₁)
      simp only [if_neg hx0, hz]
      have hnew : l ++ (new ++ [x]) = (a ++ [cur]) ++ [x] := by rw [← List.append_assoc, hcur]
      obtain ⟨res, node', fs', f', d', new', hgrow, hr, hg', hre, hres, hcounted'⟩ :=
        ih h₂ (hg.next g hcur hx hhas) hnew
      have hused : f₁ cur ≠ 0 := hg.chain.used cur (by rw [hcur]; simp)
      refine ⟨res, node', fs', f', d', new', hgrow, hr, hg', hre, ?_,
        fun hc => hcounted' (hcount.trans (hcounted (.inr hused) hc))⟩
      rcases hres with ⟨h₁, h₂, h₃⟩ | hfail
      · refine .inl ⟨h₁, h₂, ?_⟩
        rw [h₃]
        simp only [List.length_append, List.length_singleton]
        omega
      · exact .inr hfail

theorem extendChain_spec (g : v.Geometry) (headWas had need : Nat) (h : Reads v fs f₁ d₁)
    (hg : Grown v f f₁ d d₁ l new node.fsCluster) (hhad : had = (l ++ new).length)
    (hne : l ++ new ≠ []) (hbase : Base headWas had node.fsCluster l) (hneed : had ≤ need) :
    ∃ res node' fs' f' d' new', extendChain v headWas had need node fs = (res, node', fs') ∧
      Reads v fs' f' d' ∧ Grown v f f' d d' l new' node'.fsCluster ∧ Rehead node node' ∧
      ((res = .ok () ∧ (l ++ new').length = need) ∨
        (res = .error ENOSPC ∧ new' = [] ∧ node'.fsCluster = headWas)) ∧
      (Counted v fs f₁ → Counted v fs' f') := by
  obtain ⟨a, cur, hcur⟩ := (List.eq_nil_or_concat' _).resolve_left hne
  rw [extendChain, hhad, lastOf_length hne, ← hhad]
  obtain ⟨hnth, h₁⟩ := chainNth_chain g h hg.chain (had - 1)
  have hcount := chainNth_count (v := v) node.fsCluster (had - 1) fs
  rcases hc : chainNth v node.fsCluster (had - 1) fs with ⟨c, fs₁⟩
  rw [hc] at hnth h₁ hcount
  simp only at hnth h₁ hcount
  have hlast : c = cur := by
    rw [hnth, hhad, hcur]
    simp
  subst hlast
  have hhas : v.has c = true := by
    refine hg.chain.has c ?_
    rw [hcur]
    simp
  simp only
  rw [if_neg (by have := (g.lt_bad hhas).1; omega)]
  obtain ⟨res, node', fs', f', d', new', hgrow, hr, hg', hre, hres, hcounted⟩ :=
    growChain_spec g (need - had) h₁ hg hcur hbase
  refine ⟨res, node', fs', f', d', new', hgrow, hr, hg', hre, ?_,
    fun hc => hcounted (hcount.trans hc)⟩
  rcases hres with ⟨h₁, -, h₃⟩ | hfail
  · exact .inl ⟨h₁, by omega⟩
  · exact .inr hfail

theorem ensureChain_enough (g : v.Geometry) (h : Reads v fs f d)
    (hl : Chain v f node.fsCluster l) {need : Nat} (hneed : need ≤ l.length) :
    ∃ fs', ensureChain v node need fs = (.ok (), node, fs') ∧ Reads v fs' f d := by
  rw [ensureChain]
  split
  · exact ⟨fs, rfl, h⟩
  · obtain ⟨hlen, h₁⟩ := chainLength_chain g h hl
    rcases hc : chainLength v node.fsCluster fs with ⟨had, fs₁⟩
    rw [hc] at hlen h₁
    simp only [if_pos (show had ≥ need by omega)]
    exact ⟨fs₁, rfl, h₁⟩

/-- `ensure_chain` makes the chain as long as asked, or there is no room and
it is what it was. -/
theorem ensureChain_spec (g : v.Geometry) (h : Reads v fs f d) (hl : Chain v f node.fsCluster l)
    (need : Nat) :
    ∃ res node' fs' f' d' new, ensureChain v node need fs = (res, node', fs') ∧
      Reads v fs' f' d' ∧ Grown v f f' d d' l new node'.fsCluster ∧ Rehead node node' ∧
      ((res = .ok () ∧ (l ++ new).length = max need l.length) ∨
        (res = .error ENOSPC ∧ new = [] ∧ node'.fsCluster = node.fsCluster)) ∧
      (Counted v fs f → Counted v fs' f') := by
  rw [ensureChain]
  split
  · rename_i h0
    subst h0
    exact ⟨_, _, _, f, d, [], rfl, h, .refl hl, rfl, .inl ⟨rfl, by simp⟩, id⟩
  · obtain ⟨hlen, h₁⟩ := chainLength_chain g h hl
    have hcount := chainLength_count (v := v) node.fsCluster fs
    rcases hc : chainLength v node.fsCluster fs with ⟨had, fs₁⟩
    rw [hc] at hlen h₁ hcount
    subst hlen
    simp only
    split
    · rename_i hge
      exact ⟨_, _, _, f, d, [], rfl, h₁, .refl hl, rfl, .inl ⟨rfl, by simp; omega⟩,
        fun hc => hcount.trans hc⟩
    · rename_i hlt
      split
      · rename_i hhead
        obtain rfl : l = [] := hl.lt_two_iff.mp hhead
        rcases allocCluster_spec g (.inl rfl) h₁ with
          ⟨fs₂, heq, h₂, -, hcount₂⟩ | ⟨x, fs₂, heq, hx, hhas, h₂, hcounted⟩
        · rw [heq]
          exact ⟨_, _, _, f, d, [], rfl, h₂, .refl hl, rfl, .inr ⟨rfl, rfl, rfl⟩,
            fun hc => hcount₂.trans (hcount.trans hc)⟩
        · have hx0 : x ≠ 0 := by have := (g.lt_bad hhas).1; omega
          obtain ⟨fs₃, hz, h₃⟩ := zeroCluster_spec g h₂ hhas
          have hcount₃ := (congrArg (·.2.freeCount) hz).symm.trans (zeroCluster_count x fs₂)
          rw [heq]
          simp only [if_neg hx0, hz]
          obtain ⟨res, node', fs', f', d', new', hgrow, hr, hg', hre, hres, hcounted'⟩ :=
            extendChain_spec g node.fsCluster 1 need h₃
              (show Grown v f _ d _ [] [x]
                ({ node with fsCluster := x, fsDirty := true } : Node).fsCluster from
                Grown.first g hx hhas) (by simp) (by simp) (.inl ⟨hhead, rfl⟩) (by omega)
          refine ⟨res, node', fs', f', d', new', hgrow, hr, hg', ?_, ?_,
            fun hc => hcounted' (hcount₃.trans (hcounted (.inl rfl) (hcount.trans hc)))⟩
          · rw [Rehead] at hre ⊢
            exact hre
          · rcases hres with ⟨h₁, h₂⟩ | hfail
            · exact .inl ⟨h₁, by rw [h₂]; simp⟩
            · exact .inr hfail
      · rename_i hhead
        have hne : l ≠ [] := fun hnil => hhead (hl.lt_two_iff.mpr hnil)
        obtain ⟨res, node', fs', f', d', new', hgrow, hr, hg', hre, hres, hcounted⟩ :=
          extendChain_spec g node.fsCluster l.length need h₁
            (Grown.refl hl) (by simp) (by simpa using hne) (.inr ⟨rfl, rfl, hne⟩) (by omega)
        refine ⟨res, node', fs', f', d', new', hgrow, hr, hg', hre, ?_,
          fun hc => hcounted (hcount.trans hc)⟩
        rcases hres with ⟨h₁, h₂⟩ | hfail
        · exact .inl ⟨h₁, by omega⟩
        · exact .inr hfail

/-! ## One chain changes -/

/-- The chain `l` has become `l'`, and nothing else that is in use changed
but the bytes of the clusters `w`. -/
structure Frame (f f' : Nat → Nat) (d d' : Nat → Mem) (l l' w : List Nat) : Prop where
  taken : ∀ x ∈ l', x ∉ l → f x = 0
  outside : ∀ x, x ∉ l → x ∉ l' → f' x = f x
  dropped : ∀ x ∈ l, x ∉ l' → f' x = 0
  data : ∀ x, x ∉ l → x ∉ w → f x ≠ 0 → d' x = d x

theorem Frame.refl (f : Nat → Nat) (d : Nat → Mem) (l w : List Nat) : Frame f f d d l l w :=
  ⟨fun _ h h' => absurd h h', fun _ _ _ => rfl, fun _ h h' => absurd h h', fun _ _ _ _ => rfl⟩

theorem Frame.trans {f₁ f₂ : Nat → Nat} {d₁ d₂ : Nat → Mem} {l₁ l₂ w w' : List Nat}
    (h : Frame f f₁ d d₁ l l₁ w) (h' : Frame f₁ f₂ d₁ d₂ l₁ l₂ w') :
    Frame f f₂ d d₂ l l₂ (w ++ w') := by
  constructor
  · intro x hx₂ hx
    by_cases hx₁ : x ∈ l₁
    · exact h.taken x hx₁ hx
    · rw [← h.outside x hx hx₁]
      exact h'.taken x hx₂ hx₁
  · intro x hx hx₂
    by_cases hx₁ : x ∈ l₁
    · rw [h'.dropped x hx₁ hx₂, h.taken x hx₁ hx]
    · rw [h'.outside x hx₁ hx₂, h.outside x hx hx₁]
  · intro x hx hx₂
    by_cases hx₁ : x ∈ l₁
    · exact h'.dropped x hx₁ hx₂
    · rw [h'.outside x hx₁ hx₂]
      exact h.dropped x hx hx₁
  · intro x hx hw hused
    rw [List.mem_append, not_or] at hw
    have hx₁ : x ∉ l₁ := fun hm => hused (h.taken x hm hx)
    have hkeep := h.outside x hx hx₁
    rw [h'.data x hx₁ hw.2 (by rw [hkeep]; exact hused)]
    exact h.data x hx hw.1 hused

theorem Grown.frame (h : Grown v f f' d d' l new c) : Frame f f' d d' l (l ++ new) [] :=
  ⟨fun x hx hl => h.fresh x ((List.mem_append.mp hx).resolve_left hl),
    fun x hl hx => h.outside x hl fun hn => hx (List.mem_append_right _ hn),
    fun _ hl hx => absurd (List.mem_append_left _ hl) hx, fun x _ _ hused => h.kept x hused⟩

end NovarisOS.Fat32
