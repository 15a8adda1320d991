/-
NovarisOS.Fat32.Slots — what the scans of a directory find.

A directory is the function of its slots, which are all zero behind its
clusters, and so all end marks. `short_name_taken` is about the slots before
the first end mark (`Used`), `dir_find_slots` about the first place with so
many slots in a row that are deleted or behind it (`firstRoom`), however many
clusters the directory needs for that.
-/
import Mathlib.Data.Nat.Find
import NovarisOS.Fat32.NameTheorems
import NovarisOS.Fat32.Driver

namespace NovarisOS.Fat32

open Function (update update_of_ne update_self)

variable {v : Vol} {fs fs' : Fs} {f f' : Nat → Nat} {d d' : Nat → Mem} {c n i k : Nat}
  {l new : List Nat} {node node' : Node} {slot : Nat → Mem}

/-! ## The slots of a directory -/

/-- Slot `n` is before the end mark. -/
def Used (slot : Nat → Mem) (n : Nat) : Prop := ∀ m ≤ n, slot m 0 ≠ ENTRY_END

instance (slot : Nat → Mem) (n : Nat) : Decidable (Used slot n) :=
  inferInstanceAs (Decidable (∀ m ≤ n, _))

theorem slotAt_out (hcb : 0 < v.clusterBytes) (h : slotCount v l ≤ i) :
    slotAt v d l i = fun _ => 0 := by
  funext k
  simp only [slotAt, entryOf]
  split
  · refine byteAt_out ?_ hcb
    have := Nat.mul_le_mul_right DIRENT_SIZE h
    rw [slotCount, Nat.mul_assoc, ← v.clusterBytes_eq] at this
    omega
  · rfl

theorem slotAt_end (hcb : 0 < v.clusterBytes) (h : slotCount v l ≤ i) :
    slotAt v d l i 0 = ENTRY_END := by
  rw [slotAt_out hcb h]

theorem Used.lt (hcb : 0 < v.clusterBytes) (h : Used (slotAt v d l) n) : n < slotCount v l :=
  Nat.lt_of_not_le fun hge => h n (Nat.le_refl n) (slotAt_end hcb hge)

theorem Chain.slotCount_le (h : Chain v f c l) : slotCount v l < v.slotRounds :=
  Nat.lt_succ_of_le (Nat.mul_le_mul_right _ h.length_le)

theorem Grown.slotAt (hg : Grown v f f' d d' l new c) (hused : ∀ x ∈ l, f x ≠ 0)
    (hcb : 0 < v.clusterBytes) (i : Nat) : slotAt v d' (l ++ new) i = slotAt v d l i := by
  funext k
  simp only [Fat32.slotAt, hg.byteAt hused hcb]

theorem slotCount_append (l new : List Nat) :
    slotCount v (l ++ new) = slotCount v l + slotCount v new := by
  rw [slotCount, List.length_append, Nat.add_mul]
  rfl

/-! ## Short names -/

/-- An entry of the directory has this short name. -/
def Taken (slot : Nat → Mem) (short11 : List UInt8) : Prop :=
  ∃ n, Used slot n ∧ slot n 0 ≠ ENTRY_FREE ∧ isLfn (slot n) = false ∧
    (slot n).bytes 0 11 = short11

theorem takenFrom_spec (g : v.Geometry) (hl : Chain v f c l) (short11 : List UInt8) (left i : Nat)
    (h : Reads v fs f d) (hleft : slotCount v l < i + left)
    (hbefore : ∀ m < i, slotAt v d l m 0 ≠ ENTRY_END) :
    (takenFrom v c short11 left i fs).1 = true ↔
      ∃ n, i ≤ n ∧ Used (slotAt v d l) n ∧ slotAt v d l n 0 ≠ ENTRY_FREE ∧
        isLfn (slotAt v d l n) = false ∧ (slotAt v d l n).bytes 0 11 = short11 := by
  induction left generalizing i fs with
  | zero =>
    have hend := slotAt_end (d := d) g.cb_pos (Nat.le_refl (slotCount v l))
    exact absurd hend (hbefore _ (by omega))
  | succ left ih =>
    obtain ⟨fs₁, hat, h₁⟩ := dirEntryAt_spec g h hl i
    rw [takenFrom, hat]
    by_cases hi : i < slotCount v l
    · rw [if_pos hi]
      simp only
      by_cases hend : slotAt v d l i 0 = ENTRY_END
      · rw [if_pos hend]
        refine ⟨by simp, ?_⟩
        rintro ⟨n, hn, hused, -⟩
        exact absurd hend (hused i hn)
      · rw [if_neg hend]
        by_cases hhit : slotAt v d l i 0 ≠ ENTRY_FREE ∧ isLfn (slotAt v d l i) = false ∧
            (slotAt v d l i).bytes 0 11 = short11
        · rw [if_pos hhit]
          refine ⟨fun _ => ⟨i, Nat.le_refl i, fun m hm => ?_, hhit⟩, fun _ => rfl⟩
          rcases Nat.lt_or_eq_of_le hm with hm | rfl
          · exact hbefore m hm
          · exact hend
        · rw [if_neg hhit, ih (i + 1) h₁ (by omega) fun m hm => ?_]
          · constructor
            · rintro ⟨n, hn, hrest⟩
              exact ⟨n, by omega, hrest⟩
            · rintro ⟨n, hn, hrest⟩
              refine ⟨n, ?_, hrest⟩
              rcases Nat.lt_or_eq_of_le hn with hn | rfl
              · exact hn
              · exact absurd hrest.2 hhit
          · rcases Nat.lt_or_eq_of_le (Nat.le_of_lt_succ hm) with hm | rfl
            · exact hbefore m hm
            · exact hend
    · rw [if_neg hi]
      refine ⟨by simp, ?_⟩
      rintro ⟨n, hn, hused, -⟩
      have := hused.lt g.cb_pos
      omega

theorem shortNameTaken_spec (g : v.Geometry) (hl : Chain v f c l) (h : Reads v fs f d)
    (short11 : List UInt8) :
    (shortNameTaken v c short11 fs).1 = true ↔ Taken (slotAt v d l) short11 := by
  rw [shortNameTaken, takenFrom_spec g hl short11 v.slotRounds 0 h (by simpa using hl.slotCount_le)
    (by simp), Taken]
  simp only [Nat.zero_le, true_and]

/-- The encoding of a name that suits a directory: in eleven bytes with the
case flags if that form is free, otherwise in so many long entries, with the
first free one of the generated short names. -/
def Encoding (slot : Nat → Mem) (name short11 : List UInt8) (ntflags : UInt8) (lfnCount : Nat) :
    Prop :=
  (makeShort name = some (short11, ntflags) ∧ ¬ Taken slot short11 ∧ lfnCount = 0) ∨
  ((∀ s fl, makeShort name = some (s, fl) → Taken slot s) ∧ ntflags = 0 ∧
    lfnCount = lfnSlotsFor name.length ∧
    ∃ n, 1 ≤ n ∧ n ≤ 999999 ∧ short11 = generatedShort name n ∧ ¬ Taken slot short11 ∧
      ∀ m, 1 ≤ m → m < n → Taken slot (generatedShort name m))

theorem Encoding.fresh {name short11 : List UInt8} {ntflags : UInt8} {lfnCount : Nat}
    (h : Encoding slot name short11 ntflags lfnCount) :
    ShortForm short11 ∧ ¬ Taken slot short11 := by
  rcases h with ⟨hmake, hfree, -⟩ | ⟨-, -, -, n, -, -, rfl, hfree, -⟩
  · exact ⟨(makeShort_form hmake).1, hfree⟩
  · exact ⟨generatedShort_form name n, hfree⟩

theorem Encoding.unique {name s s' : List UInt8} {fl fl' : UInt8} {k k' : Nat}
    (h : Encoding slot name s fl k) (h' : Encoding slot name s' fl' k') :
    s = s' ∧ fl = fl' ∧ k = k' := by
  rcases h with ⟨hmake, hfree, rfl⟩ | ⟨htaken, rfl, rfl, n, hn, -, rfl, hfree, hall⟩
  · rcases h' with ⟨hmake', -, rfl⟩ | ⟨htaken', -⟩
    · obtain ⟨rfl, rfl⟩ := Prod.mk.inj (Option.some.inj (hmake.symm.trans hmake'))
      exact ⟨rfl, rfl, rfl⟩
    · exact absurd (htaken' s fl hmake) hfree
  · rcases h' with ⟨hmake', hfree', -⟩ | ⟨-, rfl, rfl, n', hn', -, rfl, hfree', hall'⟩
    · exact absurd (htaken s' fl' hmake') hfree'
    · obtain rfl : n = n' := by
        rcases Nat.lt_trichotomy n n' with hlt | heq | hlt
        · exact absurd (hall' n hn hlt) hfree
        · exact heq
        · exact absurd (hall n' hn' hlt) hfree'
      exact ⟨rfl, rfl, rfl⟩

theorem generateFrom_spec (g : v.Geometry) (hl : Chain v f c l) (name : List UInt8) (left n : Nat)
    (h : Reads v fs f d) (hleft : n + left = 1000000)
    (hbefore : ∀ m, 1 ≤ m → m < n → Taken (slotAt v d l) (generatedShort name m)) :
    match (generateFrom v c name left n fs).1 with
    | none => ∀ m, 1 ≤ m → m ≤ 999999 → Taken (slotAt v d l) (generatedShort name m)
    | some s => ∃ k, n ≤ k ∧ k ≤ 999999 ∧ s = generatedShort name k ∧ ¬ Taken (slotAt v d l) s ∧
        ∀ m, 1 ≤ m → m < k → Taken (slotAt v d l) (generatedShort name m) := by
  induction left generalizing n fs with
  | zero => exact fun m hm hle => hbefore m hm (by omega)
  | succ left ih =>
    have htaken := shortNameTaken_spec g hl h (generatedShort name n)
    have h₁ := shortNameTaken_reads g hl (generatedShort name n) h
    rw [generateFrom]
    rcases ht : shortNameTaken v c (generatedShort name n) fs with ⟨_ | _, fs₁⟩
    · rw [ht] at htaken
      exact ⟨n, Nat.le_refl n, by omega, rfl, fun hT => absurd (htaken.mpr hT) (by simp), hbefore⟩
    · rw [ht] at htaken h₁
      have hnext := ih (n + 1) h₁ (by omega) fun m hm hlt => by
        rcases Nat.lt_or_eq_of_le (Nat.le_of_lt_succ hlt) with hlt | rfl
        · exact hbefore m hm hlt
        · exact htaken.mp rfl
      cases hg : (generateFrom v c name left (n + 1) fs₁).1 with
      | none =>
        rw [hg] at hnext
        simpa only [hg] using hnext
      | some s =>
        rw [hg] at hnext
        obtain ⟨k, hk, hrest⟩ := hnext
        simpa only [hg] using ⟨k, by omega, hrest⟩

theorem chooseShort_spec (g : v.Geometry) (hl : Chain v f c l) (h : Reads v fs f d)
    (name : List UInt8) :
    match (chooseShort v c name fs).1 with
    | none => ∀ s fl k, ¬ Encoding (slotAt v d l) name s fl k
    | some (s, fl, k) => Encoding (slotAt v d l) name s fl k := by
  have hgen : ∀ fs, Reads v fs f d → (∀ s fl, makeShort name = some (s, fl) →
      Taken (slotAt v d l) s) → match (chooseGenerated v c name fs).1 with
      | none => ∀ s fl k, ¬ Encoding (slotAt v d l) name s fl k
      | some (s, fl, k) => Encoding (slotAt v d l) name s fl k := by
    intro fs h hshort
    have hspec := generateFrom_spec g hl name 999999 1 h rfl (fun m h₁ h₂ => absurd h₂ (by omega))
    rw [chooseGenerated, generateShort]
    rcases hg : generateFrom v c name 999999 1 fs with ⟨_ | s, fs₁⟩
    · rw [hg] at hspec
      rintro s fl k (⟨hmake, hfree, -⟩ | ⟨-, -, -, n, h₁, h₂, rfl, hfree, -⟩)
      · exact hfree (hshort s fl hmake)
      · exact hfree (hspec n h₁ h₂)
    · rw [hg] at hspec
      obtain ⟨k, hk, hle, hs, hfree, hall⟩ := hspec
      exact .inr ⟨hshort, rfl, rfl, k, hk, hle, hs, hfree, hall⟩
  rw [chooseShort]
  cases hmake : makeShort name with
  | none => exact hgen fs h fun s fl hs => absurd (hmake.symm.trans hs) (by simp)
  | some r =>
    obtain ⟨s, fl⟩ := r
    have htaken := shortNameTaken_spec g hl h s
    have h₁ := shortNameTaken_reads g hl s h
    simp only
    rcases ht : shortNameTaken v c s fs with ⟨_ | _, fs₁⟩
    · rw [ht] at htaken
      exact .inl ⟨hmake, fun hT => absurd (htaken.mpr hT) (by simp), rfl⟩
    · rw [ht] at htaken h₁
      refine hgen fs₁ h₁ fun s' fl' hs' => ?_
      obtain ⟨rfl, -⟩ := Prod.mk.inj (Option.some.inj (hmake.symm.trans hs'))
      exact htaken.mp rfl

/-! ## Room in a directory -/

/-- Slot `m` can take an entry: of the `total` slots that are looked at it is
one that was deleted or lies behind the end mark, or it is behind them. -/
def Vacant (slot : Nat → Mem) (total m : Nat) : Prop :=
  total ≤ m ∨ slot m 0 = ENTRY_FREE ∨ ¬ Used slot m

instance (slot : Nat → Mem) (total m : Nat) : Decidable (Vacant slot total m) :=
  inferInstanceAs (Decidable (_ ∨ _ ∨ ¬ _))

/-- So many vacant slots in a row. -/
def RoomAt (slot : Nat → Mem) (total count k : Nat) : Prop := ∀ m < count, Vacant slot total (k + m)

instance (slot : Nat → Mem) (total count k : Nat) : Decidable (RoomAt slot total count k) :=
  inferInstanceAs (Decidable (∀ m < count, _))

theorem roomAt_total (slot : Nat → Mem) (total count : Nat) : ∃ k, RoomAt slot total count k :=
  ⟨total, fun m _ => .inl (Nat.le_add_right total m)⟩

/-- The first place with room. -/
def firstRoom (slot : Nat → Mem) (total count : Nat) : Nat := Nat.find (roomAt_total slot total count)

theorem firstRoom_eq {total count : Nat} (h : RoomAt slot total count k)
    (hmin : ∀ j < k, ¬ RoomAt slot total count j) : firstRoom slot total count = k :=
  (Nat.find_eq_iff _).mpr ⟨h, hmin⟩

theorem firstRoom_used {total count : Nat} : ∀ m < firstRoom slot total count,
    slot m 0 ≠ ENTRY_END := by
  intro m hm hend
  refine Nat.find_min (roomAt_total slot total count) hm fun j _ => .inr (.inr fun hused => ?_)
  exact hused m (Nat.le_add_right m j) hend

/-- The scan of `dir_find_slots`, with a free run of `run` slots in front of
slot `i` and no room before that. -/
theorem findRun_spec (g : v.Geometry) (hl : Chain v f c l) {total count : Nat}
    (htotal : total ≤ slotCount v l) (left i run : Nat) (h : Reads v fs f d) (hi : i + left = total)
    (hbefore : ∀ m < i, slotAt v d l m 0 ≠ ENTRY_END) (hrun : run ≤ i) (hshort : run < count)
    (hfree : ∀ m, i - run ≤ m → m < i → slotAt v d l m 0 = ENTRY_FREE)
    (hmin : ∀ k < i - run, ¬ RoomAt (slotAt v d l) total count k) :
    match (findRun v c count left i run fs).1 with
    | .inl place => firstRoom (slotAt v d l) total count + count ≤ total ∧
        place = slotNumber (firstRoom (slotAt v d l) total count)
    | .inr run => run ≤ total ∧ total < firstRoom (slotAt v d l) total count + count ∧
        total - run = firstRoom (slotAt v d l) total count := by
  -- what is vacant from `i` on makes the run longer
  have hroom : ∀ k, (∀ m, i ≤ m → m < k → Vacant (slotAt v d l) total m) → i - run + count ≤ k →
      firstRoom (slotAt v d l) total count = i - run := by
    intro k hk hle
    refine firstRoom_eq (fun m hm => ?_) hmin
    by_cases hlt : i - run + m < i
    · exact .inr (.inl (hfree _ (by omega) hlt))
    · exact hk _ (by omega) (by omega)
  induction left generalizing i run fs with
  | zero =>
    rw [findRun]
    have := hroom (i + count) (fun m hm _ => .inl (by omega)) (by omega)
    exact ⟨by omega, by omega, by omega⟩
  | succ left ih =>
    obtain ⟨fs₁, hat, h₁⟩ := dirEntryAt_spec g h hl i
    rw [findRun, hat, if_pos (by omega)]
    simp only
    by_cases hend : slotAt v d l i 0 = ENTRY_END
    · have hall : ∀ m, i ≤ m → m < i + count → Vacant (slotAt v d l) total m :=
        fun m hm _ => .inr (.inr fun hused => hused i hm hend)
      have := hroom (i + count) hall (by omega)
      rw [if_pos hend]
      by_cases hfits : run + (left + 1) ≥ count
      · rw [if_pos hfits, this]
        exact ⟨by omega, rfl⟩
      · rw [if_neg hfits]
        exact ⟨by omega, by omega, by omega⟩
    · have hbefore' : ∀ m < i + 1, slotAt v d l m 0 ≠ ENTRY_END := by
        intro m hm
        rcases Nat.lt_or_eq_of_le (Nat.le_of_lt_succ hm) with hm | rfl
        · exact hbefore m hm
        · exact hend
      rw [if_neg hend]
      by_cases hgone : slotAt v d l i 0 = ENTRY_FREE
      · rw [if_pos hgone]
        by_cases hfits : run + 1 ≥ count
        · have := hroom (i + 1) (fun m h₁ h₂ => .inr (.inl (by
            rw [show m = i by omega, hgone]))) (by omega)
          rw [if_pos hfits, this, show i + 1 - count = i - run by omega]
          exact ⟨by omega, rfl⟩
        · rw [if_neg hfits]
          have hfree' : ∀ m, i + 1 - (run + 1) ≤ m → m < i + 1 → slotAt v d l m 0 = ENTRY_FREE := by
            intro m h₁ h₂
            rcases Nat.lt_or_eq_of_le (Nat.le_of_lt_succ h₂) with h₂ | rfl
            · exact hfree m (by omega) h₂
            · exact hgone
          refine ih (i + 1) (run + 1) h₁ (by omega) hbefore' (by omega) (by omega) hfree'
            (fun k hk => hmin k (by omega)) fun k hk hle => ?_
          rw [show i + 1 - (run + 1) = i - run by omega]
          refine hroom k (fun m hm hlt => ?_) (by omega)
          rcases Nat.eq_or_lt_of_le hm with rfl | hm
          · exact .inr (.inl hgone)
          · exact hk m hm hlt
      · -- an entry: there is no room for a run that has it in it
        have hfull : ¬ Vacant (slotAt v d l) total i := by
          rintro (h | h | h)
          · omega
          · exact hgone h
          · exact h fun m hm => hbefore' m (by omega)
        have hmin' : ∀ k < i + 1 - 0, ¬ RoomAt (slotAt v d l) total count k := by
          intro k hk hroomAt
          by_cases hlt : k < i - run
          · exact hmin k hlt hroomAt
          · refine hfull ?_
            have := hroomAt (i - k) (by omega)
            rwa [show k + (i - k) = i by omega] at this
        rw [if_neg hgone]
        refine ih (i + 1) 0 h₁ (by omega) hbefore' (by omega) (by omega) (fun m h₁ h₂ => by omega)
          hmin' fun k hk hle => ?_
        refine firstRoom_eq (fun m hm => hk _ (by omega) (by omega)) hmin'

/-! ## Room on the volume -/

theorem freeClusters_none (h : ∀ x, v.has x = true → f x ≠ 0) : freeClusters v f = 0 := by
  rw [freeClusters, List.countP_eq_zero]
  intro i hi
  have := List.mem_range.mp hi
  simpa using h (i + 2) (Vol.has_iff.mpr ⟨by omega, by omega⟩)

theorem freeClusters_link {prev x : Nat} (hx : f x = 0) (hhas : v.has x = true)
    (hprev : prev = 0 ∨ f prev ≠ 0) : freeClusters v f = freeClusters v (link f prev x) + 1 := by
  have hx0 : x ≠ 0 := by
    have := (Vol.has_iff.mp hhas).1
    omega
  exact freeClusters_take hhas hx (link_self hx hprev) fun y hy => link_zero hx0 hprev hy

theorem growChain_ok (g : v.Geometry) (headWas had : Nat) (node : Node) (left : Nat) {cur : Nat}
    (h : Reads v fs f d) (hhas : v.has cur = true) (hused : f cur ≠ 0) :
    (growChain v headWas had node left cur fs).1 = .ok () ↔ left ≤ freeClusters v f := by
  induction left generalizing cur fs f d with
  | zero => simp [growChain]
  | succ left ih =>
    rw [growChain]
    rcases allocCluster_spec g (.inr hhas) h with
      ⟨fs₁, heq, h₁, hall, -⟩ | ⟨x, fs₁, heq, hx, hxhas, h₁, -⟩
    · simp [heq, freeClusters_none hall]
    · have hx0 : x ≠ 0 := by
        have := (g.lt_bad hxhas).1
        omega
      obtain ⟨fs₂, hz, h₂⟩ := zeroCluster_spec g h₁ hxhas
      rw [heq]
      simp only [if_neg hx0, hz]
      rw [ih h₂ hxhas (link_self hx (.inr hused)), freeClusters_link hx hxhas (.inr hused)]
      omega

theorem extendChain_ok (g : v.Geometry) (headWas had need : Nat) (h : Reads v fs f d)
    (hl : Chain v f node.fsCluster l) (hhad : had = l.length) (hne : l ≠ []) :
    (extendChain v headWas had need node fs).1 = .ok () ↔ need - had ≤ freeClusters v f := by
  rw [extendChain, hhad, lastOf_length hne, ← hhad]
  obtain ⟨a, cur, rfl⟩ := (List.eq_nil_or_concat' _).resolve_left hne
  obtain ⟨hnth, h₁⟩ := chainNth_chain g h hl (had - 1)
  rcases hc : chainNth v node.fsCluster (had - 1) fs with ⟨c, fs₁⟩
  rw [hc] at hnth h₁
  simp only at hnth h₁ ⊢
  obtain rfl : c = cur := by
    rw [hnth, hhad]
    simp
  have hhas := hl.has c (by simp)
  rw [if_neg (by have := (g.lt_bad hhas).1; omega)]
  exact growChain_ok g headWas had node (need - had) h₁ hhas (hl.used c (by simp))

theorem ensureChain_ok (g : v.Geometry) (h : Reads v fs f d) (hl : Chain v f node.fsCluster l)
    (need : Nat) :
    (ensureChain v node need fs).1 = .ok () ↔ need - l.length ≤ freeClusters v f := by
  rw [ensureChain]
  by_cases h0 : need = 0
  · simp [h0]
  rw [if_neg h0]
  obtain ⟨hlen, h₁⟩ := chainLength_chain g h hl
  rcases hc : chainLength v node.fsCluster fs with ⟨had, fs₁⟩
  rw [hc] at hlen h₁
  simp only at hlen h₁ ⊢
  subst hlen
  by_cases hge : l.length ≥ need
  · simp [if_pos hge, Nat.sub_eq_zero_of_le hge]
  rw [if_neg hge]
  by_cases hhead : node.fsCluster < 2
  · rw [if_pos hhead]
    obtain rfl : l = [] := hl.lt_two_iff.mp hhead
    rcases allocCluster_spec g (.inl rfl) h₁ with
      ⟨fs₂, heq, h₂, hall, -⟩ | ⟨x, fs₂, heq, hx, hhas, h₂, -⟩
    · simpa [heq, freeClusters_none hall] using h0
    · have hx0 : x ≠ 0 := by
        have := (g.lt_bad hhas).1
        omega
      obtain ⟨fs₃, hz, h₃⟩ := zeroCluster_spec g h₂ hhas
      have hfirst := Grown.first (d := d) g hx hhas
      rw [heq]
      simp only [if_neg hx0, hz]
      have hchain : Chain v (link f 0 x) ({ node with fsCluster := x, fsDirty := true } : Node).fsCluster
          [x] := by simpa using hfirst.chain
      rw [extendChain_ok g node.fsCluster 1 need h₃ hchain rfl (by simp),
        freeClusters_link hx hhas (.inl rfl)]
      simp only [List.length_nil]
      omega
  · rw [if_neg hhead]
    exact extendChain_ok g node.fsCluster l.length need h₁ hl rfl
      fun hnil => hhead (hl.lt_two_iff.mpr hnil)

/-! ## `dir_find_slots` -/

/-- Where an entry of `count` slots goes in a directory of the clusters `l`. -/
def roomFor (v : Vol) (d : Nat → Mem) (l : List Nat) (count : Nat) : Nat :=
  firstRoom (slotAt v d l) (u32 (slotCount v l)) count

/-- How many clusters the directory needs for it beyond those it has. -/
def spareFor (v : Vol) (d : Nat → Mem) (l : List Nat) (count : Nat) : Nat :=
  (roomFor v d l count + count - u32 (slotCount v l) + v.perCluster - 1) / v.perCluster

/-- A directory has `new` clusters more, which were free and have no entry,
and the slots it had. -/
structure Extended (v : Vol) (f f' : Nat → Nat) (d d' : Nat → Mem) (l new : List Nat) : Prop where
  fresh : ∀ x ∈ new, f x = 0
  outside : ∀ x, x ∉ l → x ∉ new → f' x = f x
  free : ∀ x, f' x = 0 ↔ f x = 0 ∧ x ∉ new
  zeroed : ∀ x ∈ new, d' x = fun _ => 0
  slots : ∀ i, slotAt v d' (l ++ new) i = slotAt v d l i

theorem Extended.refl (v : Vol) (f : Nat → Nat) (d : Nat → Mem) (l : List Nat) :
    Extended v f f d d l [] :=
  ⟨by simp, fun _ _ _ => rfl, by simp, by simp, by simp⟩

theorem Grown.extended (hg : Grown v f f' d d' l new c) (hused : ∀ x ∈ l, f x ≠ 0)
    (hcb : 0 < v.clusterBytes) : Extended v f f' d d' l new :=
  ⟨hg.fresh, hg.outside, hg.free_iff hused, hg.zeroed, hg.slotAt hused hcb⟩

theorem Extended.same {e : Nat → Mem} (h : Extended v f f' d d' l new)
    (hsame : ∀ x ∈ l ++ new, e x = d' x) : Extended v f f' d e l new := by
  refine ⟨h.fresh, h.outside, h.free, fun x hx => ?_, fun i => ?_⟩
  · rw [hsame x (List.mem_append_right l hx), h.zeroed x hx]
  · rw [slotAt_congr hsame, h.slots]

theorem direntUpdate_anchored (g : v.Geometry) (h : Reads v fs f d) (ha : Anchored v f l node) :
    ∃ ok dirty fs' d', direntUpdate v node fs = (ok, { node with fsDirty := dirty }, fs') ∧
      Reads v fs' f d' ∧ ∀ x ∈ l, d' x = d x := by
  rcases ha with h0 | ⟨p, s, hat, -, hp⟩
  · exact ⟨true, node.fsDirty, fs, d, by rw [direntUpdate, if_pos h0], h, fun _ _ => rfl⟩
  · obtain ⟨fs', heq, h'⟩ := direntUpdate_spec g h hat
    exact ⟨true, false, fs', _, heq, h',
      fun x hx => update_of_ne (ne_of_mem_of_not_mem hx hp) _ _⟩

/-- `dir_find_slots` finds the first room, with as many new clusters as that
needs, or the volume has not so many. -/
theorem dirFindSlots_spec (g : v.Geometry) (h : Reads v fs f d) (hl : Chain v f node.fsCluster l)
    (ha : Anchored v f l node) {count : Nat} (hpos : 0 < count) (hsmall : count < 2147483648) :
    ∃ res node' fs' f' d' new, dirFindSlots v node count fs = (res, node', fs') ∧
      Reads v fs' f' d' ∧ Chain v f' node'.fsCluster (l ++ new) ∧ Extended v f f' d d' l new ∧
      Restored node node' ∧
      ((spareFor v d l count ≤ freeClusters v f ∧ new.length = spareFor v d l count ∧
          roomFor v d l count + count ≤ slotCount v (l ++ new) ∧
          res = slotNumber (roomFor v d l count)) ∨
        (freeClusters v f < spareFor v d l count ∧ res = none)) := by
  have hper := g.perCluster_pos
  have htotal : u32 (slotCount v l) ≤ slotCount v l := Nat.mod_le _ _
  rw [dirFindSlots]
  obtain ⟨hlen, h₁⟩ := chainLength_chain g h hl
  rcases hc : chainLength v node.fsCluster fs with ⟨clusters, fs₁⟩
  rw [hc] at hlen h₁
  simp only at hlen h₁ ⊢
  subst hlen
  have hrun := findRun_spec g hl htotal (u32 (slotCount v l)) 0 0 h₁ (by omega) (by simp)
    (by omega) hpos (fun m h₁ h₂ => absurd h₂ (by omega)) (by simp)
  have h₂ := findRun_reads g hl count (u32 (slotCount v l)) 0 0 h₁
  rw [show l.length * v.perCluster = slotCount v l from rfl]
  rcases hr : findRun v node.fsCluster count (u32 (slotCount v l)) 0 0 fs₁ with ⟨res, fs₂⟩
  rw [hr] at hrun h₂
  cases res with
  | inl place =>
    obtain ⟨hfits, rfl⟩ := hrun
    have hspare : spareFor v d l count = 0 := by
      rw [spareFor, show roomFor v d l count + count - u32 (slotCount v l) = 0 by
        rw [roomFor]; omega, Nat.zero_add]
      exact Nat.div_eq_of_lt (by omega)
    refine ⟨_, node, fs₂, f, d, [], rfl, h₂, by simpa using hl, .refl v f d l, .refl node, .inl ?_⟩
    rw [hspare, List.append_nil, roomFor]
    exact ⟨Nat.zero_le _, rfl, by omega, rfl⟩
  | inr run =>
    obtain ⟨hle, hover, hroom⟩ := hrun
    have hneed : count - run = roomFor v d l count + count - u32 (slotCount v l) := by
      rw [roomFor]
      omega
    have hadd : (count - run + v.perCluster - 1) / v.perCluster = spareFor v d l count := by
      rw [hneed, spareFor]
    have hfew : spareFor v d l count ≤ count := by
      rw [← hadd]
      have := Nat.le_mul_of_pos_left count hper
      refine Nat.le_of_lt_succ (Nat.div_lt_of_lt_mul ?_)
      rw [Nat.mul_succ]
      omega
    have hlong := hl.length_le
    have hbits := g.bits
    simp only [FAT_BAD] at hbits
    have hu : u32 (l.length + spareFor v d l count) = l.length + spareFor v d l count :=
      u32_of_lt (by omega)
    have hok := ensureChain_ok g h₂ hl (l.length + spareFor v d l count)
    rw [Nat.add_sub_cancel_left] at hok
    simp only [hadd, hu]
    obtain ⟨res, node₁, fs₃, f₁, d₁, new, heq, h₃, hg, hre, hres, -⟩ := ensureChain_spec g h₂ hl
      (l.length + spareFor v d l count)
    have hext := hg.extended hl.used g.cb_pos
    rw [heq] at hok ⊢
    rcases hres with ⟨rfl, hlen⟩ | ⟨rfl, -, -⟩
    · have hcount : new.length = spareFor v d l count := by
        rw [List.length_append] at hlen
        omega
      have hcover : roomFor v d l count + count ≤ slotCount v (l ++ new) := by
        have hmod := Nat.mod_lt
          (roomFor v d l count + count - u32 (slotCount v l) + v.perCluster - 1) hper
        have hdiv := Nat.div_add_mod
          (roomFor v d l count + count - u32 (slotCount v l) + v.perCluster - 1) v.perCluster
        rw [← spareFor, Nat.mul_comm] at hdiv
        rw [slotCount_append, slotCount.eq_def v new, hcount]
        omega
      have ha₁ : Anchored v f₁ (l ++ new) node₁ := ha.frame hg.frame hre.lba hre.off
      simp only [hroom]
      refine ⟨slotNumber (roomFor v d l count), ?_⟩
      split
      · obtain ⟨ok, dirty, fs₄, d₂, heq₂, h₄, hsame⟩ := direntUpdate_anchored g h₃ ha₁
        rw [heq₂]
        exact ⟨_, fs₄, f₁, d₂, new, rfl, h₄, hg.chain, hext.same hsame, hre.restored.edit _ _ _ _,
          .inl ⟨hok.mp rfl, hcount, hcover, rfl⟩⟩
      · exact ⟨node₁, fs₃, f₁, d₁, new, rfl, h₃, hg.chain, hext, hre.restored,
          .inl ⟨hok.mp rfl, hcount, hcover, rfl⟩⟩
    · refine ⟨none, node₁, fs₃, f₁, d₁, new, rfl, h₃, hg.chain, hext, hre.restored, .inr ⟨?_, rfl⟩⟩
      exact Nat.lt_of_not_le fun hfits => absurd (hok.mpr hfits) (by simp)

/-! ## Writing a name -/

/-- The slots of a directory with a name written to them: `lfnCount` long
entries from slot `k` on, and the short one behind them. -/
def withName (slot : Nat → Mem) (k lfnCount : Nat) (name : List UInt8) (sum : UInt8) (short : Mem) :
    Nat → Mem := fun j =>
  if k ≤ j ∧ j < k + lfnCount then entryOf (lfnEntry name sum lfnCount (lfnCount - (j - k)))
  else if j = k + lfnCount then short
  else slot j

section

variable {name : List UInt8} {sum : UInt8} {lfnCount index : Nat}

theorem writeLfn_spec (name : List UInt8) (sum : UInt8) (g : v.Geometry) (hl : Chain v f c l)
    (left s : Nat) (h : Reads v fs f d)
    (hs : s + left = lfnCount) (hfits : index + lfnCount ≤ slotCount v l)
    (hsmall : index + lfnCount < 4294967296) :
    ∃ fs' d', writeLfn v c index name sum lfnCount left s fs = (true, fs') ∧ Reads v fs' f d' ∧
      (∀ x, x ∉ l → d' x = d x) ∧
      ∀ j, slotAt v d' l j = if index + s ≤ j ∧ j < index + lfnCount then
        entryOf (lfnEntry name sum lfnCount (lfnCount - (j - index))) else slotAt v d l j := by
  induction left generalizing s fs d with
  | zero =>
    refine ⟨fs, d, rfl, h, fun _ _ => rfl, fun j => ?_⟩
    rw [if_neg (by omega)]
  | succ left ih =>
    rw [writeLfn, u32_of_lt (by omega)]
    rcases putSlot_spec g h hl (index + s) (lfnEntry name sum lfnCount (lfnCount - s)) with
      ⟨hout, -⟩ | ⟨-, fs₁, d₁, heq, h₁, hwrote⟩
    · omega
    · rw [heq]
      obtain ⟨fs₂, d₂, heq₂, h₂, hothers, hslots⟩ := ih (s + 1) h₁ (by omega)
      refine ⟨fs₂, d₂, heq₂, h₂, fun x hx => (hothers x hx).trans (hwrote.others x hx), fun j => ?_⟩
      rw [hslots, hwrote.slotAt]
      by_cases hj : j = index + s
      · subst hj
        rw [if_neg (by omega), if_pos rfl, if_pos (by omega), Nat.add_sub_cancel_left]
      · rw [if_neg hj]
        by_cases hin : index + (s + 1) ≤ j ∧ j < index + lfnCount
        · rw [if_pos hin, if_pos (by omega)]
        · rw [if_neg hin, if_neg (by omega)]

theorem dirWriteEntries_spec (name : List UInt8) (g : v.Geometry) (h : Reads v fs f d) (hl : Chain v f c l)
    (hfits : index + lfnCount < slotCount v l) (hsmall : index + lfnCount < 4294967296)
    (short11 : List UInt8) (ntflags attr : UInt8) (cluster size : Nat) :
    ∃ fs' d' date time,
      dirWriteEntries v c index name short11 ntflags attr cluster size lfnCount fs =
        (some (posOf v l (index + lfnCount)), fs') ∧
      Reads v fs' f d' ∧ (∀ x, x ∉ l → d' x = d x) ∧
      slotAt v d' l = withName (slotAt v d l) index lfnCount name (shortChecksum short11)
        (entryOf (shortEntry short11 attr ntflags cluster size date time)) := by
  obtain ⟨fs₁, d₁, heq, h₁, hothers, hslots⟩ := writeLfn_spec name (shortChecksum short11) g hl
    lfnCount 0 h (by omega) (show index + lfnCount ≤ slotCount v l by omega) hsmall
  rw [dirWriteEntries, heq]
  simp only [u32_of_lt hsmall]
  rcases putSlot_spec g (h₁.ticks (fs₁.ticks + 1)) hl (index + lfnCount)
    (shortEntry short11 attr ntflags cluster size (fdate (v.clock fs₁.ticks))
      (ftime (v.clock fs₁.ticks))) with ⟨hout, -⟩ | ⟨-, fs₂, d₂, heq₂, h₂, hwrote⟩
  · omega
  · refine ⟨fs₂, d₂, fdate (v.clock fs₁.ticks), ftime (v.clock fs₁.ticks), heq₂, h₂,
      fun x hx => (hwrote.others x hx).trans (hothers x hx), ?_⟩
    funext j
    rw [hwrote.slotAt, hslots, withName, Nat.add_zero]
    by_cases hj : j = index + lfnCount
    · rw [if_pos hj, if_neg (by omega), if_pos hj]
    · rw [if_neg hj, if_neg hj]

end

theorem direntPatch_outside {sec : Mem} {q : Nat}
    (h : q < node.fsDirentOff + 18 ∨ node.fsDirentOff + 32 ≤ q) :
    direntPatch v node fs sec q = sec q := by
  simp only [direntPatch]
  rw [Mem.wr16_outside (by omega), Mem.wr16_outside (by omega), Mem.wr16_outside (by omega)]
  split
  · rw [Mem.wr16_outside (by omega), Mem.wr16_outside (by omega)]
  · rw [Mem.wr32_outside (by omega), Mem.wr16_outside (by omega), Mem.wr16_outside (by omega)]

/-- `dirent_update` of a node whose entry is slot `i` changes nothing of the
directory but the cluster, the size and the dates in it. -/
theorem direntUpdate_slot (g : v.Geometry) (h : Reads v fs f d) (hl : Chain v f c l)
    (hi : i < slotCount v l) (hlba : node.fsDirentLba = (posOf v l i).lba)
    (hoff : node.fsDirentOff = (posOf v l i).off) :
    ∃ fs' d', direntUpdate v node fs = (true, { node with fsDirty := false }, fs') ∧
      Reads v fs' f d' ∧ (∀ x, x ∉ l → d' x = d x) ∧
      (∀ j, j ≠ i → slotAt v d' l j = slotAt v d l j) ∧
      ∀ b < 18, slotAt v d' l i b = slotAt v d l i b := by
  have hpos := g.perCluster_pos
  obtain ⟨x, hx⟩ := slot_index hi
  have hxl := List.mem_of_getElem? hx
  have hget : l.getD (i / v.perCluster) 0 = x := by
    rw [List.getD_eq_getElem?_getD, hx]
    rfl
  rw [posOf, hget] at hlba hoff
  have hsec := slot_sector i hpos
  obtain ⟨fs', heq, h'⟩ := direntUpdate_spec g h (p := x) (s := i % v.perCluster / PER_SECTOR)
    ⟨hl.has x hxl, hsec, hlba, by
      rw [hoff]
      simp only [PER_SECTOR, BLOCK_SECTOR_SIZE, DIRENT_SIZE]
      omega⟩
  -- the rest of the sector is written back as it was read
  have hbyte : ∀ p, p < i % v.perCluster * DIRENT_SIZE + 18 ∨ i % v.perCluster * DIRENT_SIZE + 32 ≤ p →
      (d x).copyAt (i % v.perCluster / PER_SECTOR * BLOCK_SECTOR_SIZE) (direntPatch v node fs
        (sectorOf d x (i % v.perCluster / PER_SECTOR))) (1 * BLOCK_SECTOR_SIZE) p = d x p := by
    intro p hp
    rw [Mem.copyAt_apply]
    split
    · rename_i hin
      simp only [PER_SECTOR, BLOCK_SECTOR_SIZE, DIRENT_SIZE] at *
      rw [direntPatch_outside (by omega), sectorOf, Mem.copyAt_apply,
        if_pos (by simp only [BLOCK_SECTOR_SIZE]; omega), Mem.shift_apply]
      congr 1
      simp only [BLOCK_SECTOR_SIZE]
      omega
    · rfl
  have hslot : ∀ j b, b < DIRENT_SIZE → (j = i → b < 18) →
      slotAt v (update d x ((d x).copyAt
        (i % v.perCluster / PER_SECTOR * BLOCK_SECTOR_SIZE) (direntPatch v node fs
          (sectorOf d x (i % v.perCluster / PER_SECTOR))) (1 * BLOCK_SECTOR_SIZE))) l j b =
        slotAt v d l j b := by
    intro j b hb hsame
    by_cases hj : j < slotCount v l
    · obtain ⟨y, hy⟩ := slot_index hj
      rw [slotAt_eq g hy, slotAt_eq g hy]
      simp only [entryOf, if_pos hb, Mem.shift_apply]
      by_cases hyx : y = x
      · subst hyx
        have hdiv : j / v.perCluster = i / v.perCluster :=
          (List.getElem?_inj (List.getElem?_eq_some_iff.mp hy).1 hl.nodup).mp (hy.trans hx.symm)
        have h₁ := Nat.div_add_mod j v.perCluster
        have h₂ := Nat.div_add_mod i v.perCluster
        rw [hdiv] at h₁
        rw [update_self, hbyte]
        simp only [DIRENT_SIZE] at *
        by_cases hji : j = i
        · have := hsame hji
          rw [hji]
          omega
        · omega
      · rw [update_of_ne hyx]
    · rw [slotAt_out g.cb_pos (by omega), slotAt_out g.cb_pos (by omega)]
  refine ⟨fs', _, heq, h', fun y hy => update_of_ne (ne_of_mem_of_not_mem hxl hy).symm _ _,
    fun j hj => ?_, fun b hb => hslot i b (by simp only [DIRENT_SIZE]; omega) fun _ => hb⟩
  funext b
  by_cases hb : b < DIRENT_SIZE
  · exact hslot j b hb fun h => absurd h hj
  · simp only [slotAt, entryOf, if_neg hb]

theorem newCluster_spec (g : v.Geometry) (h : Reads v fs f d) (kind : Kind) :
    (kind ≠ .directory ∧ newCluster v kind fs = (some 0, fs)) ∨
    (kind = .directory ∧ freeClusters v f = 0 ∧
      ∃ fs', newCluster v kind fs = (none, fs') ∧ Reads v fs' f d) ∨
    (kind = .directory ∧ 0 < freeClusters v f ∧
      ∃ x fs', newCluster v kind fs = (some x, fs') ∧ f x = 0 ∧ v.has x = true ∧
        Reads v fs' (link f 0 x) (update d x fun _ => 0)) := by
  rw [newCluster]
  by_cases hkind : kind = .directory
  · rw [if_pos hkind]
    rcases allocCluster_spec g (.inl rfl) h with
      ⟨fs₁, heq, h₁, hall, -⟩ | ⟨x, fs₁, heq, hx, hhas, h₁, -⟩
    · exact .inr (.inl ⟨hkind, freeClusters_none hall, fs₁, by simp [heq], h₁⟩)
    · have hx0 : x ≠ 0 := by
        have := (g.lt_bad hhas).1
        omega
      obtain ⟨fs₂, hz, h₂⟩ := zeroCluster_spec g h₁ hhas
      have hcount := freeClusters_link hx hhas (.inl (rfl : 0 = 0))
      refine .inr (.inr ⟨hkind, by omega, x, fs₂, ?_, hx, hhas, h₂⟩)
      simp only [heq, if_neg hx0, hz]
  · rw [if_neg hkind]
    exact .inl ⟨hkind, rfl⟩

end NovarisOS.Fat32
