/-
NovarisOS.Lib.Owners — places that hold resources, and owner counts.

Each place `k` holds at most one resource, `held k`. A count per resource is
right for the places when no resource is held in more places than it has
owners (`Counted`). Nothing here says the two are equal: somebody outside may
be an owner too.
-/
import Mathlib.Data.Finset.Card

namespace NovarisOS

open Function (update update_eq_self update_of_ne update_self)

variable {κ φ : Type*} [DecidableEq κ]

/-- A list of places gives up what it holds, one after the other. What each of them
keeps, the whole list keeps. -/
theorem releaseAll {P : (κ → Option φ) → (φ → Nat) → Prop} {σ : Type*} {count : σ → φ → Nat}
    {free : σ → φ → σ} [DecidableEq φ]
    (hfree : ∀ st f, count (free st f) = update (count st) f (count st f - 1))
    (hstep : ∀ held owners k f, held k = some f → P held owners →
      P (update held k none) (update owners f (owners f - 1))) :
    ∀ (ks : List κ) (held : κ → Option φ) (st : σ), ks.Nodup → P held (count st) →
      P (fun k => if k ∈ ks then none else held k)
        (count (ks.foldl (fun st k => (held k).elim st (free st)) st)) := by
  intro ks
  induction ks with
  | nil => intro held st _ h; simpa using h
  | cons k ks ih =>
    intro held st hnodup h
    obtain ⟨hk, hnodup⟩ := List.nodup_cons.mp hnodup
    -- the places after `k` still hold what they held
    have hsame : ∀ k' ∈ ks, update held k none k' = held k' :=
      fun k' hk' => update_of_ne (ne_of_mem_of_not_mem hk' hk) _ _
    have hfirst : P (update held k none) (count ((held k).elim st (free st))) := by
      cases hheld : held k with
      | none =>
        rw [← hheld, update_eq_self, hheld]
        exact h
      | some f =>
        rw [Option.elim_some, hfree]
        exact hstep held _ k f hheld h
    have hrest := ih _ _ hnodup hfirst
    rw [List.foldl_ext _ (fun st k => (held k).elim st (free st)) _
      (fun st k' hk' => by rw [hsame k' hk'])] at hrest
    have hends : (fun k' => if k' ∈ k :: ks then none else held k') =
        fun k' => if k' ∈ ks then none else update held k none k' := by
      funext k'
      by_cases hkk : k' = k <;> simp [hkk]
    rw [hends]
    exact hrest

/-- No resource is held in more places than it has owners. -/
def Counted (held : κ → Option φ) (owners : φ → Nat) : Prop :=
  ∀ f (K : Finset κ), (∀ k ∈ K, held k = some f) → K.card ≤ owners f

namespace Counted

variable {held : κ → Option φ} {owners : φ → Nat}

omit [DecidableEq κ] in
theorem mono {owners' : φ → Nat} (h : Counted held owners) (hle : ∀ f, owners f ≤ owners' f) :
    Counted held owners' :=
  fun f K hK => Nat.le_trans (h f K hK) (hle f)

omit [DecidableEq κ] in
theorem sub {held' : κ → Option φ} (h : Counted held owners)
    (hsub : ∀ k f, held' k = some f → held k = some f) : Counted held' owners :=
  fun f K hK => h f K fun k hk => hsub k f (hK k hk)

omit [DecidableEq κ] in
theorem not_held (h : Counted held owners) {f : φ} (hf : owners f = 0) (k : κ) :
    held k ≠ some f := by
  intro hk
  have hle := h f {k} (by simpa using hk)
  rw [Finset.card_singleton, hf] at hle
  omega

theorem unique (h : Counted held owners) {f : φ} (hf : owners f ≤ 1) {k k' : κ}
    (hk : held k = some f) (hk' : held k' = some f) : k = k' := by
  by_contra hne
  have hle := h f {k, k'} (by simp [hk, hk'])
  rw [Finset.card_pair hne] at hle
  omega

variable [DecidableEq φ]

theorem put (h : Counted held owners) (k : κ) (f : φ) :
    Counted (update held k (some f)) (update owners f (owners f + 1)) := by
  intro g K hK
  have hold : ∀ k' ∈ K.erase k, held k' = some g := by
    intro k' hk'
    have hne := Finset.ne_of_mem_erase hk'
    simpa [hne] using hK k' (Finset.mem_of_mem_erase hk')
  have hle := h g (K.erase k) hold
  by_cases hg : g = f
  · subst hg
    rw [update_self]
    have := Finset.pred_card_le_card_erase (s := K) (a := k)
    omega
  · rw [update_of_ne hg]
    have hnot : k ∉ K := by
      intro hmem
      have := hK k hmem
      rw [update_self] at this
      exact hg (Option.some.inj this).symm
    rwa [Finset.erase_eq_of_notMem hnot] at hle

theorem drop (h : Counted held owners) {k : κ} {f : φ} (hk : held k = some f) :
    Counted (update held k none) (update owners f (owners f - 1)) := by
  intro g K hK
  have hnot : k ∉ K := by
    intro hmem
    have := hK k hmem
    exact absurd this (by simp)
  have hold : ∀ k' ∈ K, held k' = some g := by
    intro k' hk'
    have hne : k' ≠ k := fun hkk => hnot (hkk ▸ hk')
    simpa [hne] using hK k' hk'
  by_cases hg : g = f
  · subst hg
    -- `k` held `g` too, so there was an owner more than `K` needs
    have hle := h g (insert k K) (by
      intro k' hk'
      rcases Finset.mem_insert.mp hk' with rfl | hk'
      · exact hk
      · exact hold k' hk')
    rw [Finset.card_insert_of_notMem hnot] at hle
    rw [update_self]
    omega
  · rw [update_of_ne hg]
    exact h g K hold

end Counted

/-! ## Exact counts -/

/-- The owners of a resource are the places that hold it, the owners outside,
and the hands it is in. -/
def Tallied [DecidableEq φ] (held : κ → Option φ) (base : φ → Nat) (hand : List φ)
    (owners : φ → Nat) : Prop :=
  ∀ f, ∃ K : Finset κ, (∀ k, k ∈ K ↔ held k = some f) ∧
    K.card + base f + hand.count f = owners f

namespace Tallied

variable [DecidableEq φ] {held : κ → Option φ} {base owners : φ → Nat} {hand : List φ}

omit [DecidableEq κ] in
theorem start (h : ∀ k, held k = none) : Tallied held owners [] owners :=
  fun f => ⟨∅, fun k => by simp [h k], by simp⟩

omit [DecidableEq κ] in
theorem congr {held' : κ → Option φ} {owners' : φ → Nat} (h : Tallied held base hand owners)
    (hheld : ∀ k, held' k = held k) (howners : ∀ f, owners' f = owners f) :
    Tallied held' base hand owners' := by
  rwa [funext hheld, funext howners]

omit [DecidableEq κ] in
theorem shift {base' owners' : φ → Nat} {hand' : List φ} (h : Tallied held base hand owners)
    (hsum : ∀ f c, c + base f + hand.count f = owners f →
      c + base' f + hand'.count f = owners' f) : Tallied held base' hand' owners' := by
  intro f
  obtain ⟨K, hK, hcount⟩ := h f
  exact ⟨K, hK, hsum f _ hcount⟩

omit [DecidableEq κ] in
theorem take (h : Tallied held base hand owners) (f : φ) :
    Tallied held base (f :: hand) (update owners f (owners f + 1)) :=
  h.shift fun g c hc => by grind [Function.update_apply]

omit [DecidableEq κ] in
theorem give {f : φ} (h : Tallied held base (f :: hand) owners) :
    Tallied held base hand (update owners f (owners f - 1)) :=
  h.shift fun g c hc => by grind [Function.update_apply]

variable {f : φ}

theorem put (h : Tallied held base (f :: hand) owners) {k : κ} (hk : held k = none) :
    Tallied (update held k (some f)) base hand owners := by
  intro g
  obtain ⟨K, hK, hcount⟩ := h g
  have hnot : k ∉ K := by
    rw [hK, hk]
    simp
  by_cases hg : g = f
  · subst hg
    refine ⟨insert k K, ?_, ?_⟩
    · intro k'
      by_cases hkk : k' = k
      · simp [hkk]
      · simp [hkk, hK]
    · rw [List.count_cons_self] at hcount
      rw [Finset.card_insert_of_notMem hnot]
      omega
  · refine ⟨K, ?_, ?_⟩
    · intro k'
      by_cases hkk : k' = k
      · subst hkk
        simp [hnot, Ne.symm hg]
      · simp [hkk, hK]
    · rw [List.count_cons_of_ne (Ne.symm hg)] at hcount
      exact hcount

theorem pick (h : Tallied held base hand owners) {k : κ} (hk : held k = some f) :
    Tallied (update held k none) base (f :: hand) owners := by
  intro g
  obtain ⟨K, hK, hcount⟩ := h g
  by_cases hg : g = f
  · subst hg
    have hmem : k ∈ K := (hK k).mpr hk
    refine ⟨K.erase k, ?_, ?_⟩
    · intro k'
      by_cases hkk : k' = k
      · simp [hkk]
      · simp [hkk, hK]
    · rw [List.count_cons_self, Finset.card_erase_of_mem hmem]
      have := Finset.card_pos.mpr ⟨k, hmem⟩
      omega
  · refine ⟨K, ?_, ?_⟩
    · intro k'
      by_cases hkk : k' = k
      · subst hkk
        simp [hK, hk, Ne.symm hg]
      · simp [hkk, hK]
    · rw [List.count_cons_of_ne (Ne.symm hg)]
      exact hcount

omit [DecidableEq κ] in
theorem settle (h : Tallied held base (f :: hand) owners) :
    Tallied held (update base f (base f + 1)) hand owners :=
  h.shift fun g c hc => by grind [Function.update_apply]

omit [DecidableEq κ] in
theorem fetch (h : Tallied held base hand owners) (hf : 0 < base f) :
    Tallied held (update base f (base f - 1)) (f :: hand) owners :=
  h.shift fun g c hc => by grind [Function.update_apply]

omit [DecidableEq κ] in
theorem held_pos (h : Tallied held base hand owners) {k : κ} (hk : held k = some f) :
    base f + hand.count f < owners f := by
  obtain ⟨K, hK, hcount⟩ := h f
  have := Finset.card_pos.mpr ⟨k, (hK k).mpr hk⟩
  omega

omit [DecidableEq κ] in
theorem outside_le (h : Tallied held base hand owners) (f : φ) :
    base f + hand.count f ≤ owners f := by
  obtain ⟨K, hK, hcount⟩ := h f
  omega

omit [DecidableEq κ] in
theorem not_held (h : Tallied held base hand owners) (hf : owners f = 0) (k : κ) :
    held k ≠ some f := by
  intro hk
  have := h.held_pos hk
  omega

omit [DecidableEq κ] in
theorem unique (h : Tallied held base hand owners) (hf : owners f = 1) {k k' : κ}
    (hk : held k = some f) (hk' : held k' = some f) : k = k' := by
  obtain ⟨K, hK, hcount⟩ := h f
  have hle : K.card ≤ 1 := by omega
  exact Finset.card_le_one.mp hle k ((hK k).mpr hk) k' ((hK k').mpr hk')

end Tallied

/-! ## One place each -/

/-- No two places hold the same resource. -/
def Exclusive {κ φ : Type*} (held : κ → Option φ) : Prop :=
  ∀ i j p, held i = some p → held j = some p → i = j

namespace Exclusive

variable {κ φ : Type*} [DecidableEq κ] {held : κ → Option φ}

theorem put (h : Exclusive held) {i : κ} {p : φ} (hp : ∀ j, held j ≠ some p) :
    Exclusive (update held i (some p)) := by
  intro j k q hj hk
  by_cases hji : j = i
  · by_cases hki : k = i
    · rw [hji, hki]
    · rw [hji, update_self] at hj
      rw [update_of_ne hki, ← hj] at hk
      exact absurd hk (hp k)
  · rw [update_of_ne hji] at hj
    by_cases hki : k = i
    · rw [hki, update_self] at hk
      rw [← hk] at hj
      exact absurd hj (hp j)
    · rw [update_of_ne hki] at hk
      exact h j k q hj hk

theorem drop (h : Exclusive held) (i : κ) : Exclusive (update held i none) := by
  intro j k q hj hk
  by_cases hji : j = i
  · rw [hji, update_self] at hj
    cases hj
  · by_cases hki : k = i
    · rw [hki, update_self] at hk
      cases hk
    · rw [update_of_ne hji] at hj
      rw [update_of_ne hki] at hk
      exact h j k q hj hk

end Exclusive

end NovarisOS
