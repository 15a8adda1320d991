/-
NovarisOS.Uspace64.Lifetimes — `vmspace64_create` and `vmspace64_destroy`.

A space that is destroyed gives back the frames of its entries, except the
zero frame, of its tables, and its PML4: each of the places it holds gives
up one owner, and nothing else does (`Books.destroySpace`). A space that is
made takes one frame; the tables above the scratch page, which stay, are
made by the first (`createSpace_spec`).
-/
import NovarisOS.Uspace64.CloneTheorems

namespace NovarisOS

open Function (update update_of_ne update_self)

/-! ## Many frees -/

namespace Pmm64.Pmm

theorem freeAll_fields (fs : List Nat) : ∀ p : Pmm,
    (fs.foldl freeFrame p).ready = p.ready ∧ (fs.foldl freeFrame p).frameCount = p.frameCount ∧
      (fs.foldl freeFrame p).ram = p.ram := by
  induction fs with
  | nil => intro p; exact ⟨rfl, rfl, rfl⟩
  | cons f fs ih =>
    intro p
    obtain ⟨hready, hcount, hram⟩ := freeFrame_fields p f
    obtain ⟨hready', hcount', hram'⟩ := ih (p.freeFrame f)
    exact ⟨hready'.trans hready, hcount'.trans hcount, hram'.trans hram⟩

theorem Wf.freeAll (fs : List Nat) : ∀ {p : Pmm}, p.Wf → (fs.foldl Pmm.freeFrame p).Wf := by
  induction fs with
  | nil => intro p h; exact h
  | cons f fs ih => intro p h; exact ih (h.freeFrame f)

theorem freeFrame_owners_le (p : Pmm) (f g : Nat) :
    (p.freeFrame f).frameOwners g ≤ p.frameOwners g := by
  rw [frameOwners_freeFrame]
  by_cases hg : g = f
  · rw [hg, update_self]
    omega
  · rw [update_of_ne hg]

theorem freeAll_owners_le (fs : List Nat) : ∀ (p : Pmm) (g : Nat),
    (fs.foldl freeFrame p).frameOwners g ≤ p.frameOwners g := by
  induction fs with
  | nil => intro p g; exact Nat.le_refl _
  | cons f fs ih =>
    intro p g
    exact Nat.le_trans (ih (p.freeFrame f) g) (freeFrame_owners_le p f g)

theorem Grounded.freeAll (fs : List Nat) : ∀ {p : Pmm}, p.Grounded →
    (p.ready = true → 0 < p.frameCount → 0 < (fs.foldl Pmm.freeFrame p).frameOwners 0) →
    (fs.foldl Pmm.freeFrame p).Grounded := by
  induction fs with
  | nil => intro p h _; exact h
  | cons f fs ih =>
    intro p h h0
    obtain ⟨hready, hcount, -⟩ := freeFrame_fields p f
    refine ih (h.freeFrame fun hr hc => ?_) fun hr hc => h0 (hready ▸ hr) (hcount ▸ hc)
    exact Nat.lt_of_lt_of_le (h0 hr hc) (freeAll_owners_le fs _ 0)

end Pmm64.Pmm

namespace Uspace64

open Pmm64 (Pmm)
open Vmspace64 (Pte liveAdd liveRemove)

/-! ## The table of live spaces -/

variable {live : List Nat} {x s v : Nat}

theorem mem_of_idxOf? {i : Nat} (h : live.idxOf? x = some i) :
    ∃ hi : i < live.length, live[i] = x := by
  rw [List.idxOf?, List.findIdx?_eq_some_iff_getElem] at h
  obtain ⟨hi, heq, -⟩ := h
  exact ⟨hi, by simpa using heq⟩

theorem liveRemove_perm {live' : List Nat} (h : liveRemove live x = some live') :
    live.Perm (x :: live') := by
  unfold liveRemove at h
  split at h
  · rename_i i last hi hlast
    cases h
    obtain ⟨hlt, hx⟩ := mem_of_idxOf? hi
    obtain ⟨init, rfl⟩ : ∃ init, live = init ++ [last] := by
      have hne : live ≠ [] := List.ne_nil_of_length_pos (by omega)
      refine ⟨live.dropLast, ?_⟩
      have := List.getLast?_eq_some_getLast hne
      rw [hlast] at this
      rw [Option.some.inj this, List.dropLast_append_getLast]
    by_cases hend : i = init.length
    · subst hend
      have hset : (init ++ [last]).set init.length last = init ++ [last] := by simp
      have hxl : last = x := by simpa using hx
      rw [hset, List.dropLast_concat, hxl]
      exact List.perm_append_singleton x init
    · have hin : i < init.length := by
        simp only [List.length_append, List.length_singleton] at hlt
        omega
      have hset : (init ++ [last]).set i last = init.set i last ++ [last] :=
        List.set_append_left _ _ hin
      have hxi : init[i]?.getD last = x := by
        rw [← hx, List.getElem_append_left hin, List.getElem?_eq_getElem hin, Option.getD_some]
      have hperm := List.getD_set_perm_cons init i last
      rw [hxi] at hperm
      rw [hset, List.dropLast_concat]
      exact (List.perm_append_singleton last init).trans hperm.symm
  · cases h

theorem liveRemove_eq_none : liveRemove live x = none ↔ x ∉ live := by
  constructor
  · intro h hmem
    have hne : live ≠ [] := List.ne_nil_of_mem hmem
    obtain ⟨i, hi⟩ := Option.isSome_iff_exists.mp (List.isSome_idxOf?.mpr hmem)
    rw [liveRemove, hi, List.getLast?_eq_some_getLast hne] at h
    cases h
  · intro h
    cases hr : liveRemove live x with
    | none => rfl
    | some live' => exact absurd ((liveRemove_perm hr).mem_iff.mpr (List.mem_cons_self ..)) h

/-! ## Destroying a space -/

/-- The frames the tree of a space gives back. -/
def PageTree.freed (sys : Sys) (t : PageTree) : List Nat :=
  t.pages.keys.filterMap (fun v => (t.pages.get v).bind sys.holds) ++
    t.tables.keys.filterMap (fun k => (t.tables.get k).map Link.frame)

theorem freeLowHalfTables_eq (sys : Sys) (t : PageTree) :
    freeLowHalfTables sys t = (t.freed sys).foldl Pmm.freeFrame sys.pmm := by
  rw [PageTree.freed, List.foldl_append, List.foldl_filterMap, List.foldl_filterMap]
  refine (List.foldl_ext _ _ _ ?_).trans
    (congrArg (fun pmm => List.foldl _ pmm t.tables.keys) (List.foldl_ext _ _ _ ?_))
  · intro pmm k _
    cases t.tables.get k <;> rfl
  · intro pmm v _
    cases t.pages.get v with
    | none => rfl
    | some e => by_cases hz : e.frame = sys.zero <;> simp [Sys.isZero, Sys.holds, hz]

theorem destroySpace_cases (sys : Sys) (loaded pml4 : Nat) :
    (destroySpace sys loaded pml4 = sys ∧ (pml4 = 0 ∨ loaded = pml4 ∨ pml4 ∉ sys.live)) ∨
    (∃ live, pml4 ≠ 0 ∧ loaded ≠ pml4 ∧ sys.live.Perm (pml4 :: live) ∧
      destroySpace sys loaded pml4 = { sys with
        live := live
        pmm := (((sys.spaces pml4).getD PageTree.empty).freed sys ++ [pml4]).foldl Pmm.freeFrame
          sys.pmm
        spaces := update sys.spaces pml4 none }) := by
  unfold destroySpace
  split
  · rename_i h
    exact Or.inl ⟨rfl, h.elim Or.inl fun h => Or.inr (Or.inl h)⟩
  · rename_i h
    obtain ⟨h0, hloaded⟩ := not_or.mp h
    cases hr : liveRemove sys.live pml4 with
    | none => exact Or.inl ⟨rfl, Or.inr (Or.inr (liveRemove_eq_none.mp hr))⟩
    | some live =>
      refine Or.inr ⟨live, h0, hloaded, liveRemove_perm hr, ?_⟩
      rw [List.foldl_append, ← freeLowHalfTables_eq]
      rfl

/-- The places of the space `s`, whose tree is `t`. -/
def PageTree.places (s : Nat) (t : PageTree) : List Place :=
  t.pages.keys.map (.page s) ++ t.tables.keys.map (.table s) ++ [.root s]

theorem PageTree.nodup_places (s : Nat) (t : PageTree) : (t.places s).Nodup := by
  have hpage : (t.pages.keys.map (Place.page s)).Nodup :=
    t.pages.nodup.map fun v v' h => by simpa using h
  have htable : (t.tables.keys.map (Place.table s)).Nodup :=
    t.tables.nodup.map fun k k' h => by simpa using h
  refine List.nodup_append.mpr ⟨List.nodup_append.mpr ⟨hpage, htable, ?_⟩, List.nodup_singleton _, ?_⟩
  · intro a ha b hb
    obtain ⟨v, -, rfl⟩ := List.mem_map.mp ha
    obtain ⟨k, -, rfl⟩ := List.mem_map.mp hb
    simp
  · intro a ha b hb
    obtain rfl := List.mem_singleton.mp hb
    rcases List.mem_append.mp ha with ha | ha
    · obtain ⟨v, -, rfl⟩ := List.mem_map.mp ha
      simp
    · obtain ⟨k, -, rfl⟩ := List.mem_map.mp ha
      simp

section

variable {watch : Nat → Bool} {files : Nat → List Nat} {base : Nat → Nat} {hand : List Nat}
  {sys : Sys} {s : Nat} {t : PageTree}

theorem foldl_places (hs : sys.spaces s = some t) (hw : watch s = true) :
    (t.places s).foldl (fun pmm k => (sys.held watch files k).elim pmm pmm.freeFrame) sys.pmm =
      (t.freed sys ++ [s]).foldl Pmm.freeFrame sys.pmm := by
  have hpage : ∀ v, sys.held watch files (.page s v) = (t.pages.get v).bind sys.holds := by
    intro v
    rw [Books.held_page hw, Sys.entry_of_space hs]
  have htable : ∀ k, sys.held watch files (.table s k) = (t.tables.get k).map Link.frame := by
    intro k
    simp [Sys.held, hw, hs]
  have hroot : sys.held watch files (.root s) = some s := by simp [Sys.held, hw, hs]
  rw [PageTree.places, PageTree.freed, List.foldl_append, List.foldl_append, List.foldl_append,
    List.foldl_append, List.foldl_map, List.foldl_map, List.foldl_filterMap, List.foldl_filterMap]
  simp only [List.foldl_cons, List.foldl_nil, hroot, Option.elim_some]
  refine congrArg (Pmm.freeFrame · s) ((List.foldl_ext _ _ _ ?_).trans
    (congrArg (fun pmm => List.foldl _ pmm t.tables.keys) (List.foldl_ext _ _ _ ?_)))
  · intro pmm k _
    rw [htable]
    cases t.tables.get k <;> rfl
  · intro pmm v _
    rw [hpage]
    cases (t.pages.get v).bind sys.holds <;> rfl

theorem held_without (hs : sys.spaces s = some t) (sys' : Sys)
    (hspaces : sys'.spaces = update sys.spaces s none) (hzero : sys'.zero = sys.zero)
    (k : Place) : sys'.held watch files k =
      if k ∈ t.places s then none else sys.held watch files k := by
  have hself : sys'.spaces s = none := by rw [hspaces, update_self]
  have hother : ∀ s', s' ≠ s → sys'.spaces s' = sys.spaces s' := by
    intro s' hne
    rw [hspaces, update_of_ne hne]
  have hholds : sys'.holds = sys.holds := by
    funext e
    rw [Sys.holds, Sys.holds, hzero]
  cases k with
  | page s' v =>
    by_cases hss : s' = s
    · subst hss
      have hgone : sys'.held watch files (.page s' v) = none := by simp [Sys.held, Sys.entry, hself]
      rw [hgone]
      by_cases hin : Place.page s' v ∈ t.places s'
      · rw [if_pos hin]
      · have hnone : t.pages.get v = none := by
          by_contra hget
          exact hin (by simp [PageTree.places, (t.pages.mem_keys v).mpr hget])
        rw [if_neg hin, Sys.held, Sys.entry_of_space hs, hnone]
        simp
    · rw [if_neg (by simp [PageTree.places, Ne.symm hss]), Sys.held, Sys.held, Sys.entry, Sys.entry,
        hother s' hss, hholds]
  | table s' k =>
    by_cases hss : s' = s
    · subst hss
      have hgone : sys'.held watch files (.table s' k) = none := by simp [Sys.held, hself]
      rw [hgone]
      by_cases hin : Place.table s' k ∈ t.places s'
      · rw [if_pos hin]
      · have hnone : t.tables.get k = none := by
          by_contra hget
          exact hin (by simp [PageTree.places, (t.tables.mem_keys k).mpr hget])
        rw [if_neg hin, Sys.held, hs]
        simp [hnone]
    · rw [if_neg (by simp [PageTree.places, Ne.symm hss]), Sys.held, Sys.held, hother s' hss]
  | root s' =>
    by_cases hss : s' = s
    · subst hss
      rw [if_pos (by simp [PageTree.places]), Sys.held, hself]
      simp
    · rw [if_neg (by simp [PageTree.places, hss]), Sys.held, Sys.held, hother s' hss]
  | file i j => rw [if_neg (by simp [PageTree.places])]; rfl
  | zero => rw [if_neg (by simp [PageTree.places]), Sys.held, Sys.held, hzero]

/-- The spaces without `s`, whose tree was `t`. -/
def Sys.without (sys : Sys) (s : Nat) (t : PageTree) (live : List Nat) : Sys :=
  { sys with
    live := live
    pmm := (t.freed sys ++ [s]).foldl Pmm.freeFrame sys.pmm
    spaces := update sys.spaces s none }

theorem Sys.without_ready (sys : Sys) (live : List Nat) : (sys.without s t live).pmm.ready = sys.pmm.ready :=
  (Pmm.freeAll_fields _ _).1

theorem Sys.without_frameCount (sys : Sys) (live : List Nat) :
    (sys.without s t live).pmm.frameCount = sys.pmm.frameCount := (Pmm.freeAll_fields _ _).2.1

theorem Sys.without_ram (sys : Sys) (live : List Nat) : (sys.without s t live).pmm.ram = sys.pmm.ram :=
  (Pmm.freeAll_fields _ _).2.2

theorem Books.destroyed (h : Books watch files base hand sys) (hs : sys.spaces s = some t)
    (hw : watch s = true) (live : List Nat) :
    Books watch files base hand (sys.without s t live) := by
  have htally := releaseAll (P := (Tallied · base hand ·)) Pmm.frameOwners_freeFrame
    (fun _ _ _ _ hk h => (h.pick hk).give) (t.places s) (sys.held watch files) sys.pmm
    (t.nodup_places s) h.tally
  rw [foldl_places hs hw] at htally
  refine ⟨⟨h.sound.wf.freeAll _, h.sound.ground.freeAll _ fun hr hc => ?_, ?_⟩, ?_, ?_⟩
  · have := h.ground hr hc
    have := htally.outside_le 0
    omega
  · intro s' t' hs'
    by_cases hss : s' = s
    · subst hss
      simp [Sys.without] at hs'
    · exact h.sound.trees s' t' (by simpa [Sys.without, update_of_ne hss] using hs')
  · rw [sys.without_ready, sys.without_frameCount]
    exact h.ground
  · refine htally.congr (fun k => ?_) fun _ => rfl
    rw [held_without hs (sys.without s t live) rfl rfl]

end

/-! ## Making a space -/

variable {sys : Sys}

/-- Tables of the kernel's half are no page and in no space. -/
theorem Tables.kernel_half {sys' : Sys} (h : Tables s v sys sys') (hv : ¬ v < LOW_PAGES) :
    sys'.spaces = sys.spaces ∧ sys'.upper.pages = sys.upper.pages := by
  have hset : ∀ (sys : Sys) (t : PageTree), sys.setTree s v t = { sys with upper := t } := by
    intro sys t
    rw [Sys.setTree, if_neg hv]
  have htree : ∀ sys : Sys, sys.tree s v = sys.upper := fun sys => by rw [Sys.tree, if_neg hv]
  refine h.keep (I := fun sys' => sys'.spaces = sys.spaces ∧ sys'.upper.pages = sys.upper.pages)
    (fun _ _ hI hone => ?_) ⟨rfl, rfl⟩
  cases hone with
  | refused _ htook => rw [htook.spaces, htook.upper, hI.1, hI.2]; trivial
  | widened => rw [hset, htree]; exact hI
  | made lvl f sys₁ l _ htook => rw [hset, htree]; exact ⟨htook.spaces.trans hI.1, hI.2⟩

/-- The kernel keeps more frames than before, and they had no owner. -/
def Grown (sys : Sys) (base base' : Nat → Nat) : Prop :=
  ∀ g, base' g = base g ∨ (base g < base' g ∧ sys.pmm.frameOwners g = 0)

theorem Books.upper {watch : Nat → Bool} {files : Nat → List Nat} {base : Nat → Nat}
    {hand : List Nat} {sys' : Sys} (h : Books watch files base hand sys)
    (hv : ¬ v < LOW_PAGES) (hsteps : Tables s v sys sys') :
    ∃ base', Grown sys base base' ∧ Books watch files base' hand sys' := by
  have hend := hsteps.keep (I := fun sys' => Calm sys sys' ∧
      ∃ base', Grown sys base base' ∧ Books watch files base' hand sys')
    (fun sys₁ sys₂ hI hone => ?_) ⟨.refl sys, base, fun _ => Or.inl rfl, h⟩
  · exact hend.2
  · obtain ⟨hcalm, base', hgrown, hbooks⟩ := hI
    refine ⟨hcalm.trans (hone.calm hbooks.sound.ground), ?_⟩
    cases hone with
    | refused _ htook => exact ⟨base', hgrown, hbooks.refused htook⟩
    | widened =>
      rw [Sys.setTree, if_neg hv]
      exact ⟨base', hgrown, hbooks.congr rfl rfl rfl⟩
    | made lvl f sys₂ l _ htook hf =>
      rw [Sys.setTree, if_neg hv]
      have hfree := (htook.pmm.fresh hf).2.1
      have htaken := hbooks.took htook hf
      have hsettled : Books watch files (update base' f (base' f + 1)) hand sys₂ := by
        refine ⟨htaken.sound, fun hr hc => ?_, htaken.tally.settle⟩
        have := htaken.ground hr hc
        by_cases h0 : 0 = f
        · rw [← h0, update_self]
          omega
        · rw [update_of_ne h0]
          exact this
      refine ⟨_, fun g => ?_, hsettled.congr rfl rfl rfl⟩
      by_cases hg : g = f
      · subst hg
        rw [update_self]
        have hwas : sys.pmm.frameOwners g = 0 := by
          by_contra hne
          have := hcalm.owners g (by omega)
          omega
        rcases hgrown g with hgr | hgr <;> exact Or.inr ⟨by omega, hwas⟩
      · rw [update_of_ne hg]
        exact hgrown g

/-- What `vmspace64_create` did when it returned the frame `f`. -/
structure Created (sys : Sys) (f : Nat) (sys' : Sys) : Prop where
  ne : f ≠ 0
  fresh : sys.pmm.frameOwners f = 0
  spaces : sys'.spaces = update sys.spaces f (some PageTree.empty)
  live : sys'.live = liveAdd sys.live f
  zero : sys'.zero = sys.zero
  mem : sys'.mem = sys.mem
  self : sys'.pmm.frameOwners f = 1
  owners : ∀ g, 0 < sys.pmm.frameOwners g → sys'.pmm.frameOwners g = sys.pmm.frameOwners g
  ready : sys'.pmm.ready = sys.pmm.ready
  frameCount : sys'.pmm.frameCount = sys.pmm.frameCount
  ram : sys'.pmm.ram = sys.pmm.ram
  sound : sys'.Sound

theorem pagingMap_pmm (hr : sys.Real s v) (hopen : sys.Opened s v)
    (frame flags : Nat) : (pagingMap sys s v frame flags).2.pmm = sys.pmm := by
  -- a table that is there is only widened
  have hone : ∀ {sys : Sys} (lvl : Nat), lvl < 3 → sys.Real s v → sys.Opened s v →
      (ensureTable sys s v lvl flags).1 = true ∧ (ensureTable sys s v lvl flags).2.pmm = sys.pmm ∧
      (ensureTable sys s v lvl flags).2.Real s v ∧ (ensureTable sys s v lvl flags).2.Opened s v := by
    intro sys lvl hlvl hr hopen
    obtain ⟨l, hl⟩ := Option.ne_none_iff_exists'.mp (hopen lvl hlvl)
    have htabled : Tabled s v sys (ensureTable sys s v lvl flags).2 := by
      unfold ensureTable
      simp only [hl]
      exact .widened lvl l ⟨l.frame, l.write || flags.testBit 1, l.user || flags.testBit 2⟩ hl rfl
    refine ⟨by simp [ensureTable, hl], ?_, htabled.real hr,
      fun lvl' hlvl' => htabled.opened hr (hopen lvl' hlvl')⟩
    simp only [ensureTable, hl, Sys.setTree]
    split
    · split <;> rfl
    · rfl
  obtain ⟨hok0, hpmm0, hr0, hopen0⟩ := hone 0 (by omega) hr hopen
  unfold pagingMap
  rcases hm0 : ensureTable sys s v 0 flags with ⟨ok0, sys0⟩
  rw [hm0] at hok0 hpmm0 hr0 hopen0
  subst hok0
  simp only
  split
  · exact hpmm0
  · obtain ⟨hok1, hpmm1, hr1, hopen1⟩ := hone 1 (by omega) hr0 hopen0
    rcases hm1 : ensureTable sys0 s v 1 flags with ⟨ok1, sys1⟩
    rw [hm1] at hok1 hpmm1 hr1 hopen1
    subst hok1
    simp only
    split
    · exact hpmm1.trans hpmm0
    · obtain ⟨hok2, hpmm2, -, -⟩ := hone 2 (by omega) hr1 hopen1
      rcases hm2 : ensureTable sys1 s v 2 flags with ⟨ok2, sys2⟩
      rw [hm2] at hok2 hpmm2
      subst hok2
      rw [(Sys.setPte_fields ..).1]
      exact hpmm2.trans (hpmm1.trans hpmm0)

theorem scratch_unmap (sys : Sys) (s : Nat) (e : Pte) :
    ∃ t, pagingUnmap (sys.setPte s SCRATCH_PAGE e) s SCRATCH_PAGE = { sys with upper := t } := by
  have hset : sys.setPte s SCRATCH_PAGE e = { sys with upper := { sys.upper with
      pages := sys.upper.pages.set SCRATCH_PAGE e } } := rfl
  rw [hset, pagingUnmap]
  split
  · exact ⟨_, rfl⟩
  · exact ⟨_, rfl⟩

/-- The three things `vmspace64_create` can do. Where the tables above the
scratch page are there already, no other frame is taken. -/
inductive SpaceMade (sys : Sys) : Nat × Sys → Prop where
  | refused {sys₁ : Sys} : sys.Took 0 sys₁ → SpaceMade sys (0, sys₁)
  | noRoom {sys₁ sys₂ : Sys} {f loaded : Nat} : sys.Took f sys₁ → f ≠ 0 →
      Tables loaded SCRATCH_PAGE sys₁ sys₂ →
      (sys.upper.Open SCRATCH_PAGE → sys₂.pmm = sys₁.pmm) → SpaceMade sys (0, sys₂.free f)
  | made {sys₁ sys₂ : Sys} {f loaded : Nat} (t : PageTree) : sys.Took f sys₁ → f ≠ 0 →
      Tables loaded SCRATCH_PAGE sys₁ sys₂ →
      (sys.upper.Open SCRATCH_PAGE → sys₂.pmm = sys₁.pmm) →
      SpaceMade sys (f, { sys₂ with
        upper := t
        live := liveAdd sys₂.live f
        spaces := update sys₂.spaces f (some PageTree.empty) })

theorem scratch_upper : ¬ SCRATCH_PAGE < LOW_PAGES := by decide

theorem createSpace_cases (h : sys.Sound) (loaded : Nat) :
    SpaceMade sys (createSpace sys loaded) := by
  unfold createSpace
  have htook := Sys.allocFrame_took h.wf
  rcases ha : sys.allocFrame with ⟨frame, sys₁⟩
  rw [ha] at htook
  simp only at htook ⊢
  by_cases h0 : frame = 0
  · rw [if_pos h0]
    subst h0
    exact .refused htook
  · rw [if_neg h0]
    have hreal : sys₁.Real loaded SCRATCH_PAGE := fun hlow => absurd hlow scratch_upper
    obtain ⟨sys₂, hroom, hres⟩ := pagingMap_spec (h.took htook) hreal frame
      (PAGE64_PRESENT ||| PAGE64_WRITE)
    have hpmm : sys.upper.Open SCRATCH_PAGE → sys₂.pmm = sys₁.pmm := by
      intro hopen
      have hopened : sys₁.Opened loaded SCRATCH_PAGE := by
        rw [Sys.Opened, Sys.tree, if_neg scratch_upper, htook.upper]
        exact hopen
      have hkept := pagingMap_pmm hreal hopened frame (PAGE64_PRESENT ||| PAGE64_WRITE)
      rw [hres] at hkept
      split at hkept
      · rwa [(Sys.setPte_fields ..).1] at hkept
      · exact hkept
    rcases hm : pagingMap sys₁ loaded SCRATCH_PAGE frame (PAGE64_PRESENT ||| PAGE64_WRITE) with ⟨ok, sys₃⟩
    rw [hm] at hres hroom
    cases ok with
    | false =>
      subst hres
      exact .noRoom htook h0 hroom.tables hpmm
    | true =>
      simp only [if_true] at hres
      obtain ⟨t, ht⟩ := scratch_unmap sys₂ loaded (pteOf frame (PAGE64_PRESENT ||| PAGE64_WRITE))
      rw [← hres] at ht
      simp only
      rw [ht]
      exact @SpaceMade.made sys sys₁ sys₂ frame loaded t htook h0 hroom.tables hpmm

theorem SpaceMade.spec {r : Nat × Sys} (hmade : SpaceMade sys r) (h : sys.Sound) :
    (r.1 = 0 ∧ Calm sys r.2 ∧ r.2.Sound) ∨ Created sys r.1 r.2 := by
  have hreal : ∀ {sys₁ : Sys} {loaded : Nat}, sys₁.Real loaded SCRATCH_PAGE :=
    fun hlow => absurd hlow scratch_upper
  cases hmade with
  | refused htook => exact Or.inl ⟨rfl, .took htook h.ground, h.took htook⟩
  | noRoom htook h0 hsteps hpmm =>
    rename_i sys₁ sys₂ f loaded
    have hcalm := (Calm.took htook h.ground).trans (hsteps.calm (h.took htook) hreal)
    have hsound := (hsteps.sound (h.took htook) hreal).1
    have hfree := (htook.pmm.fresh h0).2.1
    refine Or.inl ⟨rfl, ?_, ?_⟩
    · obtain ⟨hready, hcount, hram⟩ := Pmm.freeFrame_fields sys₂.pmm f
      refine ⟨hcalm.entry, hcalm.here, hcalm.zero, hcalm.mem, hcalm.live, fun g hg => ?_,
        hready.trans hcalm.ready, hcount.trans hcalm.frameCount, hram.trans hcalm.ram⟩
      show (sys₂.pmm.freeFrame f).frameOwners g = _
      have hne : g ≠ f := by
        rintro rfl
        omega
      rw [Pmm.frameOwners_freeFrame, update_of_ne hne, hcalm.owners g hg]
    · refine ⟨hsound.wf.freeFrame f, hsound.ground.freeFrame fun hr hc => ?_, hsound.trees⟩
      -- frame 0 is not the one that is given back
      rw [Pmm.frameOwners_freeFrame, update_of_ne (Ne.symm h0)]
      exact (Pmm.bitmapTest_iff hr hc).mp (hsound.ground hr)
  | made t htook h0 hsteps hpmm =>
    rename_i sys₁ sys₂ f loaded
    have hcalm₂ := hsteps.calm (h.took htook) hreal
    have hcalm := (Calm.took htook h.ground).trans hcalm₂
    have hsound := (hsteps.sound (h.took htook) hreal).1
    obtain ⟨-, hfree, hone⟩ := htook.pmm.fresh h0
    have hspaces : sys₂.spaces = sys.spaces := (hsteps.kernel_half scratch_upper).1.trans htook.spaces
    refine Or.inr ⟨h0, hfree, by rw [← hspaces], by rw [← hcalm.live], hcalm.zero, hcalm.mem,
      (hcalm₂.owners f (by omega)).trans hone, hcalm.owners, hcalm.ready, hcalm.frameCount, hcalm.ram,
      hsound.wf, hsound.ground, ?_⟩
    intro s' t' hs'
    by_cases hss : s' = f
    · subst hss
      have : some PageTree.empty = some t' := by simpa using hs'
      cases this
      exact PageTree.empty_wf
    · exact hsound.trees s' t' (by simpa [update_of_ne hss] using hs')

section

variable {watch : Nat → Bool} {files : Nat → List Nat} {base : Nat → Nat} {hand : List Nat}
  {sys : Sys}

/-- With a new space its PML4 has a place, and the other places hold what
they held. -/
theorem held_newRoot {f : Nat} (hnone : sys.spaces f = none) (hw : watch f = true) (sys' : Sys)
    (hspaces : sys'.spaces = update sys.spaces f (some PageTree.empty))
    (hzero : sys'.zero = sys.zero) :
    sys'.held watch files = update (sys.held watch files) (.root f) (some f) := by
  have hself : sys'.spaces f = some PageTree.empty := by rw [hspaces, update_self]
  have hother : ∀ s', s' ≠ f → sys'.spaces s' = sys.spaces s' := by
    intro s' hne
    rw [hspaces, update_of_ne hne]
  have hholds : sys'.holds = sys.holds := by
    funext e
    rw [Sys.holds, Sys.holds, hzero]
  funext k
  cases k with
  | page s' v =>
    rw [update_of_ne (by simp)]
    simp only [Sys.held, Sys.entry]
    by_cases hss : s' = f
    · subst hss
      rw [hself, hnone]
      rfl
    · rw [hother s' hss, hholds]
  | table s' k =>
    rw [update_of_ne (by simp)]
    simp only [Sys.held]
    by_cases hss : s' = f
    · subst hss
      rw [hself, hnone]
      rfl
    · rw [hother s' hss]
  | root s' =>
    by_cases hss : s' = f
    · subst hss
      rw [update_self]
      simp [Sys.held, hw, hself]
    · rw [update_of_ne (by simp [hss])]
      simp only [Sys.held]
      rw [hother s' hss]
  | file i j =>
    rw [update_of_ne (by simp)]
    rfl
  | zero =>
    rw [update_of_ne (by simp), Sys.held, Sys.held, hzero]

theorem Books.putRoot {f : Nat} (h : Books watch files base (f :: hand) sys) (hw : watch f = true)
    (hnone : sys.spaces f = none) (t : PageTree) (live : List Nat) :
    Books watch files base hand { sys with
      upper := t
      live := live
      spaces := update sys.spaces f (some PageTree.empty) } := by
  refine ⟨⟨h.sound.wf, h.sound.ground, h.sound.trees.withTree f PageTree.empty_wf⟩, h.ground, ?_⟩
  have hroot : sys.held watch files (.root f) = none := by simp [Sys.held, hnone]
  rw [held_newRoot hnone hw { sys with
    upper := t
    live := live
    spaces := update sys.spaces f (some PageTree.empty) } rfl rfl]
  exact h.tally.put hroot

theorem Books.spaceMade {r : Nat × Sys} (h : Books watch files base hand sys)
    (hmade : SpaceMade sys r) (hw : r.1 ≠ 0 → watch r.1 = true)
    (hnone : r.1 ≠ 0 → sys.spaces r.1 = none) :
    ∃ base', Grown sys base base' ∧ Books watch files base' hand r.2 := by
  have hback : ∀ {f : Nat} {sys₁ : Sys} {base' : Nat → Nat}, sys.Took f sys₁ → f ≠ 0 →
      Grown sys₁ base base' → Grown sys base base' := by
    intro f sys₁ base' htook hf hgrown g
    rcases hgrown g with hg | ⟨hlt, hzero⟩
    · exact Or.inl hg
    · refine Or.inr ⟨hlt, ?_⟩
      by_contra hne
      have := (Calm.took htook h.sound.ground).owners g (by omega)
      omega
  cases hmade with
  | refused htook => exact ⟨base, fun _ => Or.inl rfl, h.refused htook⟩
  | noRoom htook h0 hsteps hpmm =>
    obtain ⟨base', hgrown, hbooks⟩ := (h.took htook h0).upper scratch_upper hsteps
    exact ⟨base', hback htook h0 hgrown, hbooks.free⟩
  | made t htook h0 hsteps hpmm =>
    obtain ⟨base', hgrown, hbooks⟩ := (h.took htook h0).upper scratch_upper hsteps
    refine ⟨base', hback htook h0 hgrown, hbooks.putRoot (hw h0) ?_ t _⟩
    rw [(hsteps.kernel_half scratch_upper).1, htook.spaces]
    exact hnone h0

end

end Uspace64

end NovarisOS
