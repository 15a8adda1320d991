/-
NovarisOS.Fat32.UnmountTheorems — what an unmount that is refused has done.

`drop_subtree` looks for references and gives nodes back in one pass, so a
directory whose subtree nobody holds is emptied before a reference further on
is seen. The cached nodes are a tree in the form the source links them in,
first child and next sibling (`Kin`).
-/
import NovarisOS.Fat32.Mount
import NovarisOS.Fat32.Space

namespace NovarisOS.Fat32

/-- Nodes by first child and next sibling. -/
inductive Kin where
  | nil
  | node (n : Nat) (below next : Kin)

namespace Kin

def roots : Kin → List Nat
  | nil => []
  | node n _ next => n :: next.roots

def all : Kin → List Nat
  | nil => []
  | node n below next => n :: (below.all ++ next.all)

/-- The lists of children are what the tree says. -/
def Of (s : State) : Kin → Prop
  | nil => True
  | node n below next => (s.nodes n).children = below.roots ∧ below.Of s ∧ next.Of s

/-- `drop_subtree` meets a reference. -/
def held (s : State) : Kin → Bool
  | nil => false
  | node n below next =>
      decide ((s.nodes n).refs ≠ 0) ||
        (decide ((s.nodes n).kind = .directory) && below.held s) || next.held s

/-- Before it meets one, it has emptied no directory that had children. -/
def intact (s : State) : Kin → Bool
  | nil => true
  | node n below next =>
      decide ((s.nodes n).refs ≠ 0) ||
        if (s.nodes n).kind = .directory then
          if below.held s then below.intact s
          else decide ((s.nodes n).children = []) && next.intact s
        else next.intact s

variable {s s' : State} {t below next : Kin} {n : Nat}

theorem Of.congr (h : t.Of s) (hsame : ∀ n ∈ t.all, s'.nodes n = s.nodes n) : t.Of s' := by
  induction t with
  | nil => trivial
  | node n below next ihb ihn =>
    simp only [all, List.mem_cons, List.mem_append] at hsame
    refine ⟨?_, ihb h.2.1 fun m hm => hsame m (.inr (.inl hm)),
      ihn h.2.2 fun m hm => hsame m (.inr (.inr hm))⟩
    rw [hsame n (.inl rfl)]
    exact h.1

theorem held_congr (hsame : ∀ n ∈ t.all, s'.nodes n = s.nodes n) : t.held s' = t.held s := by
  induction t with
  | nil => rfl
  | node n below next ihb ihn =>
    simp only [all, List.mem_cons, List.mem_append] at hsame
    rw [held, held, hsame n (.inl rfl), ihb fun m hm => hsame m (.inr (.inl hm)),
      ihn fun m hm => hsame m (.inr (.inr hm))]

theorem intact_congr (hsame : ∀ n ∈ t.all, s'.nodes n = s.nodes n) : t.intact s' = t.intact s := by
  induction t with
  | nil => rfl
  | node n below next ihb ihn =>
    simp only [all, List.mem_cons, List.mem_append] at hsame
    have hbelow : ∀ m ∈ below.all, s'.nodes m = s.nodes m := fun m hm => hsame m (.inr (.inl hm))
    rw [intact, intact, hsame n (.inl rfl), ihb hbelow,
      ihn fun m hm => hsame m (.inr (.inr hm)), held_congr hbelow]

theorem roots_subset (t : Kin) : ∀ n ∈ t.roots, n ∈ t.all := by
  induction t with
  | nil => simp [roots]
  | node n below next _ ihn =>
    intro m hm
    rcases List.mem_cons.mp hm with rfl | hm
    · exact List.mem_cons_self
    · exact List.mem_cons_of_mem n (List.mem_append_right _ (ihn m hm))

end Kin

/-! ## What the pass changes -/

/-- Nodes outside of `l` are as they were; a node of `l` is, or has no
children any more. -/
structure Dropped (l : List Nat) (s s' : State) : Prop where
  outside : ∀ n, n ∉ l → s'.nodes n = s.nodes n
  inside : ∀ n, (s'.nodes n).children = (s.nodes n).children ∨ (s'.nodes n).children = []

namespace Dropped

variable {l l' : List Nat} {s s' s'' : State}

theorem refl (l : List Nat) (s : State) : Dropped l s s := ⟨fun _ _ => rfl, fun _ => .inl rfl⟩

theorem trans (h : Dropped l s s') (h' : Dropped l s' s'') : Dropped l s s'' := by
  refine ⟨fun n hn => (h'.outside n hn).trans (h.outside n hn), fun n => ?_⟩
  rcases h'.inside n with h₁ | h₁
  · rw [h₁]
    exact h.inside n
  · exact .inr h₁

theorem mono (h : Dropped l s s') (hl : ∀ n ∈ l, n ∈ l') : Dropped l' s s' :=
  ⟨fun n hn => h.outside n fun hm => hn (hl n hm), h.inside⟩

theorem gone {n : Nat} (h : Dropped l s s') (hn : (s.nodes n).children = []) :
    (s'.nodes n).children = [] := by
  rcases h.inside n with h₁ | h₁
  · rw [h₁, hn]
  · exact h₁

end Dropped

theorem releaseAll_dropped (l : List Nat) (s : State) : Dropped l s (releaseAll l s) := by
  induction l generalizing s with
  | nil => exact .refl [] s
  | cons c cs ih =>
    have hone : Dropped [c] s (nodeRelease c s) := by
      rw [nodeRelease]
      split
      · refine ⟨fun n hn => ?_, fun n => ?_⟩
        · exact Function.update_of_ne (by simpa using hn) _ _
        · by_cases hn : n = c
          · exact .inr (by simp [State.set, hn, blank])
          · exact .inl (by simp [State.set, Function.update_of_ne hn])
      · exact .refl _ s
    exact (hone.mono (by simp)).trans ((ih _).mono fun n hn => List.mem_cons_of_mem c hn)

/-- What `drop_subtree` and its first loop leave of the tree `t`: the answer,
and that something is lost exactly when the pass was not intact. -/
structure Passed (t : Kin) (s : State) (r : Bool × State) : Prop where
  answer : r.1 = !t.held s
  dropped : Dropped t.all s r.2
  same : t.held s = true → t.intact s = true → r.2 = s
  lost : t.held s = true → t.intact s = false →
    ∃ n ∈ t.all, (s.nodes n).children ≠ [] ∧ (r.2.nodes n).children = []

theorem dropSubtree_empty {dir : Nat} {s : State} (levels : Nat)
    (h : (s.nodes dir).children = []) : dropSubtree (levels + 1) dir s = (true, s) := by
  have hset : s.set dir { s.nodes dir with children := [] } = s := by
    rw [State.set, ← h]
    simp
  rw [dropSubtree, h]
  simp only [dropScan, h, releaseAll, hset]

theorem dropSubtree_passed {dir levels : Nat} {s : State} {below : Kin}
    (hpass : Passed below s (dropScan (dropSubtree levels) below.roots s))
    (hdir : (s.nodes dir).children = below.roots) (hout : dir ∉ below.all) :
    (dropSubtree (levels + 1) dir s).1 = !below.held s ∧
    Dropped (dir :: below.all) s (dropSubtree (levels + 1) dir s).2 ∧
    (below.held s = true → below.intact s = true → (dropSubtree (levels + 1) dir s).2 = s) ∧
    (below.held s = true → below.intact s = false →
      ∃ n ∈ below.all, (s.nodes n).children ≠ [] ∧
        ((dropSubtree (levels + 1) dir s).2.nodes n).children = []) ∧
    (below.held s = false → ((dropSubtree (levels + 1) dir s).2.nodes dir).children = []) := by
  rw [dropSubtree, hdir]
  rcases hr : dropScan (dropSubtree levels) below.roots s with ⟨ok, s₁⟩
  rw [hr] at hpass
  obtain ⟨hans, hdrop, hsame, hlost⟩ := hpass
  have hsub : ∀ n ∈ below.all, n ∈ dir :: below.all := fun n hn => List.mem_cons_of_mem dir hn
  cases ok with
  | false =>
    have hheld : below.held s = true := by simpa using hans.symm
    exact ⟨hans, hdrop.mono hsub, hsame, hlost, fun h => absurd (hheld.symm.trans h) (by decide)⟩
  | true =>
    have hfree : below.held s = false := by simpa using hans.symm
    have hno : ∀ {p : Prop}, below.held s = true → p := fun h =>
      absurd (hfree.symm.trans h) (by decide)
    have hdir₁ : (s₁.nodes dir).children = below.roots := by rw [hdrop.outside dir hout, hdir]
    have hrelease := releaseAll_dropped below.roots s₁
    simp only [hdir₁]
    generalize releaseAll below.roots s₁ = s₂ at *
    have hset : Dropped (dir :: below.all) s₂
        (s₂.set dir { s₂.nodes dir with children := [] }) := by
      refine ⟨fun n hn => Function.update_of_ne (fun he => hn (by simp [he])) _ _, fun n => ?_⟩
      by_cases hn : n = dir
      · exact .inr (by simp [State.set, hn])
      · exact .inl (by simp [State.set, Function.update_of_ne hn])
    exact ⟨hans, ((hdrop.mono hsub).trans (hrelease.mono fun n hn =>
      hsub n (below.roots_subset n hn))).trans hset, fun h => hno h, fun h => hno h,
      fun _ => by simp [State.set]⟩

/-- The first loop of `drop_subtree`, by induction on the tree. -/
theorem dropScan_passed (t : Kin) (levels : Nat) (s : State) (hof : t.Of s) (hnodup : t.all.Nodup)
    (hlen : t.all.length ≤ levels) : Passed t s (dropScan (dropSubtree levels) t.roots s) := by
  induction t generalizing levels s with
  | nil => exact ⟨rfl, .refl _ s, fun h => absurd h (by simp [Kin.held]),
      fun h => absurd h (by simp [Kin.held])⟩
  | node n below next ihb ihn =>
    obtain ⟨hkids, hofb, hofn⟩ := hof
    simp only [Kin.all, List.nodup_cons, List.mem_append, not_or] at hnodup
    obtain ⟨⟨hnb, hnn⟩, hnodup⟩ := hnodup
    obtain ⟨hndb, hndn, hapart⟩ := List.nodup_append.mp hnodup
    simp only [Kin.all, List.length_cons, List.length_append] at hlen
    have hnext : ∀ m ∈ next.all, m ∈ (Kin.node n below next).all := fun m hm =>
      List.mem_cons_of_mem n (List.mem_append_right _ hm)
    have hbelow : ∀ m ∈ n :: below.all, m ∈ (Kin.node n below next).all := by
      intro m hm
      rcases List.mem_cons.mp hm with rfl | hm
      · exact List.mem_cons_self
      · exact List.mem_cons_of_mem n (List.mem_append_left _ hm)
    rw [Kin.roots, dropScan]
    by_cases hrefs : (s.nodes n).refs ≠ 0
    · rw [if_pos hrefs]
      have hheld : (Kin.node n below next).held s = true := by simp [Kin.held, hrefs]
      exact ⟨by rw [hheld]; rfl, .refl _ s, fun _ _ => rfl,
        fun _ h => absurd h (by simp [Kin.intact, hrefs])⟩
    rw [if_neg hrefs]
    by_cases hkind : (s.nodes n).kind = .directory
    · rw [if_pos hkind]
      obtain ⟨k, rfl⟩ : ∃ k, levels = k + 1 := ⟨levels - 1, by omega⟩
      obtain ⟨hans, hdrop, hsame, hlost, hgone⟩ :=
        dropSubtree_passed (ihb k s hofb hndb (by omega)) hkids hnb
      have hempty := fun h : (s.nodes n).children = [] => dropSubtree_empty k h
      rcases hd : dropSubtree (k + 1) n s with ⟨ok, s₁⟩
      rw [hd] at hans hdrop hsame hlost hgone
      simp only [hd] at hempty
      have hheldIs : (Kin.node n below next).held s = (below.held s || next.held s) := by
        simp [Kin.held, hrefs, hkind]
      cases ok with
      | false =>
        have hheld : below.held s = true := by simpa using hans.symm
        have hintact : (Kin.node n below next).intact s = below.intact s := by
          simp [Kin.intact, hrefs, hkind, hheld]
        refine ⟨by rw [hheldIs, hheld]; rfl, hdrop.mono hbelow, fun _ hi => hsame hheld (hintact ▸ hi),
          fun _ hi => ?_⟩
        obtain ⟨m, hm, h₁, h₂⟩ := hlost hheld (hintact ▸ hi)
        exact ⟨m, hbelow m (List.mem_cons_of_mem n hm), h₁, h₂⟩
      | true =>
        have hfree : below.held s = false := by simpa using hans.symm
        have hnextSame : ∀ m ∈ next.all, s₁.nodes m = s.nodes m := by
          refine fun m hm => hdrop.outside m fun hmem => ?_
          rcases List.mem_cons.mp hmem with rfl | hmb
          · exact hnn hm
          · exact hapart m hmb m hm rfl
        obtain ⟨hans', hdrop', hsame', hlost'⟩ :=
          ihn (k + 1) s₁ (hofn.congr hnextSame) hndn (by omega)
        rw [Kin.held_congr hnextSame] at hans' hsame' hlost'
        rw [Kin.intact_congr hnextSame] at hsame' hlost'
        have hintact : (Kin.node n below next).intact s =
            (decide ((s.nodes n).children = []) && next.intact s) := by
          simp [Kin.intact, hrefs, hkind, hfree]
        have hall := (hdrop.mono hbelow).trans (hdrop'.mono hnext)
        rw [hfree, Bool.false_or] at hheldIs
        refine ⟨by rw [hheldIs]; exact hans', hall, fun hh hi => ?_, fun hh hi => ?_⟩
        · rw [hintact, Bool.and_eq_true, decide_eq_true_eq] at hi
          have hs₁ : s₁ = s := (Prod.mk.inj (hempty hi.1)).2
          exact (hsame' (hheldIs ▸ hh) hi.2).trans hs₁
        · by_cases hkidsEmpty : (s.nodes n).children = []
          · have hni : next.intact s = false := by simpa [hintact, hkidsEmpty] using hi
            obtain ⟨m, hm, h₁, h₂⟩ := hlost' (hheldIs ▸ hh) hni
            rw [hnextSame m hm] at h₁
            exact ⟨m, hnext m hm, h₁, h₂⟩
          · exact ⟨n, List.mem_cons_self, hkidsEmpty, hdrop'.gone (hgone hfree)⟩
    · rw [if_neg hkind]
      obtain ⟨hans, hdrop, hsame, hlost⟩ := ihn levels s hofn hndn (by omega)
      have hheldIs : (Kin.node n below next).held s = next.held s := by
        simp [Kin.held, hrefs, hkind]
      have hintact : (Kin.node n below next).intact s = next.intact s := by
        simp [Kin.intact, hrefs, hkind]
      refine ⟨by rw [hheldIs]; exact hans, hdrop.mono hnext, fun hh hi => ?_, fun hh hi => ?_⟩
      · exact hsame (hheldIs ▸ hh) (hintact ▸ hi)
      · obtain ⟨m, hm, h₁, h₂⟩ := hlost (hheldIs ▸ hh) (hintact ▸ hi)
        exact ⟨m, hnext m hm, h₁, h₂⟩

/-! ## The call -/

/-- The cached nodes below the mount point are the tree `t`: each once, none of
them the mount point, and all of them of the pool. -/
structure CachedTree (s : State) (t : Kin) : Prop where
  root : (s.nodes s.root).children = t.roots
  of : t.Of s
  nodup : t.all.Nodup
  apart : s.root ∉ t.all
  pool : ∀ n ∈ s.root :: t.all, n < VFS_MAX_BLOCKS * VFS_NODES_PER_BLOCK

/-- The lists of children and the populated flags are the same. -/
def SameTree (s s' : State) : Prop :=
  ∀ n, (s'.nodes n).children = (s.nodes n).children ∧
    (s'.nodes n).populated = (s.nodes n).populated

theorem CachedTree.length_lt {s : State} {t : Kin} (h : CachedTree s t) :
    t.all.length < VFS_MAX_BLOCKS * VFS_NODES_PER_BLOCK := by
  have hsub : s.root :: t.all ⊆ List.range (VFS_MAX_BLOCKS * VFS_NODES_PER_BLOCK) :=
    fun n hn => List.mem_range.mpr (h.pool n hn)
  have hle := ((List.nodup_cons.mpr ⟨h.apart, h.nodup⟩).subperm hsub).length_le
  rw [List.length_range, List.length_cons] at hle
  exact hle

/-- An unmount that is refused leaves the cached tree as it was exactly when
the mount point itself is held, or nothing is, or every directory that
`drop_subtree` is done with before it meets a reference had no children. -/
theorem refused_unmount (k : Kernel) (parent : Nat) (t : Kin) (hmounted : k.mounted = true)
    (ht : CachedTree k.state t) :
    ((fat32Unmount k parent).1 = .error EBUSY → SameTree k.state (fat32Unmount k parent).2.state) ↔
    ((k.state.nodes k.state.root).refs ≠ 0 ∨ t.held k.state = false ∨ t.intact k.state = true) := by
  rw [fat32Unmount, if_neg (by simp [hmounted])]
  by_cases hroot : (k.state.nodes k.state.root).refs ≠ 0
  · rw [if_pos hroot]
    exact ⟨fun _ => .inl hroot, fun _ _ _ => ⟨rfl, rfl⟩⟩
  rw [if_neg hroot]
  have hlevels : VFS_MAX_BLOCKS * VFS_NODES_PER_BLOCK = 8191 + 1 := rfl
  have hlt := ht.length_lt
  have hscan := dropScan_passed t 8191 k.state ht.of ht.nodup (by omega)
  obtain ⟨hans, -, hsame, hlost, -⟩ := dropSubtree_passed hscan ht.root ht.apart
  rw [hlevels]
  rcases hd : dropSubtree (8191 + 1) k.state.root k.state with ⟨ok, s₁⟩
  rw [hd] at hans hsame hlost
  simp only at hans hsame hlost
  cases ok with
  | true =>
    have hfree : t.held k.state = false := by simpa using hans.symm
    exact ⟨fun _ => .inr (.inl hfree), fun _ h => absurd h (by simp)⟩
  | false =>
    have hheld : t.held k.state = true := by simpa using hans.symm
    simp only [forall_const]
    constructor
    · intro hkept
      cases hi : t.intact k.state with
      | true => exact .inr (.inr rfl)
      | false =>
        obtain ⟨n, -, hne, hgone⟩ := hlost hheld hi
        exact absurd ((hkept n).1.symm.trans hgone) hne
    · rintro (h | h | h) n
      · exact absurd h hroot
      · exact absurd (hheld.symm.trans h) (by decide)
      · rw [hsame hheld h]
        exact ⟨rfl, rfl⟩

/-- The mount point with a directory that has a file, and a file that somebody
has open. -/
def busyState : State where
  nodes n :=
    if n = 0 then { blank with inUse := true, kind := .directory, populated := true, children := [1, 3] }
    else if n = 1 then
      { blank with inUse := true, kind := .directory, populated := true, children := [2] }
    else if n = 2 then { blank with inUse := true }
    else if n = 3 then { blank with inUse := true, refs := 1 }
    else blank
  freeList := []
  blocks := 1
  grants := []
  root := 0
  fs := smallFs

def busyKernel : Kernel := ⟨smallVol, 0, true, busyState⟩

def busyTree : Kin := .node 1 (.node 2 .nil .nil) (.node 3 .nil .nil)

/-- The open file comes last: the directory before it was emptied. -/
theorem refused_unmount_changes :
    (fat32Unmount busyKernel 9).1 = .error EBUSY ∧
    ¬ SameTree busyState (fat32Unmount busyKernel 9).2.state := by
  have hres : (match (fat32Unmount busyKernel 9).1 with
      | .ok _ => false
      | .error e => decide (e = EBUSY)) = true := by decide
  have hgone : ((fat32Unmount busyKernel 9).2.state.nodes 1).children = [] := by decide
  refine ⟨?_, fun h => ?_⟩
  · rcases heq : (fat32Unmount busyKernel 9).1 with e | u
    · rw [heq] at hres
      exact congrArg _ (by simpa using hres)
    · rw [heq] at hres
      exact absurd hres (by simp)
  · exact absurd ((h 1).1.symm.trans hgone) (by decide)

/-- The mount point is held; and a file in the first directory is: then
`drop_subtree` is done with no directory before it meets it. -/
theorem refused_unmount_held :
    let held := fun n => { busyKernel with
      state := busyState.set n { busyState.nodes n with refs := 1 } }
    SameTree (held 0).state (fat32Unmount (held 0) 9).2.state ∧
      SameTree (held 2).state (fat32Unmount (held 2) 9).2.state := by
  intro held
  have hcached : ∀ n ∈ [0, 2], CachedTree (held n).state busyTree := by
    simp only [List.forall_mem_cons, List.not_mem_nil, false_implies, implies_true, and_true]
    constructor <;>
      exact ⟨rfl, by simp [held, busyTree, Kin.Of, Kin.roots, busyState, blank, State.set],
        by decide, by decide, by decide⟩
  have hbusy : ∀ n ∈ [0, 2], (match (fat32Unmount (held n) 9).1 with
      | .ok _ => false
      | .error e => decide (e = EBUSY)) = true := by decide
  have hanswer : ∀ n ∈ [0, 2], (fat32Unmount (held n) 9).1 = .error EBUSY := by
    intro n hn
    have := hbusy n hn
    cases heq : (fat32Unmount (held n) 9).1 with
    | ok => simp [heq] at this
    | error e => simpa [heq] using this
  exact ⟨(refused_unmount _ 9 busyTree rfl (hcached 0 (by simp))).mpr (.inl (by decide)) (hanswer 0 (by simp)),
    (refused_unmount _ 9 busyTree rfl (hcached 2 (by simp))).mpr (.inr (.inr (by decide))) (hanswer 2 (by simp))⟩

end NovarisOS.Fat32
