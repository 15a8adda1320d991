/-
NovarisOS.Vfs32.TreeTheorems — when the nodes are a tree.

`IsTree` says it in the fields of the nodes: a node that is in use and was not
unlinked is on the list of the directory that is its parent and on it once,
parents lead to the root, and the names on a list are distinct and are names.
`Kept` says that a node with references is the node they were taken on.

The calls do not keep it.
-/
import Mathlib.Data.List.TakeWhile
import NovarisOS.Lib.Forest
import NovarisOS.Vfs32.Wiring

namespace NovarisOS.Vfs32

open Function (update)

/-- What a name in a directory may be. -/
structure ProperName (name : List UInt8) : Prop where
  ne_nil : name ≠ []
  no_slash : SLASH ∉ name
  ne_dot : name ≠ DOT
  ne_dotdot : name ≠ DOTDOT

instance (name : List UInt8) : Decidable (ProperName name) :=
  decidable_of_iff (name ≠ [] ∧ SLASH ∉ name ∧ name ≠ DOT ∧ name ≠ DOTDOT)
    ⟨fun ⟨h, h', h'', h'''⟩ => ⟨h, h', h'', h'''⟩, fun ⟨h, h', h'', h'''⟩ => ⟨h, h', h'', h'''⟩⟩

/-- A node with a name: in use and not unlinked. -/
def Vfs.Live (fs : Vfs) (i : Nat) : Prop := (fs.nodes i).in_use = true ∧ (fs.nodes i).unlinked = false

/-- The nodes are a tree. -/
structure IsTree (fs : Vfs) : Prop where
  home : ∀ i, fs.Live i → fs.root ≠ some i → ∃ p l, fs.parent i = some p ∧ (fs.nodes p).in_use = true ∧
    (fs.nodes p).kind = .directory ∧ Links fs.next (fs.nodes p).first_child l ∧ l.count i = 1
  rooted : ∀ i, fs.Live i → ∃ root, fs.root = some root ∧ Forest.ToRoot root fs.parent i
  siblings : ∀ p, (fs.nodes p).in_use = true → ∃ l, Links fs.next (fs.nodes p).first_child l ∧
    (∀ c ∈ l, fs.Live c ∧ fs.parent c = some p) ∧ (l.map fun c => (fs.nodes c).name).Nodup ∧
    ∀ c ∈ l, ProperName (fs.nodes c).name

/-- A node with references is the node they were taken on. -/
def Kept (k : State) : Prop :=
  ∀ i, 0 < k.held i → (k.fs.nodes i).in_use = true ∧ (k.fs.nodes i).refs = k.held i

/-! ## When a call keeps it -/

/-- A node stored under `name` may be made in `dir`. -/
def Fits (fs : Vfs) (dir : Nat) (name : List UInt8) : Prop :=
  ProperName name ∧ ramfs_finddir fs dir name = none

/-- The call makes no node, or one whose stored name fits; it moves none, or one
to a place not below it and under a proper name. A reference is taken on a node
in use and given back once. -/
def Condition (k : State) : Act → Prop
  | .rename oldpath newpath => ∀ olddir oldleaf newdir newleaf moving,
      vfs_resolve_parent k.fs (cstr oldpath) = some (olddir, oldleaf) →
      vfs_resolve_parent k.fs (cstr newpath) = some (newdir, newleaf) →
      ramfs_finddir k.fs olddir (stored oldleaf) = some moving →
      ramfs_finddir k.fs newdir (stored newleaf) ≠ some moving →
      (∀ v, ramfs_finddir k.fs newdir (stored newleaf) = some v → (k.fs.nodes v).kind ≠ .directory) →
      ProperName (stored newleaf) ∧ ¬ Forest.Above k.fs.parent moving newdir
  | .create path _ heap => ∀ dir leaf, vfs_resolve_parent k.fs (cstr path) = some (dir, leaf) →
      ramfs_finddir k.fs dir leaf = none → vfs_node_alloc heap k.fs ≠ none → Fits k.fs dir (stored leaf)
  | .symlink path target heap _ => ∀ dir leaf, vfs_resolve_parent k.fs (cstr path) = some (dir, leaf) →
      cstr target ≠ [] → (cstr target).length < VFS_SYMLINK_MAX →
      ramfs_finddir k.fs dir leaf = none → vfs_node_alloc heap k.fs ≠ none → Fits k.fs dir (stored leaf)
  | .unlink _ _ => True
  | .ref n => (k.fs.nodes n).in_use = true ∧ k.held n + 1 < 2147483648
  | .unref n => 0 < k.held n

/-- No component of a path in the archive is "." or "..". -/
def PlainArchive (archive : List (List UInt8)) : Prop :=
  ∀ entry ∈ archive, ∀ comp ∈ (entry_name entry).splitOn SLASH, comp ≠ DOT ∧ comp ≠ DOTDOT

/-! ## The invariant -/

structure Shaped (root : Nat) (fs : Vfs) (kids : Nat → List Nat) : Prop where
  tree : Forest.IsTree root fs.Live fs.parent kids
  root_eq : fs.root = some root
  root_dir : (fs.nodes root).kind = .directory
  dirs : ∀ p, ∀ c ∈ kids p, (fs.nodes p).kind = .directory
  distinct : ∀ p, ∀ a ∈ kids p, ∀ b ∈ kids p, (fs.nodes a).name = (fs.nodes b).name → a = b
  proper : ∀ p, ∀ c ∈ kids p, ProperName (fs.nodes c).name

/-- The counts of the nodes are the references held, and an unlinked node in use
is one that is held. -/
def Counted (fs : Vfs) (held : Nat → Nat) : Prop :=
  ∀ i, (held i < 2147483648) ∧
    if (fs.nodes i).in_use then (fs.nodes i).refs = held i ∧ ((fs.nodes i).unlinked = true → 0 < held i) else held i = 0

/-- The lists, the tree and the counts. -/
def Inv (root : Nat) (fs : Vfs) (held : Nat → Nat) : Prop :=
  ∃ kids free, Wired fs kids free ∧ Shaped root fs kids ∧ Counted fs held

section

variable {root : Nat} {fs fs' : Vfs} {kids kids' : Nat → List Nat} {free : List Nat} {held : Nat → Nat}

theorem Inv.isTree (h : Inv root fs held) : IsTree fs := by
  obtain ⟨kids, free, w, s, -⟩ := h
  refine ⟨?_, fun i hi => ⟨root, s.root_eq, s.tree.rooted i hi⟩, ?_⟩
  · intro i hi hne
    obtain ⟨p, hp, hlive, hkid⟩ := s.tree.has_parent hi fun he => hne (he ▸ s.root_eq)
    exact ⟨p, kids p, hp, hlive.1, s.dirs p i hkid, w.links p hlive.1, List.count_eq_one_of_mem (s.tree.nodup p) hkid⟩
  · exact fun p hp => ⟨kids p, w.links p hp, fun c hc => (s.tree.kid p c).mp hc,
      (s.tree.nodup p).map_on (s.distinct p), s.proper p⟩

theorem Inv.kept {k : State} (h : Inv root k.fs k.held) : Kept k := by
  obtain ⟨_, _, _, _, hc⟩ := h
  intro i hi
  have hi' := (hc i).2
  split at hi'
  · next hused => exact ⟨hused, hi'.1⟩
  · omega

/-- A directory that is part of the tree. -/
def Vfs.Dir (fs : Vfs) (i : Nat) : Prop := fs.Live i ∧ (fs.nodes i).kind = .directory

namespace Shaped

variable {path name : List UInt8} {dir : Nat} (w : Wired fs kids free) (s : Shaped root fs kids)
include w s

omit s in
theorem finddir_some {c : Nat} (hdir : fs.Live dir) (h : ramfs_finddir fs dir name = some c) :
    c ∈ kids dir ∧ (fs.nodes c).name = name := by
  rw [w.finddir_eq hdir.1] at h
  exact ⟨List.mem_of_find?_eq_some h, by simpa using List.find?_some h⟩

omit s in
theorem finddir_none {c : Nat} (hdir : fs.Live dir) (h : ramfs_finddir fs dir name = none)
    (hc : c ∈ kids dir) : (fs.nodes c).name ≠ name := by
  rw [w.finddir_eq hdir.1, List.find?_eq_none] at h
  simpa using h c hc

theorem finddir_live {c : Nat} (hdir : fs.Live dir) (h : vfs_finddir fs dir name = some c) :
    fs.Live c := by
  unfold vfs_finddir at h
  split at h
  · exact ((s.tree.kid dir c).mp (finddir_some w hdir h).1).1
  · cases h

/-! ## Where a path leads -/

theorem components_live {follow : Nat → Option Nat} (hfollow : ∀ i j, fs.Live i → follow i = some j → fs.Live j)
    {leaf_out follow_final : Bool} {fuel cur : Nat} {n : Nat} {leaf : Option (List UInt8)}
    (hcur : fs.Live cur) (h : components fs follow leaf_out follow_final fuel cur path = some
      (n, leaf)) : fs.Live n := by
  induction fuel generalizing cur path with
  | zero => cases h
  | succ fuel ih =>
    rw [components] at h
    dsimp only at h
    split at h
    · cases h
      exact hcur
    · split at h
      · cases h
        exact hcur
      · split at h
        · cases h
        · split at h
          · cases h
          · next next hnext =>
            have hlive : fs.Live next := by
              obtain ⟨i, hi, hfin⟩ := Option.bind_eq_some_iff.mp hnext
              have hli : fs.Live i := by
                split at hi
                · cases hi
                  exact hcur
                · split at hi
                  · cases hi
                    cases hp : fs.parent cur with
                    | none => exact hcur
                    | some p => exact s.tree.owner cur p hcur hp
                  · exact finddir_live w s hcur hi
              split at hfin
              · exact hfollow i next hli hfin
              · cases hfin
                exact hli
            split at h
            · cases h
              exact hlive
            · split at h
              · exact ih hlive h
              · cases h

theorem walk_live {links start : Nat} {leaf_out follow_final : Bool} {n : Nat}
    {leaf : Option (List UInt8)} (hstart : fs.Live start)
    (h : walk_from fs links start path leaf_out follow_final = some (n, leaf)) : fs.Live n := by
  induction links generalizing start path leaf_out follow_final n leaf with
  | zero =>
    rw [walk_from] at h
    split at h
    · cases h
    · next cur hcur =>
      refine components_live w s (fun _ _ _ h => by cases h) ?_ h
      split at hcur
      · exact Option.some.inj (s.root_eq.symm.trans hcur) ▸ s.tree.root_live
      · cases hcur
        exact hstart
  | succ links ih =>
    rw [walk_from] at h
    split at h
    · cases h
    · next cur hcur =>
      refine components_live w s ?_ ?_ h
      · intro i j hi hj
        unfold follow_link at hj
        dsimp only at hj
        split at hj
        · cases hj
        · split at hj
          · cases hj
          · next base hbase =>
            obtain ⟨⟨m, l⟩, hwalk, rfl⟩ := Option.map_eq_some_iff.mp hj
            refine ih ?_ hwalk
            split at hbase
            · exact Option.some.inj (s.root_eq.symm.trans hbase) ▸ s.tree.root_live
            · exact s.tree.owner i base hi hbase
      · split at hcur
        · exact Option.some.inj (s.root_eq.symm.trans hcur) ▸ s.tree.root_live
        · cases hcur
          exact hstart

theorem resolve_dir {leaf : List UInt8} (h : vfs_resolve_parent fs path = some (dir, leaf)) : fs.Dir dir := by
  unfold vfs_resolve_parent at h
  rw [s.root_eq] at h
  dsimp only at h
  split at h
  · next d l hwalk =>
    split at h
    · next hkind =>
      cases h
      exact ⟨walk_live w s s.tree.root_live hwalk, hkind⟩
    · cases h
  · cases h

end Shaped

/-! ## What stays when nothing moves -/

theorem Shaped.congr (s : Shaped root fs kids) (hroot : fs'.root = fs.root) (hlive : ∀ j, fs'.Live j ↔ fs.Live j)
    (hsame : ∀ j, fs.Live j → fs'.parent j = fs.parent j ∧ (fs'.nodes j).kind = (fs.nodes j).kind ∧
      (fs'.nodes j).name = (fs.nodes j).name) : Shaped root fs' kids where
  tree := s.tree.congr hlive fun j hj => (hsame j hj).1
  root_eq := hroot.trans s.root_eq
  root_dir := (hsame root s.tree.root_live).2.1.trans s.root_dir
  dirs p c hc := by
    obtain ⟨hlc, hpc⟩ := (s.tree.kid p c).mp hc
    exact (hsame p (s.tree.owner c p hlc hpc)).2.1.trans (s.dirs p c hc)
  distinct p a ha b hb := by
    rw [(hsame a ((s.tree.kid p a).mp ha).1).2.2, (hsame b ((s.tree.kid p b).mp hb).1).2.2]
    exact s.distinct p a ha b hb
  proper p c hc := by
    rw [(hsame c ((s.tree.kid p c).mp hc).1).2.2]
    exact s.proper p c hc

theorem Counted.congr (h : Counted fs held) (hsame : ∀ j, (fs'.nodes j).in_use = (fs.nodes j).in_use ∧
    ((fs.nodes j).in_use = true → (fs'.nodes j).refs = (fs.nodes j).refs ∧
      (fs'.nodes j).unlinked = (fs.nodes j).unlinked)) :
    Counted fs' held := by
  intro i
  obtain ⟨hbound, hi⟩ := h i
  obtain ⟨hused, hrest⟩ := hsame i
  refine ⟨hbound, ?_⟩
  rw [hused]
  split at hi
  · next hu =>
    obtain ⟨hrefs, hunlinked⟩ := hrest hu
    rw [hrefs, hunlinked, if_pos hu]
    exact hi
  · next hu =>
    rw [if_neg hu]
    exact hi

theorem SameNodes.counted (h : SameNodes fs fs') (hc : Counted fs held) : Counted fs' held :=
  hc.congr fun j => ⟨h.in_use j, fun _ => ⟨h.refs j, h.unlinked j⟩⟩

theorem SameNodes.live (h : SameNodes fs fs') (j : Nat) : fs'.Live j ↔ fs.Live j := by
  unfold Vfs.Live
  rw [h.in_use, h.unlinked]

/-! ## Making a node -/

/-- What a call that made node `n` leaves. -/
structure Made (root : Nat) (held : Nat → Nat) (flags : Kind) (fs : Vfs) (n : Nat) (fs' : Vfs) : Prop where
  inv : Inv root fs' held
  live : fs'.Live n
  kind : (fs'.nodes n).kind = flags
  dirs : ∀ j, fs.Dir j → fs'.Dir j

variable {name : List UInt8} {heap : Nat → Bool} {dir n newdir olddir moving : Nat} {victim : Option Nat} {k : State}

theorem Inv.make {flags : Kind} (h : Inv root fs held) (hdir : fs.Dir dir)
    (hfits : Fits fs dir (stored name)) (hmake : ramfs_create heap fs dir name flags = some (n, fs')) :
    Made root held flags fs n fs' := by
  obtain ⟨kids, free, w, s, hc⟩ := h
  obtain ⟨hname, hnone⟩ := hfits
  unfold ramfs_create at hmake
  split at hmake
  · cases hmake
  · next m fs₁ halloc =>
    cases hmake
    obtain ⟨⟨free₁, w₁⟩, ht⟩ := w.alloc halloc
    set nd : Node := { fs₁.nodes n with name := stored name, kind := flags } with hnd
    have w₂ : Wired (fs₁.set n nd) kids free₁ := w₁.set_plain rfl rfl rfl rfl
    have hne : ∀ j, (fs.nodes j).in_use = true → j ≠ n := fun j hj he => by
      rw [he, ht.unused] at hj
      cases hj
    have hnode : (fs₁.set n nd).nodes n = { blank with in_use := true, name := stored name, kind := flags } := by
      simp [hnd, ht.fresh]
    have hother : ∀ j, (fs.nodes j).in_use = true → (fs₁.set n nd).nodes j = fs.nodes j := fun j hj => by
      rw [Vfs.nodes_set, if_neg (hne j hj), ht.used j hj]
    have hused : ∀ j, j ≠ n → ((fs₁.set n nd).nodes j).in_use = (fs.nodes j).in_use := fun j hj => by
      rw [Vfs.nodes_set, if_neg hj, ht.in_use j hj]
    have hroot : (fs₁.set n nd).root = fs.root := ht.root
    have hfresh : ∀ p, n ∉ kids p := w.not_kid ht.unused
    -- from here on the node is known by these facts only
    clear_value nd
    generalize fs₁.set n nd = fs₂ at *
    obtain ⟨w₃, hsame, hparent⟩ := w₂.append dir n (by rw [hother dir hdir.1.1]; exact hdir.1.1)
      (by rw [hnode]) hfresh
    generalize vfs_dir_append fs₂ dir n = fs₃ at *
    have hlive₂ : ∀ j, fs₂.Live j ↔ fs.Live j ∨ j = n := fun j => by
      by_cases hj : j = n
      · subst hj
        simp [Vfs.Live, hnode, blank]
      · cases hu : (fs.nodes j).in_use with
        | false => simp [Vfs.Live, hused j hj, hu, hj]
        | true => simp [Vfs.Live, hother j hu, hj]
    have hlive : ∀ j, fs₃.Live j ↔ fs.Live j ∨ j = n := fun j => (hsame.live j).trans (hlive₂ j)
    have hnot : ¬ fs.Live n := fun hn => hne n hn.1 rfl
    have hkind : ∀ j, fs.Live j → (fs₃.nodes j).kind = (fs.nodes j).kind := fun j hj => by
      rw [hsame.kind, hother j hj.1]
    have hnames : ∀ j, fs.Live j → (fs₃.nodes j).name = (fs.nodes j).name := fun j hj => by
      rw [hsame.name, hother j hj.1]
    have hnamen : (fs₃.nodes n).name = stored name := by rw [hsame.name, hnode]
    have hdirs : ∀ j, fs.Dir j → fs₃.Dir j := fun j hj => ⟨(hlive j).mpr (.inl hj.1), (hkind j hj.1).trans hj.2⟩
    have hmem : ∀ q c, c ∈ update kids dir (kids dir ++ [n]) q ↔ c ∈ kids q ∨ c = n ∧ q = dir := by
      intro q c
      by_cases hq : q = dir
      · subst hq
        simp
      · simp [hq]
    have hlk : ∀ p c, c ∈ kids p → fs.Live c := fun p c hck => ((s.tree.kid p c).mp hck).1
    refine ⟨⟨_, free₁, w₃, ⟨?_, ?_, ?_, ?_, ?_, ?_⟩, ?_⟩, (hlive n).mpr (.inr rfl), by rw [hsame.kind, hnode], hdirs⟩
    · refine s.tree.add hnot hdir.1 hlive ((hparent n).trans (if_pos rfl)) (fun j hj => ?_) hmem w₃.nodup
      rw [hparent, if_neg (hne j hj.1), Vfs.parent, hother j hj.1]
      rfl
    · rw [hsame.root]
      exact hroot.trans s.root_eq
    · exact (hdirs root ⟨s.tree.root_live, s.root_dir⟩).2
    · intro p c hcp
      rcases (hmem p c).mp hcp with hcp | ⟨_, rfl⟩
      · obtain ⟨hlc, hpc⟩ := (s.tree.kid p c).mp hcp
        exact (hdirs p ⟨s.tree.owner c p hlc hpc, s.dirs p c hcp⟩).2
      · exact (hdirs p hdir).2
    · intro p a ha b hb
      rcases (hmem p a).mp ha with hka | ⟨rfl, hpa⟩ <;> rcases (hmem p b).mp hb with hkb | ⟨rfl, hpb⟩
      · rw [hnames a (hlk p a hka), hnames b (hlk p b hkb)]
        exact s.distinct p a hka b hkb
      · rw [hnames a (hlk p a hka), hnamen]
        exact fun he => absurd he (Shaped.finddir_none w hdir.1 hnone (hpb ▸ hka))
      · rw [hnames b (hlk p b hkb), hnamen]
        exact fun he => absurd he.symm (Shaped.finddir_none w hdir.1 hnone (hpa ▸ hkb))
      · exact fun _ => rfl
    · intro p c hcp
      rcases (hmem p c).mp hcp with hcp | ⟨rfl, _⟩
      · rw [hnames c (hlk p c hcp)]
        exact s.proper p c hcp
      · rw [hnamen]
        exact hname
    · refine hsame.counted fun i => ?_
      obtain ⟨hbound, hi⟩ := hc i
      refine ⟨hbound, ?_⟩
      by_cases hin : i = n
      · subst hin
        rw [if_neg (by simp [ht.unused])] at hi
        rw [hnode]
        simp [blank, hi]
      · rw [hused i hin]
        split at hi
        · next hu =>
          rw [if_pos hu, hother i hu]
          exact hi
        · next hu =>
          rw [if_neg hu]
          exact hi

theorem Inv.create {flags : Kind} (h : Inv root fs held) (hdir : fs.Dir dir)
    (hfits : ramfs_finddir fs dir name = none → vfs_node_alloc heap fs ≠ none → Fits fs dir (stored name))
    (hcreate : vfs_create heap fs dir name flags = some (n, fs')) : Made root held flags fs n fs' := by
  unfold vfs_create at hcreate
  rw [if_pos hdir.2] at hcreate
  split at hcreate
  · cases hcreate
  · split at hcreate
    · cases hcreate
    · next hnone =>
      unfold vfs_finddir at hnone
      rw [if_pos hdir.2] at hnone
      exact h.make hdir (hfits hnone fun he => by simp [ramfs_create, he] at hcreate) hcreate

/-! ## Taking a node away -/

/-- What is left of the other nodes once `gone` is no longer one of them. -/
structure Others (fs fs' : Vfs) (gone : Nat → Prop) : Prop where
  plain : ∀ j, ¬ gone j → (fs'.nodes j).plain = (fs.nodes j).plain
  parent : ∀ j, ¬ gone j → fs'.parent j = fs.parent j
  live : ∀ j, fs'.Live j ↔ fs.Live j ∧ ¬ gone j
  root : fs'.root = fs.root

/-- A node with no children is taken off its list, and given back if nobody has it
open. -/
theorem Wired.unlink {victim : Nat} (w : Wired fs kids free) (hc : Counted fs held) (hv : victim ∈ kids dir)
    (hleaf : kids victim = []) :
    (∃ free', Wired (unlink_victim fs dir victim) (update kids dir ((kids dir).erase victim)) free') ∧
      Counted (unlink_victim fs dir victim) held ∧ Others fs (unlink_victim fs dir victim) (· = victim) := by
  obtain ⟨hused, _, hdir⟩ := w.kid dir victim hv
  obtain ⟨w₁, hsame, hparent⟩ := w.remove hv
  have hc₁ := hsame.counted hc
  unfold unlink_victim
  dsimp only
  generalize vfs_dir_remove fs dir victim = fs₁ at *
  set nd : Node := { fs₁.nodes victim with unlinked := true } with hnd
  have w₂ : Wired (fs₁.set victim nd) (update kids dir ((kids dir).erase victim)) free := w₁.set_plain rfl rfl rfl rfl
  have hother : ∀ j, j ≠ victim → (fs₁.set victim nd).nodes j = fs₁.nodes j := fun j hj => by simp [hj]
  have hplain : ∀ j, j ≠ victim → ((fs₁.set victim nd).nodes j).plain = (fs.nodes j).plain := fun j hj => by
    rw [hother j hj]
    exact hsame.plain j
  have hup : ∀ j, j ≠ victim → (fs₁.set victim nd).parent j = fs.parent j := fun j hj => by
    rw [Vfs.parent, hother j hj]
    exact (hparent j).trans (if_neg hj)
  have hused₂ : ((fs₁.set victim nd).nodes victim).in_use = true := by
    rw [Vfs.nodes_set, if_pos rfl]
    exact (hsame.in_use victim).trans hused
  -- whatever happens to the victim, the others are as they were
  have key : ∀ fs₃ : Vfs, (∀ j, j ≠ victim → fs₃.nodes j = (fs₁.set victim nd).nodes j) → ¬ fs₃.Live victim →
      fs₃.root = fs₁.root → Others fs fs₃ (· = victim) := by
    intro fs₃ hnodes hdead hroot
    refine ⟨fun j hj => by rw [hnodes j hj]; exact hplain j hj, fun j hj => ?_, fun j => ?_, hroot.trans hsame.root⟩
    · rw [← hup j hj, Vfs.parent, hnodes j hj]
      rfl
    · by_cases hj : j = victim
      · subst hj
        simp [hdead]
      · rw [← hsame.live j]
        simp [Vfs.Live, hnodes j hj, hj]
  have hcv := (hc₁ victim).2
  rw [if_pos ((hsame.in_use victim).trans hused)] at hcv
  split
  · next hrefs =>
    have hzero : held victim = 0 := by
      have : (fs₁.nodes victim).refs = 0 := by simpa [hnd] using hrefs
      omega
    have hmem := w.mem_erase hv
    have hkids₂ : ∀ p, victim ∉ update kids dir ((kids dir).erase victim) p := fun p hp => ((hmem p victim).mp hp).2 rfl
    have hnil : update kids dir ((kids dir).erase victim) victim = [] :=
        List.eq_nil_iff_forall_not_mem.mpr fun c hcv => by
      have hck := ((hmem victim c).mp hcv).1
      rw [hleaf] at hck
      exact absurd hck List.not_mem_nil
    obtain ⟨hw, hfree, hnodes, hroot⟩ := w₂.release hused₂ hkids₂ hnil
    refine ⟨hw, fun i => ?_, key _ hnodes (fun hl => by simp [Vfs.Live, hfree] at hl) hroot⟩
    obtain ⟨hbound, hi⟩ := hc₁ i
    refine ⟨hbound, ?_⟩
    by_cases hiv : i = victim
    · subst hiv
      simp [hfree, hzero]
    · rw [hnodes i hiv, hother i hiv]
      exact hi
  · next hrefs =>
    have hne : (fs₁.nodes victim).refs ≠ 0 := by simpa [hnd] using hrefs
    refine ⟨⟨free, w₂⟩, fun i => ?_, key _ (fun _ _ => rfl) (fun hl => by simp [Vfs.Live, hnd] at hl) rfl⟩
    obtain ⟨hbound, hi⟩ := hc₁ i
    refine ⟨hbound, ?_⟩
    by_cases hiv : i = victim
    · subst hiv
      rw [if_pos hused₂]
      refine ⟨by simpa [hnd] using hcv.1, fun _ => ?_⟩
      omega
    · rw [hother i hiv]
      exact hi

theorem Shaped.without {victim : Nat} {free' : List Nat} (w : Wired fs kids free)
    (s : Shaped root fs kids) (hv : victim ∈ kids dir) (hleaf : kids victim = [])
    (w' : Wired fs' (update kids dir ((kids dir).erase victim)) free') (ho : Others fs fs' (· = victim)) :
    Shaped root fs' (update kids dir ((kids dir).erase victim)) := by
  have hmem := w.mem_erase hv
  have hname : ∀ j, j ≠ victim → (fs'.nodes j).name = (fs.nodes j).name :=
      fun j hj => (congrArg Node.name (ho.plain j hj) :)
  have hkind : ∀ j, j ≠ victim → (fs'.nodes j).kind = (fs.nodes j).kind :=
      fun j hj => (congrArg Node.kind (ho.plain j hj) :)
  have hroot : victim ≠ root := s.tree.kid_ne_root hv
  refine ⟨s.tree.remove hroot hleaf ho.live (fun j _ hj => ho.parent j hj) hmem w'.nodup,
      ho.root.trans s.root_eq, ?_, ?_, ?_, ?_⟩
  · exact (hkind root hroot.symm).trans s.root_dir
  · intro p c hc
    obtain ⟨hck, _⟩ := (hmem p c).mp hc
    rw [hkind p]
    · exact s.dirs p c hck
    · rintro rfl
      rw [hleaf] at hck
      exact absurd hck List.not_mem_nil
  · intro p a ha b hb
    obtain ⟨hak, hav⟩ := (hmem p a).mp ha
    obtain ⟨hbk, hbv⟩ := (hmem p b).mp hb
    rw [hname a hav, hname b hbv]
    exact s.distinct p a hak b hbk
  · intro p c hc
    obtain ⟨hck, hcv⟩ := (hmem p c).mp hc
    rw [hname c hcv]
    exact s.proper p c hck

theorem Shaped.kids_of_file (s : Shaped root fs kids) {i : Nat}
    (hi : (fs.nodes i).kind ≠ .directory) : kids i = [] := by
  cases hk : kids i with
  | nil => rfl
  | cons c cs => exact absurd (s.dirs i c (hk ▸ List.mem_cons_self)) hi

theorem Inv.unlink {want_dir : Bool} (h : Inv root fs held) (hdir : fs.Dir dir) :
    Inv root (vfs_unlink fs dir name want_dir).2 held := by
  unfold vfs_unlink
  rw [if_pos hdir.2]
  split
  · exact h
  · unfold ramfs_unlink
    split
    · exact h
    · next victim hfind =>
      dsimp only
      split
      · exact h
      · split
        · exact h
        · split
          · exact h
          · next hempty =>
            obtain ⟨kids, free, w, s, hc⟩ := h
            obtain ⟨hv, _⟩ := Shaped.finddir_some w hdir.1 hfind
            have hleaf : kids victim = [] := by
              by_cases hk : (fs.nodes victim).kind = .directory
              · exact w.kids_nil (w.kid dir victim hv).1 (by simpa [hk] using hempty)
              · exact s.kids_of_file hk
            obtain ⟨⟨free', w'⟩, hc', ho⟩ := w.unlink hc hv hleaf
            exact ⟨_, free', w', s.without w hv hleaf w' ho, hc'⟩

/-! ## References -/

theorem Inv.ref (h : Inv root fs held) (hn : (fs.nodes n).in_use = true) (hlimit : held n + 1 < 2147483648) :
    Inv root (vfs_node_ref fs n) fun j => if j = n then held n + 1 else held j := by
  obtain ⟨kids, free, w, s, hc⟩ := h
  obtain ⟨_, hcn⟩ := hc n
  rw [if_pos hn] at hcn
  have hrefs : ((fs.nodes n).refs + 1).bmod 4294967296 = (held n + 1 : Nat) := by
    rw [hcn.1, Int.bmod_def]
    omega
  unfold vfs_node_ref
  refine ⟨kids, free, w.set_plain rfl rfl rfl rfl, s.congr rfl (fun j => ?_) (fun j _ => ?_), fun i => ?_⟩
  · by_cases hj : j = n <;> simp [Vfs.Live, hj]
  · by_cases hj : j = n <;> simp [Vfs.parent, hj]
  · by_cases hi : i = n
    · subst hi
      simpa [hn, hrefs] using hlimit
    · simpa [hi] using hc i

theorem Inv.unref (h : Inv root fs held) (hn : 0 < held n) :
    Inv root (vfs_node_unref fs n) fun j => if j = n then held n - 1 else held j := by
  obtain ⟨kids, free, w, s, hc⟩ := h
  obtain ⟨hbound, hcn⟩ := hc n
  have hused : (fs.nodes n).in_use = true := by
    by_contra hu
    rw [if_neg hu] at hcn
    omega
  rw [if_pos hused] at hcn
  unfold vfs_node_unref
  rw [if_neg (by omega)]
  set nd : Node := { fs.nodes n with refs := (fs.nodes n).refs - 1 } with hnd
  have w₁ : Wired (fs.set n nd) kids free := w.set_plain rfl rfl rfl rfl
  have s₁ : Shaped root (fs.set n nd) kids := by
    refine s.congr rfl (fun j => ?_) (fun j _ => ?_)
    · by_cases hj : j = n <;> simp [Vfs.Live, hj, hnd]
    · by_cases hj : j = n <;> simp [Vfs.parent, hj, hnd]
  have hother : ∀ j, j ≠ n → (fs.set n nd).nodes j = fs.nodes j := fun j hj => by simp [hj]
  have hused₁ : ((fs.set n nd).nodes n).in_use = true := by simpa [hnd] using hused
  split
  · next hlast =>
    have hdead : ¬ (fs.set n nd).Live n := fun hl => by
      have := hl.2
      simp [hnd, hlast.2] at this
    have hfresh : ∀ p, n ∉ kids p := fun p hp => hdead ((s₁.tree.kid p n).mp hp).1
    obtain ⟨⟨free', w'⟩, hfree, hnodes, hroot⟩ := w₁.release hused₁ hfresh (s₁.tree.kids_of_dead hdead)
    refine ⟨kids, free', w', s₁.congr hroot (fun j => ?_) (fun j hj => ?_), fun i => ?_⟩
    · by_cases hj : j = n
      · subst hj
        exact ⟨fun hl => by simp [Vfs.Live, hfree] at hl, fun hl => absurd hl hdead⟩
      · simp only [Vfs.Live, hnodes j hj]
    · have hne : j ≠ n := fun he => hdead (he ▸ hj)
      simp only [Vfs.parent, hnodes j hne, and_self]
    · by_cases hi : i = n
      · subst hi
        simp only [hfree, if_true]
        exact ⟨by omega, by simp; omega⟩
      · dsimp only
        rw [hnodes i hi, hother i hi, if_neg hi]
        exact hc i
  · next hlast =>
    refine ⟨kids, free, w₁, s₁, fun i => ?_⟩
    by_cases hi : i = n
    · subst hi
      dsimp only
      rw [if_pos hused₁, if_pos rfl]
      refine ⟨by omega, ?_, fun hu => ?_⟩
      · simp only [Vfs.nodes_set, if_true, hnd]
        omega
      · have hu : (fs.nodes i).unlinked = true := by simpa [hnd] using hu
        have : (fs.nodes i).refs - 1 ≠ 0 := fun he => hlast ⟨he, hu⟩
        omega
    · dsimp only
      rw [hother i hi, if_neg hi]
      exact hc i

/-! ## Symbolic links -/

theorem Inv.target (h : Inv root fs held) (target : List UInt8) :
    Inv root (fs.set n { fs.nodes n with target := target }) held := by
  obtain ⟨kids, free, w, s, hc⟩ := h
  refine ⟨kids, free, w.set_plain rfl rfl rfl rfl, s.congr rfl (fun j => ?_) (fun j _ => ?_), hc.congr fun j => ?_⟩
  · by_cases hj : j = n <;> simp [Vfs.Live, hj]
  · by_cases hj : j = n <;> simp [Vfs.parent, hj]
  · by_cases hj : j = n <;> simp [hj]

theorem Inv.symlink {write : Bool} {target : List UInt8} (h : Inv root fs held)
    (hdir : fs.Dir dir) (hfits : target ≠ [] → target.length < VFS_SYMLINK_MAX → ramfs_finddir fs dir name = none →
      vfs_node_alloc heap fs ≠ none → Fits fs dir (stored name)) : Inv root
        (vfs_symlink heap write fs dir name target).2 held := by
  unfold vfs_symlink
  rw [if_pos hdir.2]
  split
  · exact h
  · next hempty =>
    split
    · exact h
    · next hlong =>
      split
      · exact h
      · split
        · exact h
        · next n fs' hcreate =>
          have hmade := h.create hdir (hfits (fun he => hempty (.inr he)) (Nat.lt_of_not_le hlong)) hcreate
          split
          · exact hmade.inv.target target
          · exact hmade.inv.unlink (hmade.dirs dir hdir)

/-! ## Renaming -/

/-- What `ramfs_rename` has before it puts `moving` on its new list. -/
structure Cleared (fs fs' : Vfs) (kids kids' : Nat → List Nat) (moving : Nat) (victim : Option Nat) : Prop where
  mem : ∀ q c, c ∈ kids' q ↔ (c ∈ kids q ∧ victim ≠ some c) ∧ c ≠ moving
  plain : ∀ j, victim ≠ some j → (fs'.nodes j).plain = (fs.nodes j).plain
  parent : ∀ j, victim ≠ some j → j ≠ moving → fs'.parent j = fs.parent j
  live : ∀ j, fs'.Live j ↔ fs.Live j ∧ victim ≠ some j
  root : fs'.root = fs.root

theorem Wired.clear {leaf : List UInt8} (w : Wired fs kids free)
    (s : Shaped root fs kids) (hc : Counted fs held) (hm : moving ∈ kids olddir) (hnew : fs.Live newdir)
    (hvictim : ramfs_finddir fs newdir leaf = victim) (hself : victim ≠ some moving)
    (hfile : ∀ v, victim = some v → (fs.nodes v).kind ≠ .directory) :
    ∃ kids' free', Wired (if victim.isSome then (ramfs_unlink (vfs_dir_remove fs olddir moving) newdir leaf false).2
        else vfs_dir_remove fs olddir moving) kids' free' ∧
      Counted (if victim.isSome then (ramfs_unlink (vfs_dir_remove fs olddir moving) newdir leaf false).2
        else vfs_dir_remove fs olddir moving) held ∧
      Cleared fs (if victim.isSome then (ramfs_unlink (vfs_dir_remove fs olddir moving) newdir leaf false).2
        else vfs_dir_remove fs olddir moving) kids kids' moving victim := by
  obtain ⟨w₁, hsame, hparent⟩ := w.remove hm
  have hc₁ := hsame.counted hc
  have hmem₁ := w.mem_erase hm
  generalize vfs_dir_remove fs olddir moving = fs₁ at *
  generalize update kids olddir ((kids olddir).erase moving) = kids₁ at *
  cases victim with
  | none =>
    refine ⟨kids₁, free, w₁, hc₁, fun q c => by simp [hmem₁], fun j _ => hsame.plain j,
        fun j _ hj => ?_, fun j => ?_, hsame.root⟩
    · exact (hparent j).trans (if_neg hj)
    · simpa using hsame.live j
  | some v =>
    obtain ⟨hv, hname⟩ := Shaped.finddir_some w hnew hvictim
    have hvm : v ≠ moving := fun he => hself (he ▸ rfl)
    have hv₁ : v ∈ kids₁ newdir := (hmem₁ newdir v).mpr ⟨hv, hvm⟩
    have hkind : (fs₁.nodes v).kind ≠ .directory := by
      rw [hsame.kind]
      exact hfile v rfl
    have hnil : kids v = [] := s.kids_of_file (hfile v rfl)
    have hleaf : kids₁ v = [] := List.eq_nil_iff_forall_not_mem.mpr fun c hcv => by
      have hck := ((hmem₁ v c).mp hcv).1
      rw [hnil] at hck
      exact absurd hck List.not_mem_nil
    -- the second search finds the same node
    have hfind : ramfs_finddir fs₁ newdir leaf = some v := by
      rw [w₁.finddir_eq ((hsame.live newdir).mpr hnew).1]
      cases hf : (kids₁ newdir).find? fun c => (fs₁.nodes c).name == leaf with
      | none =>
        have := List.find?_eq_none.mp hf v hv₁
        rw [hsame.name, hname] at this
        exact absurd (by simp) this
      | some u =>
        have hu := ((hmem₁ newdir u).mp (List.mem_of_find?_eq_some hf)).1
        have huname : (fs.nodes u).name = leaf := by
          rw [← hsame.name]
          simpa using List.find?_some hf
        rw [s.distinct newdir u hu v hv (huname.trans hname.symm)]
    have hunlink : (ramfs_unlink fs₁ newdir leaf false).2 = unlink_victim fs₁ newdir v := by
      unfold ramfs_unlink
      rw [hfind]
      simp [hkind]
    obtain ⟨⟨free', w₂⟩, hc₂, ho⟩ := w₁.unlink hc₁ hv₁ hleaf
    simp only [Option.isSome_some, if_true, hunlink]
    refine ⟨_, free', w₂, hc₂, fun q c => ?_, fun j hj => ?_, fun j hj hjm => ?_, fun j => ?_, ho.root.trans hsame.root⟩
    · rw [w₁.mem_erase hv₁, hmem₁]
      simp only [ne_eq, Option.some.injEq, eq_comm (a := v)]
      tauto
    · exact (ho.plain j fun he => hj (he ▸ rfl)).trans (hsame.plain j)
    · exact (ho.parent j fun he => hj (he ▸ rfl)).trans ((hparent j).trans (if_neg hjm))
    · rw [ho.live, hsame.live]
      simp only [ne_eq, Option.some.injEq, eq_comm (a := v)]

/-- What `ramfs_rename` has at the end: `moving` is in `newdir` under its new name,
and the one it replaces is gone. -/
structure Renamed (fs fs' : Vfs) (kids kids' : Nat → List Nat) (moving newdir : Nat)
    (name : List UInt8) (victim : Option Nat) :
    Prop where
  mem : ∀ q c, c ∈ kids' q ↔ (c ∈ kids q ∧ victim ≠ some c) ∧ c ≠ moving ∨ c = moving ∧ q = newdir
  live : ∀ j, fs'.Live j ↔ fs.Live j ∧ victim ≠ some j
  kind : ∀ j, victim ≠ some j → (fs'.nodes j).kind = (fs.nodes j).kind
  names : ∀ j, victim ≠ some j → (fs'.nodes j).name = if j = moving then name else (fs.nodes j).name
  parent : ∀ j, victim ≠ some j → fs'.parent j = if j = moving then some newdir else fs.parent j
  root : fs'.root = fs.root

theorem Cleared.append {kids₂ : Nat → List Nat} {fs₂ : Vfs} {free₂ : List Nat}
    (h : Cleared fs fs₂ kids kids₂ moving victim) (w₂ : Wired fs₂ kids₂ free₂) (hc₂ : Counted fs₂ held)
    (hm : fs.Live moving) (hself : victim ≠ some moving) (hnew : fs.Live newdir)
    (hdir : victim ≠ some newdir) (hne : moving ≠ newdir) :
    ∃ kids' free', Wired (vfs_dir_append
      (fs₂.set moving { fs₂.nodes moving with name := name }) newdir moving) kids' free' ∧
      Counted (vfs_dir_append (fs₂.set moving { fs₂.nodes moving with name := name }) newdir moving) held ∧
      Renamed fs (vfs_dir_append (fs₂.set moving { fs₂.nodes moving with name := name }) newdir
        moving) kids kids' moving newdir name
        victim := by
  set nd : Node := { fs₂.nodes moving with name := name } with hnd
  have w₃ : Wired (fs₂.set moving nd) kids₂ free₂ := w₂.set_plain rfl rfl rfl rfl
  have hc₃ : Counted (fs₂.set moving nd) held := hc₂.congr fun j => by by_cases hj : j = moving <;> simp [hj, hnd]
  have hlive₃ : ∀ j, (fs₂.set moving nd).Live j ↔ fs₂.Live j := fun j => by by_cases hj :
      j = moving <;> simp [Vfs.Live, hj, hnd]
  have hkind₃ : ∀ j, ((fs₂.set moving nd).nodes j).kind = (fs₂.nodes j).kind :=
      fun j => by by_cases hj : j = moving <;> simp [hj, hnd]
  have hnames₃ : ∀ j, ((fs₂.set moving nd).nodes j).name = if j =
      moving then name else (fs₂.nodes j).name := fun j => by
    by_cases hj : j = moving <;> simp [hj, hnd]
  have hparent₃ : ∀ j, (fs₂.set moving nd).parent j = fs₂.parent j := fun j => by by_cases hj :
      j = moving <;> simp [Vfs.parent, hj, hnd]
  have hroot₃ : (fs₂.set moving nd).root = fs₂.root := rfl
  clear_value nd
  generalize fs₂.set moving nd = fs₃ at *
  have hfree : ∀ q, moving ∉ kids₂ q := fun q hq => ((h.mem q moving).mp hq).2 rfl
  obtain ⟨w₄, hsame, hparent⟩ := w₃.append newdir moving ((hlive₃ newdir).mpr ((h.live newdir).mpr ⟨hnew, hdir⟩)).1
    ((hlive₃ moving).mpr ((h.live moving).mpr ⟨hm, hself⟩)).1 hfree
  refine ⟨_, free₂, w₄, hsame.counted hc₃,
      ⟨fun q c => ?_, fun j => ?_, fun j hj => ?_, fun j hj => ?_, fun j hj => ?_, ?_⟩⟩
  · by_cases hq : q = newdir
    · subst hq
      simp [h.mem]
    · simp [hq, h.mem]
  · exact ((hsame.live j).trans (hlive₃ j)).trans (h.live j)
  · exact ((hsame.kind j).trans (hkind₃ j)).trans (congrArg Node.kind (h.plain j hj) :)
  · have hold : (fs₂.nodes j).name = (fs.nodes j).name := (congrArg Node.name (h.plain j hj) :)
    rw [hsame.name, hnames₃, hold]
  · rw [hparent]
    split
    · rfl
    · next hjm => rw [hparent₃, h.parent j hj hjm]
  · exact (hsame.root.trans hroot₃).trans h.root

/-- The tree after a rename: first it loses the node that is replaced, then the
other one moves. -/
theorem Shaped.renamed (w : Wired fs kids free)
    (s : Shaped root fs kids) (hm : moving ∈ kids olddir) (hnew : fs.Dir newdir)
    (hvictim : ramfs_finddir fs newdir name = victim)
    (hself : victim ≠ some moving) (hfile : ∀ v, victim = some v → (fs.nodes v).kind ≠ .directory)
    (hname : ProperName name)
    (habove : ¬ Forest.Above fs.parent moving newdir) (h : Renamed fs fs' kids kids' moving newdir name victim)
    (hnodup : ∀ q, (kids' q).Nodup) : Shaped root fs' kids' := by
  have hlm := ((s.tree.kid olddir moving).mp hm).1
  have hdir : ∀ p, (fs.nodes p).kind = .directory → victim ≠ some p := fun p hp he => hfile p he hp
  have htree : Forest.IsTree root (fun j => fs.Live j ∧ victim ≠ some j) fs.parent
      (fun q => (kids q).filter fun c => decide (victim ≠ some c)) := by
    cases victim with
    | none => simpa using s.tree
    | some v =>
      obtain ⟨hv, _⟩ := Shaped.finddir_some w hnew.1 hvictim
      refine s.tree.remove (s.tree.kid_ne_root hv) (s.kids_of_file (hfile v rfl)) (fun j => ?_)
          (fun _ _ _ => rfl) (fun q c => ?_)
        fun q => (s.tree.nodup q).filter _
      · simp only [ne_eq, Option.some.injEq, eq_comm (a := v)]
      · simp only [List.mem_filter, decide_eq_true_eq, ne_eq, Option.some.injEq, eq_comm (a := v)]
  -- no other node on the new list has the name
  have hother : ∀ a, a ∈ kids newdir → victim ≠ some a → (fs.nodes a).name ≠ name := by
    intro a ha hav hname'
    cases victim with
    | none => exact Shaped.finddir_none w hnew.1 hvictim ha hname'
    | some v =>
      obtain ⟨hv, hvname⟩ := Shaped.finddir_some w hnew.1 hvictim
      exact hav (by rw [s.distinct newdir a ha v hv (hname'.trans hvname.symm)])
  refine ⟨?_, h.root.trans s.root_eq, (h.kind root (hdir root s.root_dir)).trans s.root_dir, ?_, ?_, ?_⟩
  · refine htree.move ⟨hlm, hself⟩ (s.tree.kid_ne_root hm) ⟨hnew.1, hdir newdir hnew.2⟩ habove h.live
      ((h.parent moving hself).trans (if_pos rfl))
        (fun j hj hjm => (h.parent j hj.2).trans (if_neg hjm)) (fun q c => ?_) hnodup
    rw [h.mem, List.mem_filter, decide_eq_true_eq]
  · intro p c hcp
    have hpdir : (fs.nodes p).kind = .directory := by
      rcases (h.mem p c).mp hcp with ⟨⟨hck, _⟩, _⟩ | ⟨_, rfl⟩
      · exact s.dirs p c hck
      · exact hnew.2
    exact (h.kind p (hdir p hpdir)).trans hpdir
  · intro p a ha b hb hab
    rcases (h.mem p a).mp ha with ⟨⟨hka, hav⟩, ham⟩ | ⟨rfl, hpa⟩ <;> rcases (h.mem p b).mp hb with
        ⟨⟨hkb, hbv⟩, hbm⟩ | ⟨rfl, hpb⟩
    · rw [h.names a hav, h.names b hbv, if_neg ham, if_neg hbm] at hab
      exact s.distinct p a hka b hkb hab
    · rw [h.names a hav, h.names b hself, if_neg ham, if_pos rfl] at hab
      exact absurd hab (hother a (hpb ▸ hka) hav)
    · rw [h.names a hself, h.names b hbv, if_pos rfl, if_neg hbm] at hab
      exact absurd hab.symm (hother b (hpa ▸ hkb) hbv)
    · rfl
  · intro p c hcp
    rcases (h.mem p c).mp hcp with ⟨⟨hck, hcv⟩, hcm⟩ | ⟨rfl, _⟩
    · rw [h.names c hcv, if_neg hcm]
      exact s.proper p c hck
    · rw [h.names c hself, if_pos rfl]
      exact hname

theorem Inv.rename {oldname newname : List UInt8} (h : Inv root fs held) (hold : fs.Dir olddir)
    (hnew : fs.Dir newdir) (hfits : ∀ moving, ramfs_finddir fs olddir oldname = some moving →
      ramfs_finddir fs newdir (stored newname) ≠ some moving →
      (∀ v, ramfs_finddir fs newdir (stored newname) = some v → (fs.nodes v).kind ≠ .directory) →
      ProperName (stored newname) ∧ ¬ Forest.Above fs.parent moving newdir) :
    Inv root (ramfs_rename fs olddir oldname newdir newname).2 held := by
  unfold ramfs_rename
  split
  · exact h
  · next moving hmoving =>
    dsimp only
    split
    · exact h
    · next hself =>
      split
      · exact h
      · next hfile =>
        have hfile : ∀ v, ramfs_finddir fs newdir (stored newname) = some v → (fs.nodes v).kind ≠ .directory := by
          intro v hv hdir
          rw [hv] at hfile
          simp [hdir] at hfile
        obtain ⟨hname, habove⟩ := hfits moving hmoving hself hfile
        obtain ⟨kids, free, w, s, hc⟩ := h
        obtain ⟨hm, _⟩ := Shaped.finddir_some w hold.1 hmoving
        obtain ⟨hlm, _⟩ := (s.tree.kid olddir moving).mp hm
        generalize hvictim : ramfs_finddir fs newdir (stored newname) = victim at *
        obtain ⟨kids₂, free₂, w₂, hc₂, hcleared⟩ := w.clear s hc hm hnew.1 hvictim hself hfile
        generalize (if victim.isSome then
            (ramfs_unlink (vfs_dir_remove fs olddir moving) newdir (stored newname) false).2
          else vfs_dir_remove fs olddir moving) = fs₂ at *
        have hdir : victim ≠ some newdir := fun he => hfile newdir he hnew.2
        have hne : moving ≠ newdir := fun he => habove (he ▸ .self)
        obtain ⟨kids', free', w', hc', hrenamed⟩ := hcleared.append w₂ hc₂ hlm hself hnew.1 hdir hne
        exact ⟨kids', free', w', s.renamed w hm hnew hvictim hself hfile hname habove hrenamed w'.nodup, hc'⟩

/-! ## Mounting -/

theorem stored_eq (h : name.length < VFS_NAME_MAX) : stored name = name :=
  List.take_of_length_le (by simp only [VFS_NAME_MAX] at *; omega)

theorem of_stored_eq {y : List UInt8} (h : stored name = y) (hy : y.length < VFS_NAME_MAX - 1) : name = y := by
  rw [← h]
  refine (List.take_of_length_le ?_).symm
  have hlen := congrArg List.length h
  simp only [stored, List.length_take, VFS_NAME_MAX] at *
  omega

theorem ProperName.of_component (hne : stored name ≠ []) (hslash : SLASH ∉ name) (hdots : name ≠ DOT ∧ name ≠ DOTDOT) :
    ProperName (stored name) :=
  ⟨hne, fun h => hslash (List.mem_of_mem_take h), fun h => hdots.1 (of_stored_eq h (by decide)),
    fun h => hdots.2 (of_stored_eq h (by decide))⟩

theorem not_mem_takeWhile (p : List UInt8) : SLASH ∉ p.takeWhile (· != SLASH) := fun h => by
  simpa using List.all_eq_true.mp (List.all_takeWhile (l := p) (p := (· != SLASH))) SLASH h

theorem splitOn_component {p : List UInt8} (h : p.dropWhile (· != SLASH) ≠ []) :
    ∃ rest, p.dropWhile (· != SLASH) = SLASH :: rest ∧
      p.splitOn SLASH = p.takeWhile (· != SLASH) :: rest.splitOn SLASH := by
  obtain ⟨c, rest, hc⟩ := List.exists_cons_of_ne_nil h
  have hslash : c = SLASH := by
    have := List.head_dropWhile_not (· != SLASH) h
    simpa [hc] using this
  subst hslash
  refine ⟨rest, hc, ?_⟩
  conv_lhs => rw [← List.takeWhile_append_dropWhile (p := (· != SLASH)) (l := p), hc]
  rw [List.splitOn_append_cons_self, List.splitOn_eq_singleton (not_mem_takeWhile p)]
  rfl

theorem splitOn_dropWhile (p : List UInt8) : ∀ c ∈ (p.dropWhile (· == SLASH)).splitOn SLASH, c ∈ p.splitOn SLASH := by
  induction p with
  | nil => exact fun c hc => hc
  | cons x xs ih =>
    intro c hc
    by_cases hx : x = SLASH
    · subst hx
      rw [show SLASH :: xs = [] ++ SLASH :: xs from rfl, List.splitOn_append_cons_self]
      exact List.mem_append_right _ (ih c hc)
    · rwa [List.dropWhile_cons_of_neg (by simpa using hx)] at hc

/-- A path without "." and "..". -/
def Plain (p : List UInt8) : Prop := ∀ comp ∈ p.splitOn SLASH, comp ≠ DOT ∧ comp ≠ DOTDOT

theorem Inv.make_dirs (heap : Nat → Bool) (fuel : Nat) :
    ∀ {fs : Vfs} {dir : Nat} {p : List UInt8}, Inv root fs held → fs.Dir dir → Plain p →
    Inv root (initrd_make_dirs heap fuel fs dir p).2 held ∧
      ∀ d leaf, (initrd_make_dirs heap fuel fs dir p).1 = some (d, leaf) →
      (initrd_make_dirs heap fuel fs dir p).2.Dir d ∧ leaf.length ≤ p.length ∧ SLASH ∉ leaf ∧
        leaf ≠ DOT ∧ leaf ≠ DOTDOT := by
  induction fuel with
  | zero => exact fun h _ _ => ⟨h, fun _ _ he => by cases he⟩
  | succ fuel ih =>
    intro fs dir p h hdir hp
    rw [initrd_make_dirs]
    dsimp only
    split
    · next hleaf =>
      refine ⟨h, fun d leaf he => ?_⟩
      cases he
      have hslash : SLASH ∉ p := fun hm => by
        simpa using List.dropWhile_eq_nil_iff.mp hleaf SLASH hm
      refine ⟨hdir, Nat.le_refl _, hslash, hp p ?_⟩
      rw [List.splitOn_eq_singleton hslash]
      exact List.mem_cons_self
    · next hmore =>
      obtain ⟨rest, hrest, hsplit⟩ := splitOn_component hmore
      rw [Plain, hsplit] at hp
      -- what is still to read is a shorter path of the same kind
      have hplain : Plain ((p.dropWhile (· != SLASH)).dropWhile (· == SLASH)) := by
        rw [hrest, List.dropWhile_cons_of_pos (by simp)]
        exact fun c hc => hp c (List.mem_cons_of_mem _ (splitOn_dropWhile rest c hc))
      have hshort : ((p.dropWhile (· != SLASH)).dropWhile (· == SLASH)).length ≤ p.length :=
        Nat.le_trans (List.dropWhile_suffix _).length_le (List.dropWhile_suffix _).length_le
      generalize (p.dropWhile (· != SLASH)).dropWhile (· == SLASH) = p' at *
      have further : ∀ {fs' : Vfs} {n : Nat}, Inv root fs' held → fs'.Dir n →
          Inv root (initrd_make_dirs heap fuel fs' n p').2 held ∧
            ∀ d leaf, (initrd_make_dirs heap fuel fs' n p').1 = some (d, leaf) →
            (initrd_make_dirs heap fuel fs' n p').2.Dir d ∧ leaf.length ≤ p.length ∧ SLASH ∉ leaf ∧
              leaf ≠ DOT ∧ leaf ≠ DOTDOT := by
        intro fs' n h' hn
        obtain ⟨hinv, hres⟩ := ih h' hn hplain
        refine ⟨hinv, fun d leaf he => ?_⟩
        obtain ⟨hd, hlen, hname⟩ := hres d leaf he
        exact ⟨hd, Nat.le_trans hlen hshort, hname⟩
      have hstop : ∀ {fs' : Vfs}, Inv root fs' held → Inv root ((none : Option (Nat × List UInt8)), fs').2 held ∧
          ∀ d leaf, ((none : Option (Nat × List UInt8)), fs').1 = some (d, leaf) → fs'.Dir d ∧
            leaf.length ≤ p.length ∧ SLASH ∉ leaf ∧
            leaf ≠ DOT ∧ leaf ≠ DOTDOT := fun h' => ⟨h', fun _ _ he => by cases he⟩
      split
      · exact further h hdir
      · next hcomp =>
        split
        · next n hn =>
          split
          · next hkind =>
            obtain ⟨kids, free, w, s, hc⟩ := h
            exact further ⟨kids, free, w, s, hc⟩ ⟨Shaped.finddir_live w s hdir.1 hn, hkind⟩
          · exact hstop h
        · split
          · exact hstop h
          · next n fs' hcreate =>
            have hstored : stored (stored (p.takeWhile (· != SLASH))) = stored (p.takeWhile (· != SLASH)) := by
              simp [stored, List.take_take]
            have hname : ProperName (stored (p.takeWhile (· != SLASH))) :=
              .of_component hcomp (not_mem_takeWhile p) (hp _ List.mem_cons_self)
            have hmade := h.create hdir (fun hnone _ => by rw [hstored]; exact ⟨hname, hnone⟩) hcreate
            split
            · next hkind => exact further hmade.inv ⟨hmade.live, hkind⟩
            · exact hstop hmade.inv

theorem entry_name_length (entry : List UInt8) : (entry_name entry).length ≤ INITRD_NAME_MAX := by
  refine Nat.le_trans (List.takeWhile_prefix _).length_le ?_
  rw [List.length_take]
  exact Nat.min_le_left _ _

theorem Inv.populate (heap : Nat → Bool) {archive : List (List UInt8)} :
    ∀ {fs : Vfs}, Inv root fs held → fs.Dir root → PlainArchive archive →
    Inv root (populate heap root archive fs) held := by
  induction archive with
  | nil => exact fun h _ _ => h
  | cons entry entries ih =>
    intro fs h hroot harchive
    have hrest : PlainArchive entries := fun e he => harchive e (List.mem_cons_of_mem _ he)
    -- the root is a directory in every state of the tree
    have hdir : ∀ {fs' : Vfs}, Inv root fs' held → fs'.Dir root := fun ⟨_, _, _, s, _⟩ => ⟨s.tree.root_live, s.root_dir⟩
    rw [Vfs32.populate]
    split
    · exact ih h hroot hrest
    · have hplain : Plain ((entry_name entry).dropWhile (· == SLASH)) := fun c hc =>
        harchive entry List.mem_cons_self c (splitOn_dropWhile _ c hc)
      obtain ⟨hinv, hres⟩ := h.make_dirs heap ((entry_name entry).length + 1) hroot hplain
      split
      · next fs' hmake =>
        rw [hmake] at hinv
        exact ih hinv (hdir hinv) hrest
      · next d leaf fs' hmake =>
        rw [hmake] at hinv hres
        obtain ⟨hd, hlen, hslash, hdots⟩ := hres d leaf rfl
        have hstored : stored leaf = leaf := stored_eq (by
          have := entry_name_length entry
          have := (List.dropWhile_suffix (· == SLASH) (l := entry_name entry)).length_le
          simp only [VFS_NAME_MAX, INITRD_NAME_MAX] at *
          omega)
        split
        · exact ih hinv (hdir hinv) hrest
        · next hempty =>
          split
          · exact hinv
          · next n fs'' hcreate =>
            have hname : ProperName (stored leaf) := .of_component (by rwa [hstored]) hslash hdots
            have hmade := hinv.create hd (fun hnone _ => ⟨hname, by rwa [hstored]⟩) hcreate
            exact ih hmade.inv (hdir hmade.inv) hrest

theorem Inv.home (heap : Nat → Bool) (h : Inv root fs held) (hname : name ∈ homes) :
    Inv root (make_home heap root fs name) held := by
  have hproper : ∀ name ∈ homes, ProperName (stored name) ∧ stored name = name := by decide
  have hroot : fs.Dir root := by
    obtain ⟨_, _, _, s, _⟩ := h
    exact ⟨s.tree.root_live, s.root_dir⟩
  obtain ⟨hp, he⟩ := hproper name hname
  unfold make_home
  split
  · exact h
  · next hcreate => exact (h.create hroot (fun hnone _ => ⟨hp, by rwa [he]⟩) hcreate).inv

theorem Inv.homes (heap : Nat → Bool) {names : List (List UInt8)} :
    ∀ {fs : Vfs}, Inv root fs held → (∀ name ∈ names, name ∈ Vfs32.homes) →
    Inv root (names.foldl (make_home heap root) fs) held := by
  induction names with
  | nil => exact fun h _ => h
  | cons name names ih =>
    exact fun h hall => ih (h.home heap (hall name List.mem_cons_self)) fun m hm => hall m (List.mem_cons_of_mem _ hm)

theorem Inv.root_only {fs₁ : Vfs} (h : vfs_node_alloc heap ⟨fun _ => blank, 0, none, none⟩ = some (n, fs₁)) :
    Inv n { fs₁.set n { fs₁.nodes n with name := [SLASH], kind := .directory } with root := some n } fun _ => 0 := by
  have w₀ : Wired ⟨fun _ => blank, 0, none, none⟩ (fun _ => []) [] := by
    refine ⟨Nat.zero_le _, fun i hi => ?_, rfl, fun i hi => absurd hi List.not_mem_nil, fun p hp => ?_,
      fun p c hc => absurd hc List.not_mem_nil⟩
    · cases hi
    · cases hp
  obtain ⟨⟨free, w⟩, ht⟩ := w₀.alloc h
  have w₁ : Wired (fs₁.set n { fs₁.nodes n with name := [SLASH], kind := .directory })
      (fun _ => []) free := w.set_plain rfl rfl rfl rfl
  have hother : ∀ j, j ≠ n → (fs₁.nodes j).in_use = false := fun j hj => ht.in_use j hj
  have hlive : ∀ j, Vfs.Live { fs₁.set n { fs₁.nodes n with name := [SLASH], kind := .directory } with root := some n } j ↔ j = n := fun j => by
    by_cases hj : j = n
    · subst hj
      simp [Vfs.Live, ht.fresh, blank]
    · simp [Vfs.Live, hj, hother j hj]
  have hparent : Vfs.parent { fs₁.set n
      { fs₁.nodes n with name := [SLASH], kind := .directory } with root := some n } n = none := by
    simp [Vfs.parent, ht.fresh, blank]
  refine ⟨fun _ => [], free, ⟨w₁.nblocks_le, w₁.bound, w₁.free_links, w₁.free_unused, w₁.links, w₁.kid⟩,
    ⟨⟨(hlive n).mpr rfl, hparent, fun p c => ?_, fun _ => List.nodup_nil, fun c p hc hp => ?_,
      fun i hi => ?_⟩, rfl, by simp,
      fun p c hc => absurd hc List.not_mem_nil, fun p a ha => absurd ha List.not_mem_nil,
      fun p c hc => absurd hc List.not_mem_nil⟩,
    fun i => ?_⟩
  · rw [hlive]
    refine ⟨fun hc => absurd hc List.not_mem_nil, ?_⟩
    rintro ⟨rfl, hp⟩
    rw [hparent] at hp
    cases hp
  · obtain rfl := (hlive c).mp hc
    rw [hparent] at hp
    cases hp
  · obtain rfl := (hlive i).mp hi
    exact .root
  · by_cases hi : i = n
    · subst hi
      simp [ht.fresh, blank]
    · simp [hi, hother i hi]

/-! ## Runs -/

/-- A state of the file system: mounted, or nothing at all. -/
def Good (k : State) : Prop :=
  (∃ root, Inv root k.fs k.held) ∨ k.fs.root = none ∧ ∀ i, (k.fs.nodes i).in_use = false ∧ k.held i = 0

theorem Good.boot (heap : Nat → Bool) {archive : List (List UInt8)} (h : PlainArchive archive) :
    Good (.boot heap archive) := by
  unfold State.boot ramfs_init
  dsimp only
  split
  · exact .inr ⟨rfl, fun _ => ⟨rfl, rfl⟩⟩
  · next root fs₁ halloc =>
    have hinv := Inv.root_only halloc
    have hroot : Vfs.Dir { fs₁.set root { fs₁.nodes root with name := [SLASH], kind := .directory } with root := some root } root := by
      obtain ⟨_, _, _, s, _⟩ := hinv
      exact ⟨s.tree.root_live, s.root_dir⟩
    refine .inl ⟨root, (hinv.populate heap hroot fun e he => h e (List.mem_of_mem_take he)).homes
        heap fun name hname => hname⟩

theorem Inv.step {a : Act} (h : Inv root k.fs k.held) (ha : Condition k a) :
    Inv root (k.step a).fs (k.step a).held := by
  have hdir : ∀ {path leaf : List UInt8} {dir : Nat},
      vfs_resolve_parent k.fs path = some (dir, leaf) → k.fs.Dir dir := by
    obtain ⟨_, _, w, s, _⟩ := h
    exact fun hres => s.resolve_dir w hres
  have hon : ∀ (path : List UInt8) (call : Nat → List UInt8 → Vfs),
      (∀ dir leaf, vfs_resolve_parent k.fs (cstr path) = some (dir, leaf) →
      Inv root (call dir leaf) k.held) → Inv root (on_parent k.fs path call) k.held := by
    intro path call hcall
    unfold on_parent
    split
    · exact h
    · next hres => exact hcall _ _ hres
  cases a with
  | rename oldpath newpath =>
    show Inv root (vfs_rename k.fs (cstr oldpath) (cstr newpath)).2 k.held
    unfold vfs_rename
    split
    · exact h
    · next olddir oldleaf hold =>
      split
      · exact h
      · next newdir newleaf hnew =>
        exact h.rename (hdir hold) (hdir hnew) fun moving => ha olddir oldleaf newdir newleaf moving hold hnew
  | create path flags heap =>
    refine hon path _ fun dir leaf hres => ?_
    cases hcreate : vfs_create heap k.fs dir leaf flags with
    | none => exact h
    | some r => exact (h.create (hdir hres) (ha dir leaf hres) hcreate).inv
  | symlink path target heap write =>
    exact hon path _ fun dir leaf hres => h.symlink (hdir hres) (ha dir leaf hres)
  | unlink path want_dir => exact hon path _ fun dir leaf hres => h.unlink (hdir hres)
  | ref n => exact h.ref ha.1 ha.2
  | unref n => exact h.unref ha

theorem Good.step {a : Act} (h : Good k) (ha : Condition k a) : Good (k.step a) := by
  rcases h with ⟨root, h⟩ | ⟨hroot, hnone⟩
  · exact .inl ⟨root, h.step ha⟩
  · -- without a root no path leads anywhere, and there is no node to refer to
    have hres : ∀ path, vfs_resolve_parent k.fs path = none := fun path => by
      unfold vfs_resolve_parent
      rw [hroot]
    have hon : ∀ path call, on_parent k.fs path call = k.fs := fun path call => by
      unfold on_parent
      rw [hres]
    cases a with
    | rename oldpath newpath =>
      refine .inr ?_
      simp only [State.step, vfs_rename, hres]
      exact ⟨hroot, hnone⟩
    | create path flags heap =>
      refine .inr ?_
      simp only [State.step, hon]
      exact ⟨hroot, hnone⟩
    | symlink path target heap write =>
      refine .inr ?_
      simp only [State.step, hon]
      exact ⟨hroot, hnone⟩
    | unlink path want_dir =>
      refine .inr ?_
      simp only [State.step, hon]
      exact ⟨hroot, hnone⟩
    | ref n =>
      have hn := ha.1
      rw [(hnone n).1] at hn
      cases hn
    | unref n =>
      have hn : 0 < k.held n := ha
      rw [(hnone n).2] at hn
      omega

theorem Good.isTree (h : Good k) : IsTree k.fs := by
  rcases h with ⟨root, h⟩ | ⟨_, hnone⟩
  · exact h.isTree
  · have hdead : ∀ i, (k.fs.nodes i).in_use ≠ true := fun i hi => by
      rw [(hnone i).1] at hi
      cases hi
    exact ⟨fun i hi => absurd hi.1 (hdead i), fun i hi => absurd hi.1 (hdead i), fun p hp => absurd hp (hdead p)⟩

theorem Good.kept (h : Good k) : Kept k := by
  rcases h with ⟨root, h⟩ | ⟨_, hnone⟩
  · exact h.kept
  · intro i hi
    rw [(hnone i).2] at hi
    omega

end

/-- **The nodes are a tree after every call**, and a node with references is the
one they were taken on. -/
theorem vfs_tree (heap : Nat → Bool) (archive : List (List UInt8)) (harchive : PlainArchive archive) (acts : List Act)
    (hacts : calls.Guarded Condition (.boot heap archive) acts) :
    IsTree (calls.run (.boot heap archive) acts).fs ∧ Kept (calls.run (.boot heap archive) acts) := by
  have hstep : ∀ k a, Good k → Condition k a → Good (calls.step k a).1 := fun _ _ => Good.step
  have hgood := calls.invariant_of_step hstep acts _ (.boot heap harchive) hacts
  exact ⟨hgood.isTree, hgood.kept⟩

/-- `mkdir /a`, a reference to it, `rename /a /b`, and `rmdir /b` while it is open. -/
theorem vfs_tree_open_directory :
    IsTree (calls.run (.boot (fun _ => true) [])
      [.create [47, 97] .directory fun _ => true, .ref 123, .rename [47, 97] [47, 98],
        .unlink [47, 98] true, .unref 123]).fs ∧
      Kept (calls.run (.boot (fun _ => true) [])
        [.create [47, 97] .directory fun _ => true, .ref 123, .rename [47, 97] [47, 98],
        .unlink [47, 98] true, .unref 123]) := by
  refine vfs_tree _ _ (fun _ h => absurd h List.not_mem_nil) _ ⟨?_, ?_, ?_, trivial, ?_, trivial⟩
  · intro dir leaf hres _ _
    obtain ⟨rfl, rfl⟩ : 127 = dir ∧ [97] = leaf := by
      simpa using (show vfs_resolve_parent _ _ = some (127, [97]) by decide).symm.trans hres
    exact ⟨by decide, by decide⟩
  · exact ⟨by decide, by decide⟩
  · intro olddir oldleaf newdir newleaf moving hold hnew hmoving _ _
    obtain ⟨rfl, rfl⟩ : 127 = olddir ∧ [97] = oldleaf := by
      simpa using (show vfs_resolve_parent _ _ = some (127, [97]) by decide).symm.trans hold
    obtain ⟨rfl, rfl⟩ : 127 = newdir ∧ [98] = newleaf := by
      simpa using (show vfs_resolve_parent _ _ = some (127, [98]) by decide).symm.trans hnew
    obtain rfl : 123 = moving := by
      simpa using (show ramfs_finddir _ _ _ = some 123 by decide).symm.trans hmoving
    refine ⟨by decide, fun habove => ?_⟩
    cases habove with
    | up hp _ =>
      -- the root has no parent
      cases hp
  · show 0 < State.held _ 123
    decide

/-- A directory moved below itself: no way leads from it to the root. -/
theorem vfs_not_a_tree :
    ¬ IsTree (calls.run (.boot (fun _ => true) [])
      [.create [47, 97] .directory fun _ => true, .rename [47, 97] [47, 97, 47, 98]]).fs := by
  generalize hfs : (calls.run (.boot (fun _ => true) []) [.create [47, 97] .directory fun _ => true,
    .rename [47, 97] [47, 97, 47, 98]]).fs = fs
  have hroot : fs.root = some 127 := by rw [← hfs]; decide
  have hparent : fs.parent 123 = some 123 := by rw [← hfs]; decide
  have hlive : fs.Live 123 := by rw [← hfs]; exact ⟨by decide, by decide⟩
  intro htree
  obtain ⟨root, hr, hto⟩ := htree.rooted 123 hlive
  obtain rfl := Option.some.inj (hroot.symm.trans hr)
  -- the chain of parents from 123 stays there
  have hstay : ∀ i, Forest.ToRoot 127 fs.parent i → i ≠ 123 := by
    intro i hi
    induction hi with
    | root => decide
    | up hp _ ih =>
      rintro rfl
      exact ih (Option.some.inj (hp.symm.trans hparent))
  exact hstay 123 hto rfl

end NovarisOS.Vfs32
