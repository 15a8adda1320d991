/-
NovarisOS.Ramfs64.Shape — the node table is a tree and a free list.

`IsTree` is the whole of it: every node with a name is on the child list of
the directory that is its parent, only directories have children, parents
lead to the root, the names on one list are distinct names, the rest of the
slots are the free list, and the count is right.

The calls do not keep it.
-/
import Mathlib.Data.List.Pairwise
import NovarisOS.Ramfs64.TreeTheorems

namespace NovarisOS.Ramfs64

open Function (update update_of_ne update_self)

/-- Following `parent` from a node ends at the root. -/
inductive ToRoot (parent : Nat → Option Nat) : Nat → Prop
  | root : ToRoot parent ROOT
  | up {i p : Nat} : parent i = some p → ToRoot parent p → ToRoot parent i

/-- What a name in a directory may be. -/
structure ProperName (name : List UInt8) : Prop where
  ne_nil : name ≠ []
  no_slash : SLASH ∉ name
  ne_dot : name ≠ DOT
  ne_dotdot : name ≠ DOTDOT

/-- The node table is a tree and a free list. -/
structure IsTree (fs : Fs) : Prop where
  home : ∀ i, fs.Live i → ∃ p l, fs.parent i = some p ∧ (fs.nodes p).used = true ∧
    (fs.nodes p).isDir = true ∧ Links fs.next (fs.nodes p).firstChild l ∧ l.count i = 1 ∧
    ∀ q l', Links fs.next (fs.nodes q).firstChild l' → i ∈ l' → q = p
  only_dirs : ∀ p, (fs.nodes p).used = true → (fs.nodes p).firstChild ≠ none →
    (fs.nodes p).isDir = true
  rooted : ∀ i, fs.Live i → ToRoot fs.parent i
  siblings : ∀ p, (fs.nodes p).used = true → ∃ l, Links fs.next (fs.nodes p).firstChild l ∧
    (l.map fun c => (fs.nodes c).name).Nodup ∧ ∀ c ∈ l, ProperName (fs.nodes c).name
  freeList : ∃ l, Links fs.next fs.freeHead l ∧ l.Nodup ∧
    ∀ i, i ∈ l ↔ i < RAMFS64_MAX_NODES ∧ (fs.nodes i).used = false
  count : fs.nodeCount = ((List.range RAMFS64_MAX_NODES).filter fun i => (fs.nodes i).used).length

/-! ## When a call keeps it -/

/-- A node may be linked under `p` by the name `name`. -/
def Linkable (fs : Fs) (p : Nat) (name : List UInt8) : Prop :=
  (fs.nodes p).isDir = true ∧ name ≠ DOT ∧ name ≠ DOTDOT

/-- If the call makes a node at `path`, it may be linked there. -/
def LinkOk (fs : Fs) (path : List UInt8) : Prop :=
  ∀ p name, walk fs path true true = some (p, name) → findChild fs p name = none →
    fs.freeHead ≠ none → Linkable fs p name

/-- Every node the call makes or moves may be linked where its path says. -/
def TreeOk (fs : Fs) : TreeOp → Prop
  | .create path _ => LinkOk fs (cstr path)
  | .mkdirp path => (cstr path).head? = some SLASH →
      MkdirpOk LinkOk ((cstr path).length + 1) fs [SLASH] (cstr path)
  | .symlink _ path target =>
      cstr target ≠ [] → (cstr target).length < RAMFS64_PATH_MAX → LinkOk fs (cstr path)
  | .rename oldpath newpath => ∀ src dst name,
      ramfs64LookupNofollow fs (cstr oldpath) = some src →
      walk fs (cstr newpath) true true = some (dst, name) → findChild fs dst name = none →
      ((fs.nodes src).isDir && inSubtree fs src dst) = false → Linkable fs dst name
  | _ => True

/-! ## The invariant -/

structure Shaped (fs : Fs) (kids : Nat → List Nat) : Prop where
  home : ∀ i, fs.Live i → ∃ p, i ∈ kids p
  owner : ∀ p, ∀ c ∈ kids p, (fs.nodes p).isDir = true ∧ (p = ROOT ∨ fs.Live p)
  distinct : ∀ p, (kids p).Pairwise fun a b => (fs.nodes a).name ≠ (fs.nodes b).name
  proper : ∀ p, ∀ c ∈ kids p, ProperName (fs.nodes c).name
  rooted : ∀ i, fs.Live i → ToRoot fs.parent i

section

variable {fs fs' : Fs} {kids : Nat → List Nat} {free : List Nat}

theorem pairwise_names {l l' : List Nat} (h : l.Pairwise fun a b =>
      (fs.nodes a).name ≠ (fs.nodes b).name) (hsub : l'.Sublist l)
    (hname : ∀ c ∈ l', (fs'.nodes c).name = (fs.nodes c).name) :
    l'.Pairwise fun a b => (fs'.nodes a).name ≠ (fs'.nodes b).name := by
  refine (h.sublist hsub).imp_of_mem ?_
  intro a b ha hb hne
  rwa [hname a ha, hname b hb]

theorem toRoot_transfer (ok : Nat → Prop) {i : Nat} (h : ToRoot fs.parent i) (hi : ok i)
    (hsame : ∀ j p, ok j → fs.parent j = some p → fs'.parent j = some p ∧ ok p) :
    ToRoot fs'.parent i := by
  induction h with
  | root => exact ToRoot.root
  | up hp _ ih =>
    obtain ⟨hp', hok⟩ := hsame _ _ hi hp
    exact ToRoot.up hp' (ih hok)

theorem live_of_core {i : Nat} (h : (fs'.nodes i).core = (fs.nodes i).core) :
    fs'.Live i ↔ fs.Live i := by
  have hused : (fs'.nodes i).used = (fs.nodes i).used := (congrArg Node64.used h :)
  have hnamed : (fs'.nodes i).unlinked = (fs.nodes i).unlinked := (congrArg Node64.unlinked h :)
  constructor
  · rintro ⟨hu, hn, hi⟩
    exact ⟨hused ▸ hu, hnamed ▸ hn, hi⟩
  · rintro ⟨hu, hn, hi⟩
    exact ⟨by rw [hused]; exact hu, by rw [hnamed]; exact hn, hi⟩

end

namespace Shaped

variable {fs fs' : Fs} {kids : Nat → List Nat} {free : List Nat} (w : Wired fs kids free)
  (t : Shaped fs kids)
include w t

variable {j p src : Nat}

theorem parent_live (hj : fs.Live j) (hp : fs.parent j = some p) :
    j ∈ kids p ∧ (p = ROOT ∨ fs.Live p) := by
  obtain ⟨q, hq⟩ := t.home j hj
  obtain rfl : q = p := Option.some.inj ((w.kid q j hq).2.symm.trans hp)
  exact ⟨hq, (t.owner q j hq).2⟩

omit t in
theorem reached_live (hp : Reached fs kids p) : p = ROOT ∨ fs.Live p := by
  by_cases hroot : p = ROOT
  · exact .inl hroot
  · obtain ⟨q, hq, -⟩ := hp.has_parent w hroot
    exact .inr (w.kid q p hq).1

omit w in
theorem toRoot (hp : p = ROOT ∨ fs.Live p) : ToRoot fs.parent p := by
  rcases hp with rfl | hlive
  · exact ToRoot.root
  · exact t.rooted p hlive

theorem remove {n : Nat} (hn : n ∈ kids p) (hnil : kids n = [])
    (hcore : ∀ j, j ≠ n → (fs'.nodes j).core = (fs.nodes j).core) (hgone : ¬ fs'.Live n) :
    Shaped fs' (update kids p ((kids p).erase n)) := by
  have hsub : ∀ q, (update kids p ((kids p).erase n) q).Sublist (kids q) := by
    intro q
    by_cases hq : q = p
    · subst hq; rw [update_self]; exact List.erase_sublist
    · rw [update_of_ne hq]
  have hne : ∀ q, ∀ c ∈ update kids p ((kids p).erase n) q, c ≠ n := by
    rintro q c hc rfl
    have hcq := (hsub q).subset hc
    obtain rfl := w.kid_unique hcq hn
    rw [update_self] at hc
    exact absurd hc ((w.kidsLinks q).nodup.not_mem_erase)
  have hlive : ∀ j, fs'.Live j ↔ fs.Live j ∧ j ≠ n := by
    intro j
    by_cases hj : j = n
    · subst hj; simp [hgone]
    · simp [live_of_core (hcore j hj), hj]
  have howner : ∀ q, ∀ c ∈ kids q, q ≠ n := by
    rintro q c hc rfl
    rw [hnil] at hc
    exact absurd hc List.not_mem_nil
  constructor
  · intro j hj
    obtain ⟨hj, hjn⟩ := (hlive j).mp hj
    obtain ⟨q, hq⟩ := t.home j hj
    refine ⟨q, ?_⟩
    by_cases hqp : q = p
    · subst hqp
      rw [update_self]
      exact (List.mem_erase_of_ne hjn).mpr hq
    · rwa [update_of_ne hqp]
  · intro q c hc
    have hcq := (hsub q).subset hc
    have hqn := howner q c hcq
    obtain ⟨hdir, hq⟩ := t.owner q c hcq
    exact ⟨((congrArg Node64.isDir (hcore q hqn) :)).trans hdir,
      hq.imp_right fun h => (hlive q).mpr ⟨h, hqn⟩⟩
  · intro q
    exact pairwise_names (t.distinct q) (hsub q) fun c hc =>
      (congrArg Node64.name (hcore c (hne q c hc)) :)
  · intro q c hc
    rw [show (fs'.nodes c).name = (fs.nodes c).name from
      (congrArg Node64.name (hcore c (hne q c hc)) :)]
    exact t.proper q c ((hsub q).subset hc)
  · intro j hj
    -- no chain of parents meets `n`, which has no children
    obtain ⟨hj, hjn⟩ := (hlive j).mp hj
    refine toRoot_transfer (fun i => i ≠ n ∧ (i = ROOT ∨ fs.Live i)) (t.rooted j hj)
      ⟨hjn, .inr hj⟩ ?_
    rintro i q ⟨hin, hi⟩ hq
    have hilive : fs.Live i := by
      rcases hi with rfl | hi
      · rw [w.root.2.2] at hq
        exact absurd hq (by simp)
      · exact hi
    obtain ⟨hiq, hqlive⟩ := t.parent_live w hilive hq
    exact ⟨((congrArg Node64.parent (hcore i hin) :)).trans hq, howner q i hiq, hqlive⟩

theorem step_up (hj : j = ROOT ∨ fs.Live j) (hp : fs.parent j = some p) :
    fs.Live j ∧ j ∈ kids p ∧ (p = ROOT ∨ fs.Live p) := by
  have hlive : fs.Live j := by
    rcases hj with rfl | hj
    · rw [w.root.2.2] at hp
      exact absurd hp (by simp)
    · exact hj
  exact ⟨hlive, t.parent_live w hlive hp⟩

/-- A new node on the list of a directory. -/
theorem add {i : Nat} (hp : p = ROOT ∨ fs.Live p) (hdir : (fs.nodes p).isDir = true)
    (hunused : (fs.nodes i).used = false) (hname : ProperName (fs'.nodes i).name)
    (habsent : ∀ c ∈ kids p, (fs.nodes c).name ≠ (fs'.nodes i).name)
    (hlive : fs'.Live i) (hparent : fs'.parent i = some p)
    (hcore : ∀ j, j ≠ i → (fs'.nodes j).core = (fs.nodes j).core) :
    Shaped fs' (update kids p (i :: kids p)) := by
  have hold : ∀ q, ∀ c ∈ kids q, c ≠ i := by
    rintro q c hc rfl
    exact w.unused_not_kid hunused q hc
  have hmem : ∀ q c, c ∈ update kids p (i :: kids p) q ↔
      (c = i ∧ q = p) ∨ c ∈ kids q := by
    intro q c
    by_cases hq : q = p
    · subst hq; simp
    · simp [hq]
  have hpi : p ≠ i := by
    rintro rfl
    rcases hp with rfl | hp
    · exact absurd w.root.1 (by simp [hunused])
    · exact absurd hp.used (by simp [hunused])
  have hupper : ∀ q, q ≠ i → (q = ROOT ∨ fs.Live q) → q = ROOT ∨ fs'.Live q := fun q hq h =>
    h.imp_right (live_of_core (hcore q hq)).mpr
  have hnames : ∀ q, ∀ c ∈ kids q, (fs'.nodes c).name = (fs.nodes c).name := fun q c hc =>
    (congrArg Node64.name (hcore c (hold q c hc)) :)
  have hchain : ∀ j, j ≠ i → (j = ROOT ∨ fs.Live j) → ToRoot fs'.parent j := by
    intro j hji hj
    refine toRoot_transfer (fun k => k ≠ i ∧ (k = ROOT ∨ fs.Live k)) (t.toRoot hj) ⟨hji, hj⟩ ?_
    rintro k q ⟨hki, hk⟩ hq
    obtain ⟨-, hkq, hqlive⟩ := t.step_up w hk hq
    refine ⟨((congrArg Node64.parent (hcore k hki) :)).trans hq, ?_, hqlive⟩
    rintro rfl
    rw [w.kids_of_unused hunused] at hkq
    exact absurd hkq List.not_mem_nil
  constructor
  · intro j hj
    by_cases hji : j = i
    · exact ⟨p, (hmem p j).mpr (.inl ⟨hji, rfl⟩)⟩
    · obtain ⟨q, hq⟩ := t.home j ((live_of_core (hcore j hji)).mp hj)
      exact ⟨q, (hmem q j).mpr (.inr hq)⟩
  · intro q c hc
    rcases (hmem q c).mp hc with ⟨-, rfl⟩ | hcq
    · exact ⟨((congrArg Node64.isDir (hcore q hpi) :)).trans hdir, hupper q hpi hp⟩
    · obtain ⟨hqdir, hq⟩ := t.owner q c hcq
      have hqi : q ≠ i := by
        rintro rfl
        rw [w.kids_of_unused hunused] at hcq
        exact absurd hcq List.not_mem_nil
      exact ⟨((congrArg Node64.isDir (hcore q hqi) :)).trans hqdir, hupper q hqi hq⟩
  · intro q
    have hrest := pairwise_names (t.distinct q) (List.Sublist.refl _) (hnames q)
    by_cases hq : q = p
    · subst hq
      rw [update_self]
      refine List.pairwise_cons.mpr ⟨fun c hc => ?_, hrest⟩
      rw [hnames q c hc]
      exact Ne.symm (habsent c hc)
    · rwa [update_of_ne hq]
  · intro q c hc
    rcases (hmem q c).mp hc with ⟨rfl, -⟩ | hc
    · exact hname
    · rw [hnames q c hc]
      exact t.proper q c hc
  · intro j hj
    by_cases hji : j = i
    · subst hji
      exact ToRoot.up hparent (hchain p hpi hp)
    · exact hchain j hji (.inr ((live_of_core (hcore j hji)).mp hj))

/-- A node goes to another list, under another name. The new parent is not
below it: the chain of parents from there does not meet it. -/
theorem move {dst : Nat} {name : List UInt8} (hsrc : src ∈ kids p)
    (hdst : dst = ROOT ∨ fs.Live dst) (hdir : (fs.nodes dst).isDir = true)
    (hname : ProperName name) (habsent : ∀ c ∈ kids dst, c ≠ src → (fs.nodes c).name ≠ name)
    (habove : ∃ l, Links fs.parent (some dst) l ∧ src ∉ l)
    (hself : (fs'.nodes src).core = { (fs.nodes src).core with name := name, parent := some dst })
    (hcore : ∀ j, j ≠ src → (fs'.nodes j).core = (fs.nodes j).core) :
    Shaped fs' (update (update kids p ((kids p).erase src)) dst
      (src :: update kids p ((kids p).erase src) dst)) := by
  have hsub : ∀ q, (update kids p ((kids p).erase src) q).Sublist (kids q) := by
    intro q
    by_cases hq : q = p
    · subst hq; rw [update_self]; exact List.erase_sublist
    · rw [update_of_ne hq]
  have hkept : ∀ q c, c ∈ update kids p ((kids p).erase src) q ↔
      c ≠ src ∧ c ∈ kids q := by
    intro q c
    by_cases hq : q = p
    · subst hq
      rw [update_self, (w.kidsLinks q).nodup.mem_erase_iff]
    · rw [update_of_ne hq]
      refine ⟨fun hc => ⟨?_, hc⟩, And.right⟩
      rintro rfl
      exact hq (w.kid_unique hc hsrc)
  generalize update kids p ((kids p).erase src) = rest at hsub hkept
  have hmem : ∀ q c, c ∈ update rest dst (src :: rest dst) q ↔
      (c = src ∧ q = dst) ∨ (c ≠ src ∧ c ∈ kids q) := by
    intro q c
    rw [← hkept]
    by_cases hq : q = dst
    · subst hq; simp
    · simp [hq]
  have hlive : ∀ j, fs'.Live j ↔ fs.Live j := by
    intro j
    by_cases hj : j = src
    · subst hj
      have hused : (fs'.nodes j).used = (fs.nodes j).used := (congrArg Node64.used hself :)
      have hnamed : (fs'.nodes j).unlinked = (fs.nodes j).unlinked :=
        (congrArg Node64.unlinked hself :)
      have hold := (w.kid p j hsrc).1
      exact ⟨fun _ => hold, fun _ => ⟨hused.trans hold.used, hnamed.trans hold.named, hold.ne⟩⟩
    · exact live_of_core (hcore j hj)
  have hdirs : ∀ q, (fs'.nodes q).isDir = (fs.nodes q).isDir := by
    intro q
    by_cases hq : q = src
    · subst hq; exact (congrArg Node64.isDir hself :)
    · exact (congrArg Node64.isDir (hcore q hq) :)
  have hnames : ∀ c, c ≠ src → (fs'.nodes c).name = (fs.nodes c).name := fun c hc =>
    (congrArg Node64.name (hcore c hc) :)
  have hsrcName : (fs'.nodes src).name = name := (congrArg Node64.name hself :)
  have hsrcParent : fs'.parent src = some dst := (congrArg Node64.parent hself :)
  have hother : ∀ j, j ≠ src → fs'.parent j = fs.parent j := fun j hj =>
    (congrArg Node64.parent (hcore j hj) :)
  have hup : ToRoot fs'.parent dst := by
    refine toRoot_transfer (fun k => ∃ l, Links fs.parent (some k) l ∧ src ∉ l)
      (t.toRoot hdst) habove ?_
    rintro k q ⟨l, hl, hsl⟩ hq
    obtain ⟨x, xs, rfl⟩ := List.exists_cons_of_ne_nil hl.ne_nil
    obtain rfl : k = x := Option.some.inj hl.1
    rw [List.mem_cons, not_or] at hsl
    exact ⟨(hother k (Ne.symm hsl.1)).trans hq, xs, hq ▸ hl.2, hsl.2⟩
  constructor
  · intro j hj
    by_cases hjs : j = src
    · exact ⟨dst, (hmem dst j).mpr (.inl ⟨hjs, rfl⟩)⟩
    · obtain ⟨q, hq⟩ := t.home j ((hlive j).mp hj)
      exact ⟨q, (hmem q j).mpr (.inr ⟨hjs, hq⟩)⟩
  · intro q c hc
    rw [hdirs, hlive]
    rcases (hmem q c).mp hc with ⟨-, rfl⟩ | ⟨-, hc⟩
    · exact ⟨hdir, hdst⟩
    · exact t.owner q c hc
  · intro q
    have hrest := pairwise_names (t.distinct q) (hsub q)
      fun c hc => hnames c ((hkept q c).mp hc).1
    by_cases hq : q = dst
    · subst hq
      rw [update_self]
      refine List.pairwise_cons.mpr ⟨fun c hc => ?_, hrest⟩
      obtain ⟨hcs, hc⟩ := (hkept q c).mp hc
      rw [hsrcName, hnames c hcs]
      exact Ne.symm (habsent c hc hcs)
    · rwa [update_of_ne hq]
  · intro q c hc
    rcases (hmem q c).mp hc with ⟨rfl, -⟩ | ⟨hcs, hc⟩
    · rw [hsrcName]
      exact hname
    · rw [hnames c hcs]
      exact t.proper q c hc
  · intro j hj
    have hchain := t.rooted j ((hlive j).mp hj)
    clear hj
    -- up the old chain, which turns off to `dst` where it meets `src`
    induction hchain with
    | root => exact ToRoot.root
    | @up j q hq _ ih =>
      by_cases hjs : j = src
      · subst hjs
        exact ToRoot.up hsrcParent hup
      · exact ToRoot.up ((hother j hjs).trans hq) ih

variable {l : List Nat}

theorem chain_live (hj : j = ROOT ∨ fs.Live j)
    (hl : Links fs.parent (some j) l) : ∀ x ∈ l, x = ROOT ∨ fs.Live x := by
  induction l generalizing j with
  | nil => exact fun x hx => absurd hx List.not_mem_nil
  | cons y ys ih =>
    obtain rfl : j = y := Option.some.inj hl.1
    intro x hx
    rcases List.mem_cons.mp hx with rfl | hx
    · exact hj
    · cases hp : fs.parent j with
      | none =>
        have hnil := (hp ▸ hl.2).eq_nil
        exact absurd hx (by simp [hnil])
      | some p => exact ih (t.step_up w hj hp).2.2 (hp ▸ hl.2) x hx

theorem chain_dirs (hj : j = ROOT ∨ fs.Live j)
    (hdir : (fs.nodes j).isDir = true) (hl : Links fs.parent (some j) l) :
    ∀ x ∈ l, (fs.nodes x).isDir = true := by
  induction l generalizing j with
  | nil => exact fun x hx => absurd hx List.not_mem_nil
  | cons y ys ih =>
    obtain rfl : j = y := Option.some.inj hl.1
    intro x hx
    rcases List.mem_cons.mp hx with rfl | hx
    · exact hdir
    · cases hp : fs.parent j with
      | none =>
        have hnil := (hp ▸ hl.2).eq_nil
        exact absurd hx (by simp [hnil])
      | some p =>
        obtain ⟨-, hjp, hplive⟩ := t.step_up w hj hp
        exact ih hplive (t.owner p j hjp).1 (hp ▸ hl.2) x hx

omit t in
theorem not_mem_chain {h : Option Nat} (hsrc : src ≠ ROOT)
    (hl : Links fs.parent h l)
    (hfind : l.find? (fun a => a == src || a == ROOT) ≠ some src) : src ∉ l := by
  induction l generalizing h with
  | nil => exact List.not_mem_nil
  | cons x xs ih =>
    by_cases hxs : x = src
    · subst hxs
      exact absurd (by simp) hfind
    · by_cases hxr : x = ROOT
      · subst hxr
        have hnil := (w.root.2.2 ▸ hl.2).eq_nil
        simp [hnil, hsrc]
      · have hne : (x == src || x == ROOT) = false := by simp [hxs, hxr]
        rw [List.find?_cons_of_neg (by simp [hne])] at hfind
        rw [List.mem_cons, not_or]
        exact ⟨Ne.symm hxs, ih hl.2 hfind⟩

theorem chain (hj : j = ROOT ∨ fs.Live j) : ∃ l, Links fs.parent (some j) l := by
  induction t.toRoot hj with
  | root => exact ⟨[ROOT], rfl, w.root.2.2⟩
  | up hp _ ih =>
    obtain ⟨l, hl⟩ := ih (t.step_up w hj hp).2.2
    exact ⟨_ :: l, rfl, hp ▸ hl⟩

theorem above {dst : Nat} (hsrc : src ≠ ROOT) (hdst : dst = ROOT ∨ fs.Live dst)
    (hdir : (fs.nodes dst).isDir = true)
    (hcheck : ((fs.nodes src).isDir && inSubtree fs src dst) = false) :
    ∃ l, Links fs.parent (some dst) l ∧ src ∉ l := by
  obtain ⟨l, hl⟩ := t.chain w hdst
  refine ⟨l, hl, ?_⟩
  cases hkind : (fs.nodes src).isDir with
  | false =>
    intro hmem
    exact absurd (t.chain_dirs w hdst hdir hl src hmem) (by simp [hkind])
  | true =>
    rw [hkind, Bool.true_and, inSubtree] at hcheck
    have hlt : ∀ x ∈ l, x < RAMFS64_MAX_NODES := by
      intro x hx
      rcases t.chain_live w hdst hl x hx with rfl | hlive
      · exact w.bound ROOT w.root.1
      · exact w.bound x hlive.used
    rw [seek_eq_find? _ hl (hl.length_le hlt)] at hcheck
    exact not_mem_chain w hsrc hl (by simpa using hcheck)

theorem isTree : IsTree fs := by
  constructor
  · intro i hi
    obtain ⟨p, hp⟩ := t.home i hi
    refine ⟨p, kids p, (w.kid p i hp).2, w.owner p (List.ne_nil_of_mem hp), (t.owner p i hp).1,
      w.kidsLinks p, List.count_eq_one_of_mem (w.kidsLinks p).nodup hp, ?_⟩
    intro q l hl hmem
    rw [hl.unique (w.kidsLinks q)] at hmem
    exact w.kid_unique hmem hp
  · intro p _ hfirst
    obtain ⟨c, hc⟩ := Option.ne_none_iff_exists'.mp hfirst
    exact (t.owner p c (w.kids_of_firstChild_some hc)).1
  · exact t.rooted
  · intro p _
    refine ⟨kids p, w.kidsLinks p, ?_, t.proper p⟩
    exact List.pairwise_map.mpr (t.distinct p)
  · exact ⟨free, w.freeLinks, w.freeLinks.nodup, w.mem_free⟩
  · have hperm : free.Perm ((List.range RAMFS64_MAX_NODES).filter
        fun i => !(fs.nodes i).used) := by
      refine (List.perm_ext_iff_of_nodup w.freeLinks.nodup
        (List.nodup_range.filter _)).mpr fun i => ?_
      rw [w.mem_free, List.mem_filter, List.mem_range]
      simp
    have hsplit := List.length_eq_length_filter_add
      (l := List.range RAMFS64_MAX_NODES) (fun i => (fs.nodes i).used)
    have hcount := w.count
    rw [hperm.length_eq] at hcount
    rw [List.length_range] at hsplit
    omega

end Shaped

/-! ## What each call keeps -/

/-- The lists are in order and make a tree. -/
def Tidy (fs : Fs) : Prop := ∃ kids free, Wired fs kids free ∧ Shaped fs kids

variable {fs : Fs}

theorem Tidy.isTree (h : Tidy fs) : IsTree fs := by
  obtain ⟨kids, free, w, t⟩ := h
  exact t.isTree w

section

variable {fs : Fs} {kids : Nat → List Nat} {free : List Nat} (w : Wired fs kids free)
  (t : Shaped fs kids)
include w t

variable {p n : Nat}

theorem shaped_make {path name : List UInt8} {isDir : Bool} {i : Nat} {fs' : Fs}
    (m : Makes fs kids path isDir p i name fs') (hok : LinkOk fs path) :
    Shaped fs' (update kids p (i :: kids p)) := by
  obtain ⟨hdir, hdot, hdotdot⟩ := hok p name m.walked m.absent m.room
  have hp := m.reached.used w
  obtain ⟨-, hunused, hfresh, hcore⟩ := w.alloc hp m.alloc
  have hname : (fs'.nodes i).name = name := by
    have htake : (fs'.nodes i).name = name.take (RAMFS64_NAME_MAX - 1) :=
      (congrArg Node64.name hfresh :)
    rw [htake, m.component.take_eq]
  refine t.add w (Shaped.reached_live w m.reached) hdir hunused ?_ ?_ ⟨?_, ?_, ?_⟩ ?_ hcore
  · rw [hname]
    exact ⟨m.component.ne_nil, m.component.no_slash, hdot, hdotdot⟩
  · intro c hc
    rw [hname]
    exact findChild_none w hp hdir m.absent c hc
  · exact (congrArg Node64.used hfresh :)
  · exact (congrArg Node64.unlinked hfresh :)
  · rintro rfl
    exact absurd w.root.1 (by simp [hunused])
  · exact (congrArg Node64.parent hfresh :)

theorem tidy_create (path : List UInt8) (isDir : Bool) (hok : LinkOk fs path) :
    Tidy (ramfs64Create fs path isDir).2 := by
  rcases create_cases w path isDir with hsame | ⟨p, i, name, m⟩
  · rw [hsame]
    exact ⟨kids, free, w, t⟩
  · exact ⟨_, _, (w.alloc (m.reached.used w) m.alloc).1, shaped_make w t m hok⟩

theorem tidy_mkdirp (path : List UInt8)
    (hok : path.head? = some SLASH → MkdirpOk LinkOk (path.length + 1) fs [SLASH] path) :
    Tidy (ramfs64Mkdirp fs path).2 := by
  rw [ramfs64Mkdirp]
  split
  · rename_i hslash
    refine mkdirpFrom_keeps LinkOk ?_ _ _ _ _ _ ⟨kids, free, w, t⟩ (hok hslash)
    rintro fs' path' ⟨kids', free', w', t'⟩ hlink
    exact tidy_create w' t' path' true hlink
  · exact ⟨kids, free, w, t⟩

omit w in
theorem kids_of_file (hfile : (fs.nodes n).isDir = false) : kids n = [] := by
  by_contra hne
  obtain ⟨c, cs, hc⟩ := List.exists_cons_of_ne_nil hne
  have := (t.owner n c (by simp [hc])).1
  exact absurd this (by simp [hfile])

theorem tidy_drop (hn : n ∈ kids p) (hnil : kids n = []) :
    ∃ free', Wired (dropName fs n) (update kids p ((kids p).erase n)) free' ∧
      Shaped (dropName fs n) (update kids p ((kids p).erase n)) := by
  obtain ⟨⟨kids', free', w', hkids, -⟩, hunlinked, -, -, hcore⟩ := w.drop hn
  rw [hkids hnil] at w'
  refine ⟨free', w', t.remove w hn hnil hcore fun hlive => ?_⟩
  exact absurd hlive.named (by simp [hunlinked])

theorem tidy_unlink (path : List UInt8) : Tidy (ramfs64Unlink fs path).2 := by
  rcases unlink_cases w path with hsame | ⟨n, p, hn, hfile, hdone⟩
  · rw [hsame]
    exact ⟨kids, free, w, t⟩
  · obtain ⟨free', w', t'⟩ := tidy_drop w t hn (kids_of_file t hfile)
    rw [hdone]
    exact ⟨_, free', w', t'⟩

theorem tidy_free (hn : n ∈ kids p) (hnil : kids n = []) : Tidy (freeNode fs n) := by
  obtain ⟨w', hgone, hcore⟩ := w.freed hn hnil
  refine ⟨_, _, w', t.remove w hn hnil hcore fun hlive => ?_⟩
  exact absurd hlive.used (by simp [hgone])

theorem tidy_rmdir (path : List UInt8) : Tidy (ramfs64Rmdir fs path).2 := by
  rcases rmdir_cases w path with hsame | ⟨n, p, -, hn, -, hempty, hdone⟩
  · rw [hsame]
    exact ⟨kids, free, w, t⟩
  · rw [hdone]
    exact tidy_free w t hn (w.kids_of_firstChild_none hempty)

omit w in
theorem Shaped.congr {fs' : Fs} (hsame : ∀ i, (fs'.nodes i).wires = (fs.nodes i).wires)
    (hname : ∀ i, (fs'.nodes i).name = (fs.nodes i).name) : Shaped fs' kids := by
  have hlive : ∀ i, fs'.Live i ↔ fs.Live i := by
    intro i
    have hused : (fs'.nodes i).used = (fs.nodes i).used := congrArg Wires.used (hsame i)
    have hnamed : (fs'.nodes i).unlinked = (fs.nodes i).unlinked :=
      congrArg Wires.unlinked (hsame i)
    constructor
    · rintro ⟨hu, hn, hi⟩
      exact ⟨hused ▸ hu, hnamed ▸ hn, hi⟩
    · rintro ⟨hu, hn, hi⟩
      exact ⟨by rw [hused]; exact hu, by rw [hnamed]; exact hn, hi⟩
  have hdir : ∀ i, (fs'.nodes i).isDir = (fs.nodes i).isDir :=
    fun i => congrArg Wires.isDir (hsame i)
  have hparent : fs'.parent = fs.parent := funext fun i => congrArg Wires.parent (hsame i)
  constructor
  · exact fun i hi => t.home i ((hlive i).mp hi)
  · intro p c hc
    rw [hdir, hlive]
    exact t.owner p c hc
  · exact fun p => pairwise_names (t.distinct p) (List.Sublist.refl _) fun c _ => hname c
  · intro p c hc
    rw [hname]
    exact t.proper p c hc
  · intro i hi
    rw [hparent]
    exact t.rooted i ((hlive i).mp hi)

theorem tidy_symlink (env : Env) (path target : List UInt8)
    (hok : target ≠ [] → target.length < RAMFS64_PATH_MAX → LinkOk fs path) :
    Tidy (ramfs64Symlink env fs path target).2 := by
  rcases symlink_cases w env path target with hsame |
    ⟨p, i, name, fs', d, c, n, hempty, hlong, m, hdone⟩
  · rw [hsame]
    exact ⟨kids, free, w, t⟩
  · have w' := m.wired w true d c n
    have t' : Shaped (fs'.modify i fun _ =>
        { fs'.nodes i with isLink := true, data := d, capacity := c, size := n })
        (update kids p (i :: kids p)) := by
      refine (shaped_make w t m (hok hempty hlong)).congr ?_ ?_
      all_goals
        intro j
        by_cases hj : j = i
        · subst hj; simp [Node64.wires]
        · simp [hj]
    rcases hdone with hdone | hdone
    · rw [hdone]
      exact ⟨_, _, w', t'⟩
    · rw [hdone]
      exact tidy_free w' t' (p := p) (by simp) (m.kids_nil w)

theorem tidy_move {src dst : Nat} {name : List UInt8} (hsrc : src ∈ kids p)
    (hdst : dst = ROOT ∨ fs.Live dst) (hlink : Linkable fs dst name) (hcomp : Component name)
    (habsent : ∀ c ∈ kids dst, c ≠ src → (fs.nodes c).name ≠ name)
    (hcheck : ((fs.nodes src).isDir && inSubtree fs src dst) = false) :
    Tidy (moveNode fs src dst name) := by
  obtain ⟨hdir, hdot, hdotdot⟩ := hlink
  have hused : (fs.nodes dst).used = true := by
    rcases hdst with rfl | hlive
    · exact w.root.1
    · exact hlive.used
  obtain ⟨w', hself, hcore⟩ := w.move name hsrc hused
  rw [hcomp.take_eq] at hself
  exact ⟨_, _, w', t.move w hsrc hdst hdir ⟨hcomp.ne_nil, hcomp.no_slash, hdot, hdotdot⟩ habsent
    (t.above w (w.kid_ne_root hsrc) hdst hdir hcheck) hself hcore⟩

theorem tidy_rename (oldpath newpath : List UInt8)
    (hok : ∀ src dst name, ramfs64LookupNofollow fs oldpath = some src →
      walk fs newpath true true = some (dst, name) → findChild fs dst name = none →
      ((fs.nodes src).isDir && inSubtree fs src dst) = false → Linkable fs dst name) :
    Tidy (ramfs64Rename fs oldpath newpath).2 := by
  rcases rename_cases w oldpath newpath with hsame | ⟨src, p, dst, name, fs', r, hdone⟩
  · rw [hsame]
    exact ⟨kids, free, w, t⟩
  · have hdst := Shaped.reached_live w r.reached
    rcases r.cleared with ⟨habsent, rfl⟩ | ⟨e, hes, hfind, hkind, hempty, rfl⟩
    · rcases hdone with ⟨-, hdone⟩ | ⟨hcheck, hdone⟩
      · rw [hdone]
        exact ⟨kids, free, w, t⟩
      · rw [hdone]
        have hlink := hok src dst name r.found r.walked habsent hcheck
        refine tidy_move w t r.kid hdst hlink r.component (fun c hc _ => ?_) hcheck
        exact findChild_none w (r.reached.used w) hlink.1 habsent c hc
    · -- the name is taken: by a node without children, which goes first
      obtain ⟨hdir, he, hname⟩ := findChild_some w hfind
      have hnil : kids e = [] := by
        cases hedir : (fs.nodes e).isDir with
        | false => exact kids_of_file t hedir
        | true => exact w.kids_of_firstChild_none (hempty hedir)
      obtain ⟨free', w', t'⟩ := tidy_drop w t he hnil
      obtain ⟨-, -, -, -, hcore⟩ := w.drop he
      rcases hdone with ⟨-, hdone⟩ | ⟨hcheck, hdone⟩
      · rw [hdone]
        exact ⟨_, free', w', t'⟩
      · rw [hdone]
        have hde : dst ≠ e := by
          rintro rfl
          exact r.reached.not_self_parent w he
        have hproper := hname ▸ t.proper dst e he
        refine tidy_move w' t' (p := p) ?_ (hdst.imp_right (live_of_core (hcore dst hde)).mpr)
          ⟨((congrArg Node64.isDir (hcore dst hde) :)).trans hdir, hproper.ne_dot,
            hproper.ne_dotdot⟩ r.component ?_ hcheck
        · by_cases hpd : p = dst
          · subst hpd
            rw [update_self]
            exact (List.mem_erase_of_ne (Ne.symm hes)).mpr r.kid
          · rw [update_of_ne hpd]
            exact r.kid
        · intro c hc _
          rw [update_self] at hc
          obtain ⟨hce, hc⟩ := ((w.kidsLinks dst).nodup.mem_erase_iff).mp hc
          rw [show ((dropName fs e).nodes c).name = (fs.nodes c).name from
            (congrArg Node64.name (hcore c hce) :), ← hname]
          have hsymm : Std.Symm fun a b => (fs.nodes a).name ≠ (fs.nodes b).name :=
            ⟨fun _ _ h => Ne.symm h⟩
          exact (t.distinct dst).forall hc he hce

theorem tidy_refNode (node : Int) : Tidy (ramfs64RefNode fs node) := by
  rw [ramfs64RefNode]
  split
  · refine ⟨kids, free, w.congr rfl rfl ?_, t.congr ?_ ?_⟩
    all_goals
      intro i
      by_cases hi : i = node.toNat
      · subst hi; simp [Node64.wires]
      · simp [hi]
  · exact ⟨kids, free, w, t⟩

theorem tidy_release (hused : (fs.nodes n).used = true)
    (hunlinked : (fs.nodes n).unlinked = true) : Tidy (releaseNode fs n) := by
  have hroot : n ≠ ROOT := fun hn => by simp [hn, w.rootNamed] at hunlinked
  have hdead : ¬ fs.Live n := fun hlive => absurd hlive.named (by simp [hunlinked])
  have hkid : ∀ p, n ∉ kids p := fun p hp => hdead (w.kid p n hp).1
  have hnil : kids n = [] := by
    by_contra hne
    obtain ⟨c, cs, hc⟩ := List.exists_cons_of_ne_nil hne
    rcases (t.owner n c (by simp [hc])).2 with h | h
    · exact hroot h
    · exact hdead h
  have hkids : update kids n [] = kids := by
    rw [Function.update_eq_self_iff, hnil]
  have w' := w.release hroot hused hkid
  rw [hkids] at w'
  have hcore : ∀ i, i ≠ n → ((releaseNode fs n).nodes i).core = (fs.nodes i).core :=
    fun i hi => by simp [releaseNode, hi]
  have hlive : ∀ i, (releaseNode fs n).Live i → i ≠ n ∧ fs.Live i := by
    intro i hi
    have hin : i ≠ n := fun hin => absurd hi.used (by simp [hin, releaseNode])
    exact ⟨hin, (live_of_core (hcore i hin)).mp hi⟩
  refine ⟨kids, _, w', ?_, ?_, ?_, ?_, ?_⟩
  · exact fun i hi => t.home i (hlive i hi).2
  · intro p c hc
    have hpn : p ≠ n := by
      rintro rfl
      rw [hnil] at hc
      exact absurd hc List.not_mem_nil
    obtain ⟨hdir, hp⟩ := t.owner p c hc
    exact ⟨((congrArg Node64.isDir (hcore p hpn) :)).trans hdir,
      hp.imp_right (live_of_core (hcore p hpn)).mpr⟩
  · intro p
    refine pairwise_names (t.distinct p) (List.Sublist.refl _) fun c hc => ?_
    exact (congrArg Node64.name (hcore c fun h => hkid p (h ▸ hc)) :)
  · intro p c hc
    rw [show ((releaseNode fs n).nodes c).name = (fs.nodes c).name from
      (congrArg Node64.name (hcore c fun h => hkid p (h ▸ hc)) :)]
    exact t.proper p c hc
  · intro i hi
    have hparent : (releaseNode fs n).parent = fs.parent := by
      funext j
      by_cases hj : j = n
      · subst hj; simp [Fs.parent, releaseNode]
      · simp [Fs.parent, releaseNode, hj]
    rw [hparent]
    exact t.rooted i (hlive i hi).2

theorem tidy_unrefNode (node : Int) : Tidy (ramfs64UnrefNode fs node) := by
  rw [ramfs64UnrefNode]
  split
  · rename_i hvalid
    obtain ⟨n, rfl⟩ : ∃ n : Nat, node = n := by
      cases node with
      | ofNat n => exact ⟨n, rfl⟩
      | negSucc k => exact absurd hvalid (by simp [valid])
    rw [valid_natCast, Bool.and_eq_true] at hvalid
    rw [Int.toNat_natCast]
    dsimp only
    generalize hfs' : fs.modify n (fun nd => { nd with openers := nd.openers - 1 }) = fs'
    have hwires : ∀ i, (fs'.nodes i).wires = (fs.nodes i).wires := by
      intro i
      rw [← hfs']
      by_cases hi : i = n
      · subst hi; simp [Node64.wires]
      · simp [hi]
    have hname : ∀ i, (fs'.nodes i).name = (fs.nodes i).name := by
      intro i
      rw [← hfs']
      by_cases hi : i = n
      · subst hi; simp
      · simp [hi]
    have w' : Wired fs' kids free := w.congr (by rw [← hfs']; rfl) (by rw [← hfs']; rfl) hwires
    have t' : Shaped fs' kids := t.congr hwires hname
    split
    · rename_i hlast
      rw [Bool.and_eq_true] at hlast
      exact tidy_release w' t' ((congrArg Wires.used (hwires n)).trans hvalid.2) hlast.2
    · exact ⟨kids, free, w', t'⟩
  · exact ⟨kids, free, w, t⟩

end

theorem Tidy.call {fs : Fs} (h : Tidy fs) {op : TreeOp} (hok : TreeOk fs op) :
    Tidy (treeCall fs op).1 := by
  obtain ⟨kids, free, w, t⟩ := h
  cases op with
  | create path isDir => exact tidy_create w t (cstr path) isDir hok
  | mkdirp path => exact tidy_mkdirp w t (cstr path) hok
  | symlink env path target => exact tidy_symlink w t env (cstr path) (cstr target) hok
  | rename oldpath newpath => exact tidy_rename w t (cstr oldpath) (cstr newpath) hok
  | unlink path => exact tidy_unlink w t (cstr path)
  | rmdir path => exact tidy_rmdir w t (cstr path)
  | refNode node => exact tidy_refNode w t node
  | unrefNode node => exact tidy_unrefNode w t node

/-! ## The tree `ramfs64_init` makes -/

section

variable {name : List UInt8} (h : Component name) (rest : List UInt8)
include h

theorem Component.dropWhile_slash : (SLASH :: (name ++ rest)).dropWhile (· == SLASH) =
    name ++ rest := by
  rw [List.dropWhile_cons_of_pos (by simp)]
  obtain ⟨b, bs, rfl⟩ := List.exists_cons_of_ne_nil h.ne_nil
  have hb : (b == SLASH) = false := by
    have := h.no_slash
    simp only [List.mem_cons, not_or] at this
    simpa using Ne.symm this.1
  rw [List.cons_append, List.dropWhile_cons_of_neg (by simp [hb])]

theorem Component.all_ne_slash : ∀ b ∈ name, (b != SLASH) = true := by
  intro b hb
  have : b ≠ SLASH := fun hbs => h.no_slash (hbs ▸ hb)
  simpa using this

theorem Component.takeWhile_eq (hrest : rest = [] ∨ ∃ r, rest = SLASH :: r) :
    (name ++ rest).takeWhile (· != SLASH) = name := by
  rw [List.takeWhile_append_of_pos h.all_ne_slash]
  rcases hrest with rfl | ⟨r, rfl⟩ <;> simp

theorem Component.dropWhile_eq (hrest : rest = [] ∨ ∃ r, rest = SLASH :: r) :
    (name ++ rest).dropWhile (· != SLASH) = rest := by
  rw [List.dropWhile_append_of_pos h.all_ne_slash]
  rcases hrest with rfl | ⟨r, rfl⟩ <;> simp

theorem Component.isEmpty_append : (name ++ rest).isEmpty = false := by
  obtain ⟨b, bs, rfl⟩ := List.exists_cons_of_ne_nil h.ne_nil
  rfl

theorem scan_last (fs : Fs) (followFinal : Bool) (fuel node : Nat) :
    scan fs true followFinal (fuel + 1) node (SLASH :: name) = .parent node name := by
  have hdrop : (SLASH :: name).dropWhile (· == SLASH) = name := by
    simpa using h.dropWhile_slash []
  have htake : name.takeWhile (· != SLASH) = name := by
    simpa using h.takeWhile_eq [] (.inl rfl)
  have hnone : name.dropWhile (· != SLASH) = [] := by
    simpa using h.dropWhile_eq [] (.inl rfl)
  have hne : name.isEmpty = false := by simpa using h.isEmpty_append []
  have hfits := h.fits
  rw [scan]
  simp only [hdrop, hne, htake, hnone, List.dropWhile_nil, List.isEmpty_nil, Bool.and_self,
    if_true, Bool.false_eq_true, if_false, ge_iff_le, Nat.not_le.mpr hfits]

theorem walk_top (fs : Fs) : walk fs (SLASH :: name) true true = some (ROOT, name) := by
  rw [walk, List.head?_cons, if_pos rfl, walkFrom, scan_last h]

theorem walk_below {dir : List UInt8} (hdir : Component dir) (hproper : ProperName dir) (fs : Fs)
    (hlink : ∀ d, findChild fs ROOT dir = some d → (fs.nodes d).isLink = false) :
    walk fs (SLASH :: (dir ++ SLASH :: name)) true true =
      (findChild fs ROOT dir).map fun d => (d, name) := by
  have hsep : (SLASH :: name : List UInt8) = [] ∨ ∃ r, SLASH :: name = SLASH :: r := .inr ⟨_, rfl⟩
  have hmore : ((SLASH :: name).dropWhile (· == SLASH)).isEmpty = false := by
    have hdrop := h.dropWhile_slash []
    rw [List.append_nil] at hdrop
    rw [hdrop]
    simpa using h.isEmpty_append []
  have hlen : (SLASH :: (dir ++ SLASH :: name)).length = dir.length + name.length + 1 + 1 := by
    simp only [List.length_cons, List.length_append]
    omega
  rw [walk, List.head?_cons, if_pos rfl, walkFrom, scan, hdir.dropWhile_slash]
  simp only [hdir.isEmpty_append, hdir.takeWhile_eq _ hsep, hdir.dropWhile_eq _ hsep, hmore,
    Bool.false_and, Bool.false_eq_true, if_false, hproper.ne_dot, hproper.ne_dotdot, hlen]
  cases hfind : findChild fs ROOT dir with
  | none => rfl
  | some d =>
    simp only [hlink d hfind, Bool.false_and, Bool.false_eq_true, if_false, scan_last h]
    rfl

end

/-- What is in the root directory while `ramfs64_init` fills it: directories. -/
def Seeded (fs : Fs) : Prop := ∃ kids free, Wired fs kids free ∧ Shaped fs kids ∧
  ∀ c ∈ kids ROOT, (fs.nodes c).isDir = true ∧ (fs.nodes c).isLink = false

theorem Seeded.tidy (h : Seeded fs) : Tidy fs := by
  obtain ⟨kids, free, w, t, -⟩ := h
  exact ⟨kids, free, w, t⟩

theorem Seeded.sameTree {fs' : Fs} (h : Seeded fs) (hsame : SameTree fs fs') : Seeded fs' := by
  obtain ⟨kids, free, w, t, htop⟩ := h
  refine ⟨kids, free, hsame.wired w, t.congr hsame.wires hsame.name, fun c hc => ?_⟩
  rw [hsame.isLink, show (fs'.nodes c).isDir = (fs.nodes c).isDir from
    congrArg Wires.isDir (hsame.wires c)]
  exact htop c hc

theorem Seeded.create (h : Seeded fs) {path : List UInt8} {isDir : Bool}
    (hok : LinkOk fs path)
    (hroot : ∀ p name, walk fs path true true = some (p, name) → p = ROOT → isDir = true) :
    Seeded (ramfs64Create fs path isDir).2 := by
  obtain ⟨kids, free, w, t, htop⟩ := h
  rcases create_cases w path isDir with hsame | ⟨p, i, name, m⟩
  · rw [hsame]
    exact ⟨kids, free, w, t, htop⟩
  · obtain ⟨w', hunused, hfresh, hcore⟩ := w.alloc (m.reached.used w) m.alloc
    refine ⟨_, _, w', shaped_make w t m hok, fun c hc => ?_⟩
    by_cases hci : c = i
    · subst hci
      refine ⟨?_, (congrArg Node64.isLink hfresh :)⟩
      have hp : p = ROOT := by
        by_contra hp
        rw [update_of_ne (Ne.symm hp)] at hc
        exact w.unused_not_kid hunused ROOT hc
      exact ((congrArg Node64.isDir hfresh :)).trans (hroot p name m.walked hp)
    · have hold : c ∈ kids ROOT := by
        by_cases hp : ROOT = p
        · subst hp
          exact (List.mem_cons.mp hc).resolve_left hci
        · rwa [update_of_ne hp] at hc
      obtain ⟨hdir, hlink⟩ := htop c hold
      exact ⟨((congrArg Node64.isDir (hcore c hci) :)).trans hdir,
        ((congrArg Node64.isLink (hcore c hci) :)).trans hlink⟩

variable {name : List UInt8}

theorem Seeded.linkOk_top (h : Seeded fs) (hname : Component name)
    (hproper : ProperName name) : LinkOk fs (SLASH :: name) := by
  obtain ⟨kids, free, w, -⟩ := h
  intro p name' hwalk _ _
  rw [walk_top hname] at hwalk
  cases hwalk
  exact ⟨w.root.2.1, hproper.ne_dot, hproper.ne_dotdot⟩

theorem Seeded.mkdirp (h : Seeded fs) (hname : Component name)
    (hproper : ProperName name) (hlen : name.length + 2 < RAMFS64_PATH_MAX) :
    Seeded (ramfs64Mkdirp fs (SLASH :: name)).2 := by
  have hdrop := hname.dropWhile_slash []
  have htake := hname.takeWhile_eq [] (.inl rfl)
  have hrest := hname.dropWhile_eq [] (.inl rfl)
  have hne := hname.isEmpty_append []
  rw [List.append_nil] at hdrop htake hrest hne
  have hshort : ¬ [SLASH].length + name.length + 1 ≥ RAMFS64_PATH_MAX := by
    rw [List.length_singleton]
    omega
  have hpath : (if [SLASH].length > 1 then [SLASH] ++ [SLASH] else [SLASH]) ++ name =
      SLASH :: name := rfl
  rw [ramfs64Mkdirp, List.head?_cons, if_pos rfl]
  refine mkdirpFrom_keeps (fun _ path => path = SLASH :: name) ?_ _ _ _ _ _ h ?_
  · rintro fs' path h' rfl
    refine h'.create (h'.linkOk_top hname hproper) fun p name' hwalk _ => rfl
  · rw [List.length_cons, MkdirpOk]
    simp only [hdrop, hne, htake, hrest, hshort, hpath, Bool.false_eq_true, if_false]
    cases ramfs64Lookup fs (SLASH :: name) with
    | some n => simp [MkdirpOk]
    | none =>
      refine ⟨trivial, ?_⟩
      split
      · trivial
      · simp [MkdirpOk]

theorem Seeded.create_below (h : Seeded fs) {dir : List UInt8}
    (hdir : Component dir) (hproper : ProperName dir) (hname : Component name)
    (hproper' : ProperName name) :
    Seeded (ramfs64Create fs (SLASH :: (dir ++ SLASH :: name)) false).2 := by
  obtain ⟨kids, free, w, t, htop⟩ := h
  have hwalk : walk fs (SLASH :: (dir ++ SLASH :: name)) true true =
      (findChild fs ROOT dir).map fun d => (d, name) :=
    walk_below hname hdir hproper fs fun d hd => (htop d (findChild_some w hd).2.1).2
  have hparent : ∀ p name', walk fs (SLASH :: (dir ++ SLASH :: name)) true true =
      some (p, name') → p ∈ kids ROOT ∧ name' = name := by
    intro p name' hsome
    rw [hwalk] at hsome
    obtain ⟨d, hd, hpair⟩ := Option.map_eq_some_iff.mp hsome
    cases hpair
    exact ⟨(findChild_some w hd).2.1, rfl⟩
  refine Seeded.create ⟨kids, free, w, t, htop⟩ ?_ ?_
  · intro p name' hsome _ _
    obtain ⟨hp, rfl⟩ := hparent p name' hsome
    exact ⟨(htop p hp).1, hproper'.ne_dot, hproper'.ne_dotdot⟩
  · intro p name' hsome hroot
    exact absurd hroot (w.kid_ne_root (hparent p name' hsome).1)

/-- The names `ramfs64_init` uses, and the test that they are names. -/
def properB (name : List UInt8) : Bool :=
  !name.isEmpty && !name.contains SLASH && decide (name.length < RAMFS64_NAME_MAX) &&
    name != DOT && name != DOTDOT

theorem proper_of_properB (h : properB name = true) : Component name ∧ ProperName name := by
  simp only [properB, Bool.and_eq_true, Bool.not_eq_true', decide_eq_true_eq, bne_iff_ne,
    List.isEmpty_eq_false_iff, List.contains_eq_mem, decide_eq_false_iff_not] at h
  obtain ⟨⟨⟨⟨hne, hslash⟩, hlen⟩, hdot⟩, hdotdot⟩ := h
  exact ⟨⟨hne, hslash, hlen⟩, ⟨hne, hslash, hdot, hdotdot⟩⟩

theorem Seeded.mkdirp_text (h : Seeded fs) (path name : String)
    (hpath : text path = SLASH :: text name) (hname : properB (text name) = true) :
    Seeded (ramfs64Mkdirp fs (text path)).2 := by
  obtain ⟨hcomp, hproper⟩ := proper_of_properB hname
  rw [hpath]
  refine h.mkdirp hcomp hproper ?_
  have := hcomp.fits
  simp only [RAMFS64_NAME_MAX, RAMFS64_PATH_MAX] at this ⊢
  omega

theorem Seeded.create_text (h : Seeded fs) (path dir name : String)
    (hpath : text path = SLASH :: (text dir ++ SLASH :: text name))
    (hdir : properB (text dir) = true) (hname : properB (text name) = true) :
    Seeded (ramfs64Create fs (text path) false).2 := by
  obtain ⟨hcomp, hproper⟩ := proper_of_properB hdir
  obtain ⟨hcomp', hproper'⟩ := proper_of_properB hname
  rw [hpath]
  exact h.create_below hcomp hproper hcomp' hproper'

theorem seeded_root (mem : Nat → Node64) :
    Seeded (allocNode (clearNodes mem) (text "/") none true).2 := by
  have hdead : ∀ i, ¬ (allocNode (clearNodes mem) (text "/") none true).2.Live i := by
    intro i hi
    have hunused : ((allocNode (clearNodes mem) (text "/") none true).2.nodes i).used = false :=
      congrArg Node64.used (if_neg hi.ne)
    exact absurd hi.used (by simp [hunused])
  refine ⟨_, _, wired_root mem, ⟨?_, ?_, ?_, ?_, ?_⟩, ?_⟩
  · exact fun i hi => absurd hi (hdead i)
  · exact fun p c hc => absurd hc List.not_mem_nil
  · exact fun p => List.Pairwise.nil
  · exact fun p c hc => absurd hc List.not_mem_nil
  · exact fun i hi => absurd hi (hdead i)
  · exact fun c hc => absurd hc List.not_mem_nil

theorem seeded_dirs (mem : Nat → Node64) : Seeded (initDirs mem) := by
  have htmp := (seeded_root mem).mkdirp_text "/tmp" "tmp" rfl (by decide)
  have hroot := htmp.mkdirp_text "/root" "root" rfl (by decide)
  have hetc := hroot.mkdirp_text "/etc" "etc" rfl (by decide)
  exact hetc.mkdirp_text "/dev" "dev" rfl (by decide)

theorem tidy_init (env : Env) (mem : Nat → Node64) : Tidy (ramfs64Init env mem) := by
  have hnull := ((seeded_dirs mem).create_text "/dev/null" "dev" "null" rfl (by decide)
    (by decide)).sameTree (seedDevice_same _ "/dev/null" RAMFS64_DEV_NULL)
  have hcon := (hnull.create_text "/dev/console" "dev" "console" rfl (by decide)
    (by decide)).sameTree (seedDevice_same _ "/dev/console" RAMFS64_DEV_CON)
  have hpasswd := (hcon.create_text "/etc/passwd" "etc" "passwd" rfl (by decide)
    (by decide)).sameTree (seedFile_same env _ "/etc/passwd" "root:x:0:0:root:/root:/bin/sh\n")
  have hswitch := (hpasswd.create_text "/etc/nsswitch.conf" "etc" "nsswitch.conf" rfl (by decide)
    (by decide)).sameTree (seedFile_same env _ "/etc/nsswitch.conf"
      "passwd: files\ngroup: files\nshadow: files\nhosts: files\n")
  exact hswitch.tidy

/-! ## Runs -/

/-- **The node table is a tree and a free list** after `ramfs64_init` and
every run of calls that link nodes into directories by proper names. -/
theorem ramfs64_tree (env : Env) (mem : Nat → Node64) (ops : List TreeOp)
    (hops : tree.Guarded TreeOk (ramfs64Init env mem) ops) :
    IsTree (tree.run (ramfs64Init env mem) ops) :=
  (tree.invariant_of_step (fun fs _ (h : Tidy fs) hok => h.call hok) ops _
    (tidy_init env mem) hops).isTree

/-- A file made, opened, and replaced by a rename while it is open. -/
def replacedOps : List TreeOp :=
  [.create (text "/a") false, .refNode 9, .create (text "/b") false,
    .rename (text "/b") (text "/a"), .unrefNode 9]

theorem ramfs64_tree_replaced :
    tree.Guarded TreeOk (ramfs64Init roomy fun _ => blankNode) replacedOps ∧
    IsTree (tree.run (ramfs64Init roomy fun _ => blankNode) replacedOps) := by
  have hcreate : ∀ fs : Fs, (fs.nodes ROOT).isDir = true → ∀ name, properB name = true →
      LinkOk fs (SLASH :: name) := by
    intro fs hroot name hname p name' hwalk _ _
    obtain ⟨hcomp, hproper⟩ := proper_of_properB hname
    rw [walk_top hcomp] at hwalk
    cases hwalk
    exact ⟨hroot, hproper.ne_dot, hproper.ne_dotdot⟩
  have hops : tree.Guarded TreeOk (ramfs64Init roomy fun _ => blankNode) replacedOps := by
    refine ⟨hcreate _ (by decide) (text "a") (by decide), trivial,
      hcreate _ (by decide) (text "b") (by decide), ?_, trivial, trivial⟩
    intro src dst name _ hwalk _ _
    have hto : walk _ (SLASH :: text "a") true true = some (dst, name) := hwalk
    cases hto
    exact ⟨by decide, by decide, by decide⟩
  exact ⟨hops, ramfs64_tree roomy (fun _ => blankNode) replacedOps hops⟩

/-- A child under a file, a node called "..", and a file that is its own
parent. -/
theorem ramfs64_not_tree :
    ¬ IsTree (tree.run (ramfs64Init roomy fun _ => blankNode)
      [.create (text "/etc/passwd/foo") false]) ∧
    ¬ IsTree (tree.run (ramfs64Init roomy fun _ => blankNode)
      [.create (text "/tmp/..") false]) ∧
    ¬ IsTree (tree.run (ramfs64Init roomy fun _ => blankNode)
      [.create (text "/f") false, .rename (text "/f") (text "/f/x")]) := by
  refine ⟨fun h => ?_, fun h => ?_, fun h => ?_⟩
  · have hfirst := h.only_dirs 7 (by decide) (by decide)
    exact absurd hfirst (by decide)
  · obtain ⟨l, hl, -, hproper⟩ := h.siblings 1 (by decide)
    obtain ⟨x, xs, rfl⟩ := List.exists_cons_of_ne_nil hl.ne_nil
    obtain rfl : 9 = x := Option.some.inj hl.1
    exact (hproper 9 List.mem_cons_self).ne_dotdot (by decide)
  · have hfirst := h.only_dirs 9 (by decide) (by decide)
    exact absurd hfirst (by decide)

end NovarisOS.Ramfs64
