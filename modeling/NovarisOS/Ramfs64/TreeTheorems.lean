/-
NovarisOS.Ramfs64.TreeTheorems — what every call keeps true of the links of
the node table, whatever paths it is given.

`Wired fs kids free` names the lists that the table threads through
`next_sibling`: `kids p` from the `first_child` of `p`, `free` from
`free_head`.
-/
import Mathlib.Data.List.TakeWhile
import NovarisOS.Ramfs64.Tree

namespace NovarisOS.Ramfs64

open Function (update update_of_ne update_self)

/-! ## Reading the table after an assignment -/

namespace Fs

@[simp] theorem nodes_modify (fs : Fs) (i j : Nat) (f : Node64 → Node64) :
    (fs.modify i f).nodes j = if j = i then f (fs.nodes i) else fs.nodes j := rfl

@[simp] theorem freeHead_modify (fs : Fs) (i : Nat) (f : Node64 → Node64) :
    (fs.modify i f).freeHead = fs.freeHead := rfl

@[simp] theorem nodeCount_modify (fs : Fs) (i : Nat) (f : Node64 → Node64) :
    (fs.modify i f).nodeCount = fs.nodeCount := rfl

/-- In use, with a name, and not the root. -/
structure Live (fs : Fs) (i : Nat) : Prop where
  used : (fs.nodes i).used = true
  named : (fs.nodes i).unlinked = false
  ne : i ≠ ROOT

end Fs

theorem valid_natCast (fs : Fs) (n : Nat) :
    valid fs n = (decide (n < RAMFS64_MAX_NODES) && (fs.nodes n).used) := rfl

/-- The fields of a node that the lists and their owners are read from. -/
structure Wires where
  used : Bool
  unlinked : Bool
  isDir : Bool
  parent : Option Nat
  firstChild : Option Nat
  nextSibling : Option Nat

/-- A node without its place on a list. -/
def Node64.core (nd : Node64) : Node64 := { nd with firstChild := none, nextSibling := none }

def Node64.wires (nd : Node64) : Wires :=
  ⟨nd.used, nd.unlinked, nd.isDir, nd.parent, nd.firstChild, nd.nextSibling⟩

/-- The lists of the table. -/
structure Wired (fs : Fs) (kids : Nat → List Nat) (free : List Nat) : Prop where
  bound : ∀ i, (fs.nodes i).used = true → i < RAMFS64_MAX_NODES
  freeLinks : Links fs.next fs.freeHead free
  mem_free : ∀ i, i ∈ free ↔ i < RAMFS64_MAX_NODES ∧ (fs.nodes i).used = false
  kidsLinks : ∀ p, Links fs.next (fs.nodes p).firstChild (kids p)
  kid : ∀ p, ∀ c ∈ kids p, fs.Live c ∧ fs.parent c = some p
  owner : ∀ p, kids p ≠ [] → (fs.nodes p).used = true
  root : (fs.nodes ROOT).used = true ∧ (fs.nodes ROOT).isDir = true ∧ fs.parent ROOT = none
  rootNamed : (fs.nodes ROOT).unlinked = false
  count : fs.nodeCount + free.length = RAMFS64_MAX_NODES

namespace Wired

variable {fs : Fs} {kids : Nat → List Nat} {free : List Nat} (w : Wired fs kids free)
include w

variable {i c p n : Nat}

theorem not_mem_free (hi : (fs.nodes i).used = true) : i ∉ free := by
  intro hmem
  exact absurd hi (by simp [((w.mem_free i).mp hmem).2])

theorem kid_used (hc : c ∈ kids p) : (fs.nodes c).used = true :=
  (w.kid p c hc).1.used

theorem kid_ne_root (hc : c ∈ kids p) : c ≠ ROOT := (w.kid p c hc).1.ne

theorem kid_unique {q : Nat} (hp : c ∈ kids p) (hq : c ∈ kids q) : p = q :=
  Option.some.inj ((w.kid p c hp).2.symm.trans (w.kid q c hq).2)

theorem kids_length (p : Nat) : (kids p).length ≤ RAMFS64_MAX_NODES :=
  (w.kidsLinks p).length_le fun _ hc => w.bound _ (w.kid_used hc)

theorem unused_not_kid (hi : (fs.nodes i).used = false) (p : Nat) : i ∉ kids p := by
  intro hmem
  exact absurd (w.kid_used hmem) (by simp [hi])

theorem kids_of_unused (hi : (fs.nodes i).used = false) : kids i = [] := by
  by_contra hne
  exact absurd (w.owner i hne) (by simp [hi])

theorem kids_of_firstChild_none (hp : (fs.nodes p).firstChild = none) : kids p = [] := by
  have hl := w.kidsLinks p
  rw [hp] at hl
  exact hl.eq_nil

theorem kids_of_firstChild_some (hp : (fs.nodes p).firstChild = some c) : c ∈ kids p := by
  have hl := w.kidsLinks p
  rw [hp] at hl
  obtain ⟨y, ys, hy⟩ := List.exists_cons_of_ne_nil hl.ne_nil
  rw [hy] at hl ⊢
  rw [Option.some.inj hl.1]
  exact List.mem_cons_self

variable {fs' : Fs}

theorem congr (hhead : fs'.freeHead = fs.freeHead)
    (hcount : fs'.nodeCount = fs.nodeCount)
    (hsame : ∀ i, (fs'.nodes i).wires = (fs.nodes i).wires) : Wired fs' kids free := by
  have hnext : fs'.next = fs.next := funext fun i => congrArg Wires.nextSibling (hsame i)
  have hused : ∀ i, (fs'.nodes i).used = (fs.nodes i).used :=
    fun i => congrArg Wires.used (hsame i)
  have hnamed : ∀ i, (fs'.nodes i).unlinked = (fs.nodes i).unlinked :=
    fun i => congrArg Wires.unlinked (hsame i)
  have hfirst : ∀ i, (fs'.nodes i).firstChild = (fs.nodes i).firstChild :=
    fun i => congrArg Wires.firstChild (hsame i)
  have hparent : ∀ i, fs'.parent i = fs.parent i := fun i => congrArg Wires.parent (hsame i)
  have hdir : (fs'.nodes ROOT).isDir = (fs.nodes ROOT).isDir := congrArg Wires.isDir (hsame ROOT)
  constructor
  · intro i hi
    exact w.bound i (by rwa [← hused])
  · rw [hnext, hhead]
    exact w.freeLinks
  · intro i
    rw [hused]
    exact w.mem_free i
  · intro p
    rw [hnext, hfirst]
    exact w.kidsLinks p
  · intro p c hc
    obtain ⟨hlive, hpar⟩ := w.kid p c hc
    exact ⟨⟨by rw [hused]; exact hlive.used, by rw [hnamed]; exact hlive.named, hlive.ne⟩,
      by rw [hparent]; exact hpar⟩
  · intro p hp
    rw [hused]
    exact w.owner p hp
  · rw [hused, hdir, hparent]
    exact w.root
  · rw [hnamed]
    exact w.rootNamed
  · rw [hcount]
    exact w.count

/-- A node on no child list may change in any way that keeps it in use and
keeps its own children. -/
theorem modify_detached {f : Node64 → Node64} (hn : n ≠ ROOT)
    (hused : (fs.nodes n).used = true) (hkid : ∀ p, n ∉ kids p)
    (hfu : (f (fs.nodes n)).used = true)
    (hff : (f (fs.nodes n)).firstChild = (fs.nodes n).firstChild) :
    Wired (fs.modify n f) kids free := by
  have hu : ∀ i, ((fs.modify n f).nodes i).used = (fs.nodes i).used := by
    intro i
    by_cases hi : i = n
    · subst hi; simp [hfu, hused]
    · simp [hi]
  have hnext : ∀ i, i ≠ n → (fs.modify n f).next i = fs.next i := fun i hi => by
    simp [Fs.next, hi]
  constructor
  · intro i hi
    exact w.bound i (by rwa [← hu])
  · exact w.freeLinks.congr fun x hx => hnext x fun hxn => w.not_mem_free hused (hxn ▸ hx)
  · intro i
    rw [hu]
    exact w.mem_free i
  · intro p
    have hfirst : ((fs.modify n f).nodes p).firstChild = (fs.nodes p).firstChild := by
      by_cases hp : p = n
      · subst hp; simp [hff]
      · simp [hp]
    rw [hfirst]
    exact (w.kidsLinks p).congr fun x hx => hnext x fun hxn => hkid p (hxn ▸ hx)
  · intro p c hc
    have hcn : c ≠ n := fun hcn => hkid p (hcn ▸ hc)
    obtain ⟨hlive, hpar⟩ := w.kid p c hc
    exact ⟨⟨by rw [hu]; exact hlive.used, by simp [hcn, hlive.named], hlive.ne⟩,
      by simp [Fs.parent, hcn]; exact hpar⟩
  · intro p hp
    rw [hu]
    exact w.owner p hp
  · rw [hu]
    simpa [Fs.parent, Ne.symm hn] using w.root
  · simpa [Ne.symm hn] using w.rootNamed
  · exact w.count

theorem take (nd : Node64) (hhead : fs.freeHead = some i) (hused : nd.used = true)
    (hfirst : nd.firstChild = none) :
    Wired ({ fs with freeHead := fs.next i, nodeCount := fs.nodeCount + 1 }.modify i
      fun _ => nd) kids free.tail ∧ (fs.nodes i).used = false ∧ ∀ p, i ∉ kids p := by
  obtain ⟨rest, rfl⟩ : ∃ rest, free = i :: rest := by
    have hl := w.freeLinks
    rw [hhead] at hl
    obtain ⟨y, ys, hy⟩ := List.exists_cons_of_ne_nil hl.ne_nil
    subst hy
    exact ⟨ys, by rw [Option.some.inj hl.1]⟩
  have hnd := List.nodup_cons.mp w.freeLinks.nodup
  have hi := (w.mem_free i).mp List.mem_cons_self
  have hkid : ∀ p, i ∉ kids p := w.unused_not_kid hi.2
  have hroot : ROOT ≠ i := fun h => by simpa [← h, w.root.1] using hi.2
  refine ⟨?_, hi.2, hkid⟩
  constructor
  · intro j hj
    by_cases hji : j = i
    · exact hji ▸ hi.1
    · exact w.bound j (by simpa [hji] using hj)
  · refine w.freeLinks.2.congr fun x hx => ?_
    have hxi : x ≠ i := fun hxi => hnd.1 (hxi ▸ hx)
    simp [Fs.next, hxi]
  · intro j
    by_cases hji : j = i
    · subst hji
      simp [hused, hnd.1]
    · have := w.mem_free j
      simpa [hji] using this
  · intro p
    have hfirst' : (({ fs with freeHead := fs.next i, nodeCount := fs.nodeCount + 1 }.modify i
        fun _ => nd).nodes p).firstChild = (fs.nodes p).firstChild := by
      by_cases hp : p = i
      · subst hp
        have hl := w.kidsLinks p
        rw [w.kids_of_unused hi.2] at hl
        simp [hfirst, show (fs.nodes p).firstChild = none from hl]
      · simp [hp]
    rw [hfirst']
    refine (w.kidsLinks p).congr fun x hx => ?_
    have hxi : x ≠ i := fun hxi => hkid p (hxi ▸ hx)
    simp [Fs.next, hxi]
  · intro p c hc
    have hci : c ≠ i := fun hci => hkid p (hci ▸ hc)
    obtain ⟨hlive, hpar⟩ := w.kid p c hc
    exact ⟨⟨by simp [hci, hlive.used], by simp [hci, hlive.named], hlive.ne⟩,
      by simpa [Fs.parent, hci] using hpar⟩
  · intro p hp
    have hpi : p ≠ i := fun hpi => hp (hpi ▸ w.kids_of_unused hi.2)
    simpa [hpi] using w.owner p hp
  · simpa [Fs.parent, hroot] using w.root
  · simpa [hroot] using w.rootNamed
  · have hcount := w.count
    simp only [List.length_cons] at hcount
    simp only [List.tail_cons, Fs.nodeCount_modify]
    omega

/-- A node on no child list goes to the front of the list of `p`. -/
theorem link {f : Node64 → Node64} (hn : n ≠ ROOT)
    (hused : (fs.nodes n).used = true) (hkid : ∀ q, n ∉ kids q)
    (hp : (fs.nodes p).used = true) (hfu : (f (fs.nodes n)).used = true)
    (hfn : (f (fs.nodes n)).unlinked = false) (hfp : (f (fs.nodes n)).parent = some p)
    (hfs : (f (fs.nodes n)).nextSibling = (fs.nodes p).firstChild)
    (hff : (f (fs.nodes n)).firstChild = (fs.nodes n).firstChild) :
    Wired ((fs.modify n f).modify p fun nd => { nd with firstChild := some n })
      (update kids p (n :: kids p)) free := by
  have w' := w.modify_detached hn hused hkid hfu hff
  generalize hfs' : fs.modify n f = fs' at w'
  have hnn : fs'.nodes n = f (fs.nodes n) := by rw [← hfs']; simp
  have hpf : (fs'.nodes p).firstChild = (fs.nodes p).firstChild := by
    rw [← hfs']
    by_cases hpn : p = n
    · subst hpn; simp [hff]
    · simp [hpn]
  have hpu : (fs'.nodes p).used = true := by
    by_cases hpn : p = n
    · rw [hpn, hnn, hfu]
    · rw [← hfs']; simp [hpn, hp]
  have hmod : ∀ (g : Node64 → Option Nat), (∀ nd, g { nd with firstChild := some n } = g nd) →
      ∀ i, g ((fs'.modify p fun nd => { nd with firstChild := some n }).nodes i) =
        g (fs'.nodes i) := by
    intro g hg i
    by_cases hi : i = p
    · subst hi; simp [hg]
    · simp [hi]
  have hnext : (fs'.modify p fun nd => { nd with firstChild := some n }).next = fs'.next :=
    funext (hmod Node64.nextSibling fun _ => rfl)
  have hparent : (fs'.modify p fun nd => { nd with firstChild := some n }).parent = fs'.parent :=
    funext (hmod Node64.parent fun _ => rfl)
  have hmodb : ∀ (g : Node64 → Bool), (∀ nd, g { nd with firstChild := some n } = g nd) →
      ∀ i, g ((fs'.modify p fun nd => { nd with firstChild := some n }).nodes i) =
        g (fs'.nodes i) := by
    intro g hg i
    by_cases hi : i = p
    · subst hi; simp [hg]
    · simp [hi]
  have hu := hmodb Node64.used fun _ => rfl
  have hun := hmodb Node64.unlinked fun _ => rfl
  have hdir := hmodb Node64.isDir fun _ => rfl
  constructor
  · intro i hi
    exact w'.bound i (by rwa [← hu])
  · rw [hnext]
    exact w'.freeLinks
  · intro i
    rw [hu]
    exact w'.mem_free i
  · intro q
    rw [hnext]
    by_cases hq : q = p
    · subst hq
      rw [update_self]
      refine ⟨by simp, ?_⟩
      rw [show fs'.next n = (fs'.nodes q).firstChild by rw [Fs.next, hnn, hfs, hpf]]
      exact w'.kidsLinks q
    · rw [update_of_ne hq]
      simpa [hq] using w'.kidsLinks q
  · intro q c hc
    have hold : ∀ c ∈ kids q, (fs'.modify p fun nd => { nd with firstChild := some n }).Live c ∧
        (fs'.modify p fun nd => { nd with firstChild := some n }).parent c = some q := by
      intro c hc
      obtain ⟨hlive, hpar⟩ := w'.kid q c hc
      exact ⟨⟨by rw [hu]; exact hlive.used, by rw [hun]; exact hlive.named, hlive.ne⟩,
        by rw [hparent]; exact hpar⟩
    by_cases hq : q = p
    · subst hq
      rw [update_self] at hc
      rcases List.mem_cons.mp hc with rfl | hc
      · exact ⟨⟨by rw [hu, hnn, hfu], by rw [hun, hnn, hfn], hn⟩,
          by rw [hparent, Fs.parent, hnn, hfp]⟩
      · exact hold c hc
    · rw [update_of_ne hq] at hc
      exact hold c hc
  · intro q hq
    rw [hu]
    by_cases hqp : q = p
    · rw [hqp]; exact hpu
    · rw [update_of_ne hqp] at hq
      exact w'.owner q hq
  · rw [hu, hdir, hparent]
    exact w'.root
  · rw [hun]
    exact w'.rootNamed
  · exact w'.count

theorem relink {l : List Nat} (hhead : fs'.freeHead = fs.freeHead)
    (hcount : fs'.nodeCount = fs.nodeCount)
    (hcore : ∀ i, (fs'.nodes i).core = (fs.nodes i).core)
    (hfree : ∀ i ∈ free, fs'.next i = fs.next i)
    (hother : ∀ q, q ≠ p → (fs'.nodes q).firstChild = (fs.nodes q).firstChild ∧
      ∀ c ∈ kids q, fs'.next c = fs.next c)
    (hlinks : Links fs'.next (fs'.nodes p).firstChild l) (hsub : l ⊆ kids p) :
    Wired fs' (update kids p l) free := by
  have hused : ∀ i, (fs'.nodes i).used = (fs.nodes i).used :=
    fun i => (congrArg Node64.used (hcore i) :)
  have hnamed : ∀ i, (fs'.nodes i).unlinked = (fs.nodes i).unlinked :=
    fun i => (congrArg Node64.unlinked (hcore i) :)
  have hparent : ∀ i, fs'.parent i = fs.parent i := fun i => (congrArg Node64.parent (hcore i) :)
  have hsub' : ∀ q, update kids p l q ⊆ kids q := by
    intro q
    by_cases hq : q = p
    · subst hq; rwa [update_self]
    · rw [update_of_ne hq]; exact List.Subset.refl _
  constructor
  · intro i hi
    exact w.bound i (by rwa [← hused])
  · rw [hhead]
    exact w.freeLinks.congr hfree
  · intro i
    rw [hused]
    exact w.mem_free i
  · intro q
    by_cases hq : q = p
    · subst hq
      rw [update_self]
      exact hlinks
    · rw [update_of_ne hq, (hother q hq).1]
      exact (w.kidsLinks q).congr (hother q hq).2
  · intro q c hc
    obtain ⟨hlive, hpar⟩ := w.kid q c (hsub' q hc)
    exact ⟨⟨by rw [hused]; exact hlive.used, by rw [hnamed]; exact hlive.named, hlive.ne⟩,
      by rw [hparent]; exact hpar⟩
  · intro q hq
    rw [hused]
    exact w.owner q fun hnil => hq (List.subset_nil.mp (hnil ▸ hsub' q))
  · rw [hused, hparent, show (fs'.nodes ROOT).isDir = (fs.nodes ROOT).isDir from
      (congrArg Node64.isDir (hcore ROOT) :)]
    exact w.root
  · rw [hnamed]
    exact w.rootNamed
  · rw [hcount]
    exact w.count

theorem seek_pred (hn : n ∈ kids p) (hfirst : (fs.nodes p).firstChild ≠ some n) :
    ∃ c ∈ kids p, fs.next c = some n ∧
      seek fs.next (fun c => fs.next c == some n) RAMFS64_MAX_NODES (fs.nodes p).firstChild =
        some c := by
  rw [seek_eq_find? _ (w.kidsLinks p) (w.kids_length p)]
  cases hfind : (kids p).find? fun c => fs.next c == some n with
  | none =>
    obtain ⟨c, hc, hcn⟩ := (w.kidsLinks p).exists_pred hn hfirst
    exact absurd (List.find?_eq_none.mp hfind c hc) (by simp [hcn])
  | some c =>
    exact ⟨c, List.mem_of_find?_eq_some hfind, by simpa using List.find?_some hfind, rfl⟩

theorem unchain (hn : n ∈ kids p) :
    Wired (unchain fs n) (update kids p ((kids p).erase n)) free ∧
    ∀ i, ((Ramfs64.unchain fs n).nodes i).core = (fs.nodes i).core := by
  have hpar : (fs.nodes n).parent = some p := (w.kid p n hn).2
  have hp : p < RAMFS64_MAX_NODES := w.bound p (w.owner p (List.ne_nil_of_mem hn))
  rw [Ramfs64.unchain, hpar]
  simp only [hp, if_true]
  by_cases hfirst : (fs.nodes p).firstChild = some n
  · rw [if_pos hfirst]
    have hnext : ∀ i, (fs.modify p fun nd => { nd with firstChild := fs.next n }).next i =
        fs.next i := by
      intro i
      by_cases hi : i = p
      · subst hi; simp [Fs.next]
      · simp [Fs.next, hi]
    have hcore : ∀ i, ((fs.modify p fun nd => { nd with firstChild := fs.next n }).nodes i).core =
        (fs.nodes i).core := by
      intro i
      by_cases hi : i = p
      · subst hi; simp [Node64.core]
      · simp [hi]
    refine ⟨w.relink rfl rfl hcore (fun i _ => hnext i)
      (fun q hq => ⟨by simp [hq], fun c _ => hnext c⟩) ?_ (List.erase_subset), hcore⟩
    have hl := w.kidsLinks p
    rw [hfirst] at hl
    simpa using hl.erase_head.congr fun c _ => hnext c
  · rw [if_neg hfirst]
    obtain ⟨c, hc, hcn, hseek⟩ := w.seek_pred hn hfirst
    simp only [hseek]
    have hnext : (fs.modify c fun nd => { nd with nextSibling := fs.next n }).next =
        update fs.next c (fs.next n) := by
      funext i
      by_cases hi : i = c
      · subst hi; simp [Fs.next]
      · simp [Fs.next, hi]
    have hfirsts : ∀ i, ((fs.modify c fun nd => { nd with nextSibling := fs.next n }).nodes
        i).firstChild = (fs.nodes i).firstChild := by
      intro i
      by_cases hi : i = c
      · subst hi; simp
      · simp [hi]
    have hcore : ∀ i, ((fs.modify c fun nd => { nd with nextSibling := fs.next n }).nodes i).core =
        (fs.nodes i).core := by
      intro i
      by_cases hi : i = c
      · subst hi; simp [Node64.core]
      · simp [hi]
    refine ⟨w.relink rfl rfl hcore ?_ ?_ ?_ (List.erase_subset), hcore⟩
    · intro i hi
      have hic : i ≠ c := fun hic => w.not_mem_free (w.kid_used hc) (hic ▸ hi)
      rw [hnext, update_of_ne hic]
    · intro q hq
      refine ⟨hfirsts q, fun i hi => ?_⟩
      have hic : i ≠ c := fun hic => hq (w.kid_unique (hic ▸ hi) hc)
      rw [hnext, update_of_ne hic]
    · rw [hnext, hfirsts]
      exact (w.kidsLinks p).erase_pred hc hcn

/-- A node on no child list becomes a free slot, and its children are
forgotten. -/
theorem release (hn : n ≠ ROOT) (hused : (fs.nodes n).used = true)
    (hkid : ∀ p, n ∉ kids p) :
    Wired (releaseNode fs n) (update kids n []) (n :: free) := by
  have hnf := w.not_mem_free hused
  have hnext : ∀ i, i ≠ n → (releaseNode fs n).next i = fs.next i := fun i hi => by
    simp [Fs.next, releaseNode, hi]
  have hsub : ∀ q, update kids n [] q ⊆ kids q := by
    intro q
    by_cases hq : q = n
    · subst hq; rw [update_self]; exact List.nil_subset _
    · rw [update_of_ne hq]; exact List.Subset.refl _
  constructor
  · intro i hi
    by_cases hin : i = n
    · exact hin ▸ w.bound n hused
    · exact w.bound i (by simpa [releaseNode, hin] using hi)
  · refine ⟨rfl, ?_⟩
    rw [show (releaseNode fs n).next n = fs.freeHead by simp [Fs.next, releaseNode]]
    exact w.freeLinks.congr fun x hx => hnext x fun hxn => hnf (hxn ▸ hx)
  · intro i
    by_cases hin : i = n
    · subst hin
      simp [releaseNode, w.bound i hused]
    · have := w.mem_free i
      simpa [releaseNode, hin] using this
  · intro q
    by_cases hq : q = n
    · subst hq
      rw [update_self]
      simp [releaseNode, Links]
    · rw [update_of_ne hq,
        show ((releaseNode fs n).nodes q).firstChild = (fs.nodes q).firstChild by
          simp [releaseNode, hq]]
      exact (w.kidsLinks q).congr fun x hx => hnext x fun hxn => hkid q (hxn ▸ hx)
  · intro q c hc
    have hcq := hsub q hc
    have hcn : c ≠ n := fun hcn => hkid q (hcn ▸ hcq)
    obtain ⟨hlive, hpar⟩ := w.kid q c hcq
    exact ⟨⟨by simp [releaseNode, hcn, hlive.used], by simp [releaseNode, hcn, hlive.named],
      hlive.ne⟩, by simpa [Fs.parent, releaseNode, hcn] using hpar⟩
  · intro q hq
    have hqn : q ≠ n := fun hqn => hq (by rw [hqn, update_self])
    rw [update_of_ne hqn] at hq
    simpa [releaseNode, hqn] using w.owner q hq
  · simpa [releaseNode, Fs.parent, Ne.symm hn] using w.root
  · simpa [releaseNode, Ne.symm hn] using w.rootNamed
  · have hcount := w.count
    have hlt : free.length < RAMFS64_MAX_NODES := by
      -- `n` is a slot that the free list does not hold
      have hsub : n :: free ⊆ List.range RAMFS64_MAX_NODES := by
        intro x hx
        rcases List.mem_cons.mp hx with rfl | hx
        · exact List.mem_range.mpr (w.bound x hused)
        · exact List.mem_range.mpr ((w.mem_free x).mp hx).1
      have hle := ((List.nodup_cons.mpr ⟨hnf, w.freeLinks.nodup⟩).subperm hsub).length_le
      rwa [List.length_range, List.length_cons] at hle
    simp only [releaseNode, List.length_cons]
    omega

/-! ### The edits as the calls make them -/

theorem alloc {name : List UInt8} {isDir : Bool}
    (hp : (fs.nodes p).used = true)
    (halloc : allocNode fs name (some p) isDir = (some i, fs')) :
    Wired fs' (update kids p (i :: kids p)) free.tail ∧
    (fs.nodes i).used = false ∧
    (fs'.nodes i).core = freshNode name (some p) isDir ∧
    ∀ j, j ≠ i → (fs'.nodes j).core = (fs.nodes j).core := by
  cases hhead : fs.freeHead with
  | none =>
    rw [allocNode, hhead] at halloc
    exact absurd (congrArg Prod.fst halloc) (by simp)
  | some k =>
    simp only [allocNode, hhead, w.bound p hp, if_true] at halloc
    obtain ⟨hki, rfl⟩ := Prod.mk.inj halloc
    obtain rfl : k = i := Option.some.inj hki
    obtain ⟨w', hunused, hkid⟩ :=
      w.take (freshNode name (some p) isDir) hhead rfl rfl
    have hpk : p ≠ k := fun h => by simp [h, hunused] at hp
    have hkroot : k ≠ ROOT := fun h => by simp [h, w.root.1] at hunused
    refine ⟨w'.link hkroot (by simp [freshNode]) hkid (by simp [hpk, hp]) (by simp [freshNode])
      (by simp [freshNode]) (by simp [freshNode]) rfl rfl, hunused, ?_, ?_⟩
    · simp [Ne.symm hpk, Node64.core, freshNode]
    · intro j hj
      by_cases hjp : j = p
      · subst hjp; simp [hj, Node64.core]
      · simp [hj, hjp]

theorem detach (hn : n ∈ kids p) :
    Wired (detachFromParent fs n) (update kids p ((kids p).erase n)) free ∧
    (∀ q, n ∉ update kids p ((kids p).erase n) q) ∧
    ((detachFromParent fs n).nodes n).core = { (fs.nodes n).core with parent := none } ∧
    ∀ i, i ≠ n → ((detachFromParent fs n).nodes i).core = (fs.nodes i).core := by
  obtain ⟨w', hcore⟩ := w.unchain hn
  have hgone : ∀ q, n ∉ update kids p ((kids p).erase n) q := by
    intro q hq
    by_cases hqp : q = p
    · subst hqp
      rw [update_self] at hq
      exact absurd hq ((w.kidsLinks q).nodup.not_mem_erase)
    · rw [update_of_ne hqp] at hq
      exact hqp (w.kid_unique hq hn)
  have hused : ((Ramfs64.unchain fs n).nodes n).used = true :=
    ((congrArg Node64.used (hcore n) :)).trans (w.kid_used hn)
  refine ⟨w'.modify_detached (w.kid_ne_root hn) hused hgone ?_ rfl, hgone, ?_, ?_⟩
  · exact hused
  · rw [← hcore n]
    simp [detachFromParent, Node64.core]
  · intro i hi
    rw [← hcore i]
    simp [detachFromParent, hi]

theorem drop (hn : n ∈ kids p) :
    (∃ kids' free', Wired (dropName fs n) kids' free' ∧
      (kids n = [] → kids' = update kids p ((kids p).erase n)) ∧
      ∀ q, q ≠ n → kids' q = update kids p ((kids p).erase n) q) ∧
    ((dropName fs n).nodes n).unlinked = true ∧
    ((fs.nodes n).openers = 0 → ((dropName fs n).nodes n).used = false) ∧
    ((fs.nodes n).openers ≠ 0 → ((dropName fs n).nodes n).core =
      { (fs.nodes n).core with parent := none, unlinked := true }) ∧
    ∀ i, i ≠ n → ((dropName fs n).nodes i).core = (fs.nodes i).core := by
  obtain ⟨w', hgone, hself, hcore⟩ := w.detach hn
  have hn0 := w.kid_ne_root hn
  have hused : ((detachFromParent fs n).nodes n).used = true :=
    ((congrArg Node64.used hself :)).trans (w.kid_used hn)
  have hopen : ((detachFromParent fs n).nodes n).openers = (fs.nodes n).openers :=
    (congrArg Node64.openers hself :)
  have w'' := w'.modify_detached (f := fun nd => { nd with unlinked := true }) hn0 hused hgone
    hused rfl
  by_cases ho : (fs.nodes n).openers = 0
  · have hrun : dropName fs n = releaseNode
        ((detachFromParent fs n).modify n fun nd => { nd with unlinked := true }) n := by
      simp [dropName, hopen, ho]
    rw [hrun]
    refine ⟨⟨_, _, w''.release hn0 (by simp [hused]) hgone, ?_, ?_⟩, ?_, ?_, ?_, ?_⟩
    · intro hnil
      rw [Function.update_eq_self_iff]
      by_cases hnp : n = p
      · subst hnp
        simp [hnil]
      · rw [update_of_ne hnp, hnil]
    · intro q hq
      rw [update_of_ne hq]
    · simp [releaseNode]
    · intro _
      simp [releaseNode]
    · intro h
      exact absurd ho h
    · intro i hi
      rw [← hcore i hi]
      simp [releaseNode, hi]
  · have hrun : dropName fs n =
        (detachFromParent fs n).modify n fun nd => { nd with unlinked := true } := by
      simp [dropName, hopen, ho]
    rw [hrun]
    refine ⟨⟨_, _, w'', fun _ => rfl, fun _ _ => rfl⟩, ?_, ?_, ?_, ?_⟩
    · simp
    · intro h
      exact absurd h ho
    · intro _
      have hfields := hself
      simp only [Node64.core, Node64.mk.injEq] at hfields ⊢
      simp [hfields]
    · intro i hi
      rw [← hcore i hi]
      simp [hi]

theorem freed (hn : n ∈ kids p) (hnil : kids n = []) :
    Wired (freeNode fs n) (update kids p ((kids p).erase n)) (n :: free) ∧
    ((freeNode fs n).nodes n).used = false ∧
    ∀ i, i ≠ n → ((freeNode fs n).nodes i).core = (fs.nodes i).core := by
  obtain ⟨w', hgone, hself, hcore⟩ := w.detach hn
  have hused : ((detachFromParent fs n).nodes n).used = true :=
    ((congrArg Node64.used hself :)).trans (w.kid_used hn)
  have hnp : n ≠ p := fun h => by simp [← h, hnil] at hn
  have hkids : update (update kids p ((kids p).erase n)) n [] =
      update kids p ((kids p).erase n) := by
    rw [Function.update_eq_self_iff, update_of_ne hnp, hnil]
  refine ⟨?_, ?_, ?_⟩
  · rw [← hkids]
    exact w'.release (w.kid_ne_root hn) hused hgone
  · simp [freeNode, releaseNode]
  · intro i hi
    rw [← hcore i hi]
    simp [freeNode, releaseNode, hi]

theorem move {src dst : Nat} (name : List UInt8) (hsrc : src ∈ kids p)
    (hdst : (fs.nodes dst).used = true) :
    Wired (moveNode fs src dst name)
      (update (update kids p ((kids p).erase src)) dst
        (src :: update kids p ((kids p).erase src) dst)) free ∧
    ((moveNode fs src dst name).nodes src).core =
      { (fs.nodes src).core with
        name := name.take (RAMFS64_NAME_MAX - 1), parent := some dst } ∧
    ∀ i, i ≠ src → ((moveNode fs src dst name).nodes i).core = (fs.nodes i).core := by
  obtain ⟨w', hcore⟩ := w.unchain hsrc
  obtain ⟨-, hgone, -, -⟩ := w.detach hsrc
  have hused : ((Ramfs64.unchain fs src).nodes src).used = true :=
    ((congrArg Node64.used (hcore src) :)).trans (w.kid_used hsrc)
  have hnamed : ((Ramfs64.unchain fs src).nodes src).unlinked = false :=
    ((congrArg Node64.unlinked (hcore src) :)).trans (w.kid p src hsrc).1.named
  have hdst' : ((Ramfs64.unchain fs src).nodes dst).used = true :=
    ((congrArg Node64.used (hcore dst) :)).trans hdst
  refine ⟨w'.link (w.kid_ne_root hsrc) hused hgone hdst' hused hnamed rfl rfl rfl, ?_, ?_⟩
  · have hfields := hcore src
    simp only [Node64.core, Node64.mk.injEq] at hfields
    by_cases hsd : src = dst
    · subst hsd
      simp [moveNode, Node64.core, hfields]
    · simp [moveNode, Node64.core, hfields, hsd]
  · intro i hi
    rw [← hcore i]
    by_cases hid : i = dst
    · subst hid
      simp [moveNode, Node64.core, hi]
    · simp [moveNode, hi, hid]

end Wired

/-! ## §2 The path walk -/

/-- Reached from the root through the child lists of directories. -/
inductive Reached (fs : Fs) (kids : Nat → List Nat) : Nat → Prop
  | root : Reached fs kids ROOT
  | child {p c : Nat} : Reached fs kids p → (fs.nodes p).isDir = true → c ∈ kids p →
      Reached fs kids c

/-- What a path can have between two slashes, if it fits a name. -/
structure Component (name : List UInt8) : Prop where
  ne_nil : name ≠ []
  no_slash : SLASH ∉ name
  fits : name.length < RAMFS64_NAME_MAX

theorem Component.take_eq {name : List UInt8} (h : Component name) :
    name.take (RAMFS64_NAME_MAX - 1) = name :=
  List.take_of_length_le (Nat.le_sub_one_of_lt h.fits)

section

variable {fs : Fs} {kids : Nat → List Nat} {free : List Nat} (w : Wired fs kids free)
include w

variable {n dir : Nat}

theorem Reached.used (h : Reached fs kids n) : (fs.nodes n).used = true := by
  cases h with
  | root => exact w.root.1
  | child _ _ hc => exact w.kid_used hc

theorem Reached.has_parent (h : Reached fs kids n) (hn : n ≠ ROOT) :
    ∃ p, n ∈ kids p ∧ Reached fs kids p ∧ (fs.nodes p).isDir = true ∧ fs.parent n = some p := by
  cases h with
  | root => exact absurd rfl hn
  | child hp hdir hc => exact ⟨_, hc, hp, hdir, (w.kid _ _ hc).2⟩

theorem Reached.not_self_parent (h : Reached fs kids n) : n ∉ kids n := by
  induction h with
  | root => exact fun hmem => w.kid_ne_root hmem rfl
  | child _ _ hc ih =>
    intro hmem
    obtain rfl := w.kid_unique hmem hc
    exact ih hc

theorem Reached.up {n : Nat} (h : Reached fs kids n) :
    Reached fs kids (((fs.nodes n).parent).getD n) := by
  by_cases hn : n = ROOT
  · subst hn
    rw [show (fs.nodes ROOT).parent = none from w.root.2.2]
    exact Reached.root
  · obtain ⟨p, -, hp, -, hpar⟩ := h.has_parent w hn
    rw [show (fs.nodes n).parent = some p from hpar]
    exact hp

variable {name : List UInt8}

theorem findChild_some {c : Nat} (h : findChild fs dir name = some c) :
    (fs.nodes dir).isDir = true ∧ c ∈ kids dir ∧ (fs.nodes c).name = name := by
  simp only [findChild] at h
  split at h
  · rename_i hdir
    rw [Bool.and_eq_true] at hdir
    rw [seek_eq_find? _ (w.kidsLinks dir) (w.kids_length dir)] at h
    exact ⟨hdir.2, List.mem_of_find?_eq_some h, by simpa using List.find?_some h⟩
  · exact absurd h (by simp)

theorem findChild_none (hused : (fs.nodes dir).used = true)
    (hdir : (fs.nodes dir).isDir = true) (h : findChild fs dir name = none) :
    ∀ c ∈ kids dir, (fs.nodes c).name ≠ name := by
  have hvalid : valid fs dir = true := by
    rw [valid_natCast, hused, decide_eq_true (w.bound dir hused)]
    rfl
  rw [findChild, hvalid, hdir, Bool.and_self, if_pos rfl,
    seek_eq_find? _ (w.kidsLinks dir) (w.kids_length dir), List.find?_eq_none] at h
  intro c hc
  simpa using h c hc

theorem findChild_reached {c : Nat} (hdir : Reached fs kids dir)
    (h : findChild fs dir name = some c) : Reached fs kids c := by
  obtain ⟨hisDir, hc, -⟩ := findChild_some w h
  exact hdir.child hisDir hc

/-- What the component loop promises about where it stops. -/
def Scan.Ok (fs : Fs) (kids : Nat → List Nat) (wantParent : Bool) : Scan → Prop
  | .fail => True
  | .node n => Reached fs kids n ∧ wantParent = false
  | .parent n name => Reached fs kids n ∧ Component name
  | .link dir _ _ => Reached fs kids dir

omit w in
theorem component_takeWhile {p : List UInt8} (hne : (p.dropWhile (· == SLASH)).isEmpty = false)
    (hlen : ¬((p.dropWhile (· == SLASH)).takeWhile (· != SLASH)).length ≥ RAMFS64_NAME_MAX) :
    Component ((p.dropWhile (· == SLASH)).takeWhile (· != SLASH)) := by
  refine ⟨?_, ?_, Nat.lt_of_not_le hlen⟩
  · cases hp : p.dropWhile (· == SLASH) with
    | nil => simp [hp] at hne
    | cons b bs =>
      have hb : (b == SLASH) = false := by
        have := List.head?_dropWhile_not (· == SLASH) p
        rw [hp] at this
        simpa using this
      simp [bne, hb]
  · intro hmem
    exact absurd (List.mem_takeWhile_imp hmem) (by simp)

theorem scan_ok (wantParent followFinal : Bool) (fuel node : Nat) (p : List UInt8)
    (hnode : Reached fs kids node) :
    (scan fs wantParent followFinal fuel node p).Ok fs kids wantParent := by
  induction fuel generalizing node p with
  | zero =>
    rw [scan]
    trivial
  | succ fuel ih =>
    rw [scan]
    dsimp only
    split
    · split
      · trivial
      · rename_i hwp
        exact ⟨hnode, by simpa using hwp⟩
    · rename_i hne
      split
      · split
        · trivial
        · rename_i hlen
          exact ⟨hnode, component_takeWhile (by simpa using hne) hlen⟩
      · split
        · exact ih _ _ hnode
        · split
          · exact ih _ _ (hnode.up w)
          · split
            · trivial
            · rename_i hfind
              split
              · exact hnode
              · exact ih _ _ (findChild_reached w hnode hfind)

theorem walkFrom_reached (wantParent followFinal : Bool) (links node : Nat) (p : List UInt8)
    (hnode : Reached fs kids node)
    (h : walkFrom fs wantParent followFinal links node p = some (n, name)) :
    Reached fs kids n ∧ (wantParent = true → Component name) := by
  induction links generalizing node p with
  | zero =>
    have hok := scan_ok w wantParent followFinal (p.length + 1) node p hnode
    rw [walkFrom] at h
    split at h
    · exact absurd h (by simp)
    · rename_i hs
      rw [hs] at hok
      cases h
      exact ⟨hok.1, fun hwp => absurd hwp (by simp [hok.2])⟩
    · rename_i hs
      rw [hs] at hok
      cases h
      exact ⟨hok.1, fun _ => hok.2⟩
    · exact absurd h (by simp)
  | succ links ih =>
    have hok := scan_ok w wantParent followFinal (p.length + 1) node p hnode
    rw [walkFrom] at h
    split at h
    · exact absurd h (by simp)
    · rename_i hs
      rw [hs] at hok
      cases h
      exact ⟨hok.1, fun hwp => absurd hwp (by simp [hok.2])⟩
    · rename_i hs
      rw [hs] at hok
      cases h
      exact ⟨hok.1, fun _ => hok.2⟩
    · rename_i dir child rest hs
      rw [hs] at hok
      dsimp only at h
      split at h
      · exact absurd h (by simp)
      · refine ih _ _ ?_ h
        split
        · exact Reached.root
        · exact hok

theorem walk_reached {path : List UInt8} {wantParent followFinal : Bool}
    (h : walk fs path wantParent followFinal = some (n, name)) :
    Reached fs kids n ∧ (wantParent = true → Component name) := by
  rw [walk] at h
  split at h
  · exact walkFrom_reached w _ _ _ _ _ Reached.root h
  · exact absurd h (by simp)

theorem lookupNofollow_reached {path : List UInt8}
    (h : ramfs64LookupNofollow fs path = some n) : Reached fs kids n := by
  obtain ⟨⟨m, name⟩, hwalk, rfl⟩ := Option.map_eq_some_iff.mp h
  exact (walk_reached w hwalk).1

end

/-! ## §3 What a call can do -/

/-- The call made the node `i` under the name and the parent its path says. -/
structure Makes (fs : Fs) (kids : Nat → List Nat) (path : List UInt8) (isDir : Bool)
    (p i : Nat) (name : List UInt8) (fs' : Fs) : Prop where
  walked : walk fs path true true = some (p, name)
  reached : Reached fs kids p
  component : Component name
  absent : findChild fs p name = none
  room : fs.freeHead ≠ none
  alloc : allocNode fs name (some p) isDir = (some i, fs')

section

variable {fs : Fs} {kids : Nat → List Nat} {free : List Nat} (w : Wired fs kids free)
include w

omit w in
theorem allocNode_cases (fs : Fs) (name : List UInt8) (parent : Option Nat) (isDir : Bool) :
    allocNode fs name parent isDir = (none, fs) ∨
    ∃ i, fs.freeHead ≠ none ∧
      allocNode fs name parent isDir = (some i, (allocNode fs name parent isDir).2) := by
  cases hhead : fs.freeHead with
  | none => exact .inl (by rw [allocNode, hhead])
  | some i =>
    refine .inr ⟨i, by simp, ?_⟩
    simp only [allocNode, hhead]
    cases parent with
    | none => rfl
    | some p =>
      dsimp only
      split <;> rfl

theorem create_cases (path : List UInt8) (isDir : Bool) :
    (ramfs64Create fs path isDir).2 = fs ∨
    ∃ p i name, Makes fs kids path isDir p i name (ramfs64Create fs path isDir).2 := by
  rw [ramfs64Create]
  split
  · exact .inl rfl
  · rename_i p name hwalk
    obtain ⟨hreach, hcomp⟩ := walk_reached w hwalk
    split
    · exact .inl rfl
    · rename_i habsent
      rcases allocNode_cases fs name (some p) isDir with hnone | ⟨i, hroom, hsome⟩
      · exact .inl (by rw [hnone])
      · exact .inr ⟨p, i, name, hwalk, hreach, hcomp rfl, habsent, hroom, hsome⟩

omit w in
theorem ensureCapacity_frame (env : Env) (nd : Node64) (want : Nat) :
    ∃ d c, (ensureCapacity env nd want).2 = { nd with data := d, capacity := c } := by
  rw [ensureCapacity]
  split
  · exact ⟨_, _, rfl⟩
  · dsimp only
    split <;> exact ⟨_, _, rfl⟩

omit w in
theorem modify_modify (fs : Fs) (i : Nat) (f : Node64 → Node64) (nd : Node64) :
    ((fs.modify i f).modify i fun _ => nd) = fs.modify i fun _ => nd := by
  simp only [Fs.modify, Fs.mk.injEq, and_true]
  funext j
  by_cases hj : j = i <;> simp [hj]

theorem symlink_cases (env : Env) (path target : List UInt8) :
    (ramfs64Symlink env fs path target).2 = fs ∨
    ∃ p i name fs' d c n, target ≠ [] ∧ target.length < RAMFS64_PATH_MAX ∧
      Makes fs kids path false p i name fs' ∧
      ((ramfs64Symlink env fs path target).2 = fs'.modify i (fun _ =>
          { fs'.nodes i with isLink := true, data := d, capacity := c, size := n }) ∨
       (ramfs64Symlink env fs path target).2 = freeNode (fs'.modify i fun _ =>
          { fs'.nodes i with isLink := true, data := d, capacity := c, size := n }) i) := by
  rw [ramfs64Symlink]
  split
  · exact .inl rfl
  · rename_i hempty
    split
    · exact .inl rfl
    · rename_i hlong
      have htarget : target ≠ [] ∧ target.length < RAMFS64_PATH_MAX :=
        ⟨by simpa using hempty, Nat.lt_of_not_le hlong⟩
      split
      · exact .inl rfl
      · rename_i p name hwalk
        obtain ⟨hreach, hcomp⟩ := walk_reached w hwalk
        split
        · exact .inl rfl
        · rename_i habsent
          have habsent' : findChild fs p name = none := by simpa using habsent
          rcases allocNode_cases fs name (some p) false with hnone | ⟨i, hroom, hsome⟩
          · exact .inl (by rw [hnone])
          · rw [hsome]
            generalize hfs' : (allocNode fs name (some p) false).2 = fs'
            have hmakes : Makes fs kids path false p i name fs' :=
              ⟨hwalk, hreach, hcomp rfl, habsent', hroom, hfs' ▸ hsome⟩
            dsimp only
            rw [Fs.nodes_modify, if_pos rfl]
            obtain ⟨d, c, hcap⟩ := ensureCapacity_frame env
              { fs'.nodes i with isLink := true } (target.length + 1)
            rw [hcap, modify_modify, modify_modify]
            split
            · exact .inr ⟨p, i, name, fs', _, c, target.length, htarget.1, htarget.2, hmakes, .inl rfl⟩
            · exact .inr ⟨p, i, name, fs', d, c, _, htarget.1, htarget.2, hmakes, .inr rfl⟩

variable {name : List UInt8} {p : Nat} {fs' : Fs}

theorem Makes.wired {path : List UInt8} {isDir : Bool} {i : Nat}
    (m : Makes fs kids path isDir p i name fs') (link : Bool) (d : Option Mem) (c n : Nat) :
    Wired (fs'.modify i fun _ =>
        { fs'.nodes i with isLink := link, data := d, capacity := c, size := n })
      (update kids p (i :: kids p)) free.tail := by
  refine (w.alloc (m.reached.used w) m.alloc).1.congr rfl rfl fun j => ?_
  by_cases hj : j = i
  · subst hj; simp [Node64.wires]
  · simp [hj]

theorem Makes.kids_nil {path : List UInt8} {isDir : Bool} {i : Nat}
    (m : Makes fs kids path isDir p i name fs') :
    update kids p (i :: kids p) i = [] := by
  have hp := m.reached.used w
  obtain ⟨-, hunused, -⟩ := w.alloc hp m.alloc
  have hip : i ≠ p := fun h => by simp [← h, hunused] at hp
  rw [update_of_ne hip]
  exact w.kids_of_unused hunused

theorem unlink_cases (path : List UInt8) :
    (ramfs64Unlink fs path).2 = fs ∨
    ∃ n p, n ∈ kids p ∧ (fs.nodes n).isDir = false ∧ (ramfs64Unlink fs path).2 = dropName fs n := by
  rw [ramfs64Unlink]
  split
  · exact .inl rfl
  · rename_i n hlook
    have hreach := lookupNofollow_reached w hlook
    split
    · exact .inl rfl
    · rename_i hdir
      have hn : n ≠ ROOT := fun hn => hdir (hn ▸ w.root.2.1)
      obtain ⟨p, hp, -, -, -⟩ := hreach.has_parent w hn
      exact .inr ⟨n, p, hp, by simpa using hdir, rfl⟩

theorem rmdir_cases (path : List UInt8) :
    (ramfs64Rmdir fs path).2 = fs ∨
    ∃ n p, ramfs64LookupNofollow fs path = some n ∧ n ∈ kids p ∧
      (fs.nodes n).isDir = true ∧ (fs.nodes n).firstChild = none ∧
      (ramfs64Rmdir fs path).2 = freeNode fs n := by
  rw [ramfs64Rmdir]
  split
  · exact .inl rfl
  · rename_i n hlook
    have hreach := lookupNofollow_reached w hlook
    split
    · exact .inl rfl
    · rename_i hdir
      split
      · exact .inl rfl
      · rename_i hn
        obtain ⟨p, hp, -, -, -⟩ := hreach.has_parent w hn
        split
        · exact .inl rfl
        · rename_i hempty
          have hvalid : valid fs n = true := by
            rw [valid_natCast, w.kid_used hp, decide_eq_true (w.bound n (w.kid_used hp))]
            rfl
          rw [hasChildren, hvalid, Bool.true_and] at hempty
          exact .inr ⟨n, p, hlook, hp, by simpa using hdir, by simpa using hempty, rfl⟩

/-- A rename that got as far as changing something: `src` on the list of a
directory, the new parent, and the table `fs'` after what stood in the way
was taken out. -/
structure Renames (fs : Fs) (kids : Nat → List Nat) (oldpath newpath : List UInt8)
    (src p dst : Nat) (name : List UInt8) (fs' : Fs) : Prop where
  found : ramfs64LookupNofollow fs oldpath = some src
  walked : walk fs newpath true true = some (dst, name)
  kid : src ∈ kids p
  owner : (fs.nodes p).isDir = true
  reached : Reached fs kids dst
  component : Component name
  cleared : (findChild fs dst name = none ∧ fs' = fs) ∨
    ∃ e, e ≠ src ∧ findChild fs dst name = some e ∧
      (fs.nodes e).isDir = (fs.nodes src).isDir ∧
      ((fs.nodes e).isDir = true → (fs.nodes e).firstChild = none) ∧ fs' = dropName fs e

theorem Renames.cleared_wired {oldpath newpath : List UInt8} {src dst : Nat}
    (r : Renames fs kids oldpath newpath src p dst name fs') :
    ∃ kids' free', Wired fs' kids' free' ∧ src ∈ kids' p ∧ (fs'.nodes dst).used = true := by
  rcases r.cleared with ⟨-, rfl⟩ | ⟨e, hes, hfind, -, hempty, rfl⟩
  · exact ⟨kids, free, w, r.kid, r.reached.used w⟩
  · obtain ⟨-, he, -⟩ := findChild_some w hfind
    obtain ⟨⟨kids', free', w', -, hkids⟩, -, -, -, hcore⟩ := w.drop he
    have hpe : p ≠ e := by
      rintro rfl
      have hnil := w.kids_of_firstChild_none (hempty r.owner)
      exact absurd r.kid (by simp [hnil])
    have hde : dst ≠ e := by
      rintro rfl
      exact r.reached.not_self_parent w he
    refine ⟨kids', free', w', ?_, ?_⟩
    · rw [hkids p hpe]
      by_cases hpd : p = dst
      · subst hpd
        rw [update_self]
        exact (List.mem_erase_of_ne (Ne.symm hes)).mpr r.kid
      · rw [update_of_ne hpd]
        exact r.kid
    · exact ((congrArg Node64.used (hcore dst hde) :)).trans (r.reached.used w)

theorem rename_cases (oldpath newpath : List UInt8) :
    (ramfs64Rename fs oldpath newpath).2 = fs ∨
    ∃ src p dst name fs', Renames fs kids oldpath newpath src p dst name fs' ∧
      ((((fs'.nodes src).isDir && inSubtree fs' src dst) = true ∧
          (ramfs64Rename fs oldpath newpath).2 = fs') ∨
       (((fs'.nodes src).isDir && inSubtree fs' src dst) = false ∧
          (ramfs64Rename fs oldpath newpath).2 = moveNode fs' src dst name)) := by
  rw [ramfs64Rename]
  split
  · exact .inl rfl
  · rename_i src hlook
    have hreach := lookupNofollow_reached w hlook
    split
    · exact .inl rfl
    · rename_i hsrc
      obtain ⟨p, hkid, -, hdir, -⟩ := hreach.has_parent w hsrc
      split
      · exact .inl rfl
      · rename_i dst name hwalk
        obtain ⟨hdst, hcomp⟩ := walk_reached w hwalk
        dsimp only
        split
        · exact .inl rfl
        · rename_i hsame
          cases hfind : findChild fs dst name with
          | none =>
            refine .inr ⟨src, p, dst, name, fs,
              ⟨hlook, hwalk, hkid, hdir, hdst, hcomp rfl, .inl ⟨hfind, rfl⟩⟩, ?_⟩
            simp only [Option.bind_eq_bind, Option.bind_none]
            split
            · rename_i h
              exact .inl ⟨h, rfl⟩
            · rename_i h
              exact .inr ⟨by simpa using h, rfl⟩
          | some e =>
            have hes : e ≠ src := fun h => hsame (by rw [hfind, h])
            simp only [Option.bind_eq_bind, Option.bind_some]
            split
            · exact .inl rfl
            · rename_i hrefused
              split at hrefused
              · exact absurd hrefused (by simp)
              · rename_i hkind
                split at hrefused
                · exact absurd hrefused (by simp)
                · rename_i hempty
                  refine .inr ⟨src, p, dst, name, dropName fs e,
                    ⟨hlook, hwalk, hkid, hdir, hdst, hcomp rfl, .inr ⟨e, hes, hfind,
                      by simpa using hkind, ?_, rfl⟩⟩, ?_⟩
                  · intro hd
                    simpa [hd] using hempty
                  · split
                    · rename_i h
                      exact .inl ⟨h, rfl⟩
                    · rename_i h
                      exact .inr ⟨by simpa using h, rfl⟩

end

/-- Every `ramfs64_create` that the loop of `ramfs64_mkdirp` makes meets
`ok` in the state it is made from. -/
def MkdirpOk (ok : Fs → List UInt8 → Prop) : Nat → Fs → List UInt8 → List UInt8 → Prop
  | 0, _, _, _ => True
  | fuel + 1, fs, partialPath, p =>
    let p := p.dropWhile (· == SLASH)
    if p.isEmpty then True
    else
      let comp := p.takeWhile (· != SLASH)
      let rest := p.dropWhile (· != SLASH)
      if partialPath.length + comp.length + 1 ≥ RAMFS64_PATH_MAX then True
      else
        let partialPath :=
          (if partialPath.length > 1 then partialPath ++ [SLASH] else partialPath) ++ comp
        match ramfs64Lookup fs partialPath with
        | some _ => MkdirpOk ok fuel fs partialPath rest
        | none =>
          ok fs partialPath ∧
          match ramfs64Create fs partialPath true with
          | (none, _) => True
          | (some _, fs) => MkdirpOk ok fuel fs partialPath rest

theorem mkdirpFrom_keeps {P : Fs → Prop} (ok : Fs → List UInt8 → Prop)
    (hcreate : ∀ fs path, P fs → ok fs path → P (ramfs64Create fs path true).2)
    (fuel : Nat) (fs : Fs) (node : Option Nat) (partialPath p : List UInt8) (hP : P fs)
    (hok : MkdirpOk ok fuel fs partialPath p) : P (mkdirpFrom fuel fs node partialPath p).2 := by
  induction fuel generalizing fs node partialPath p with
  | zero => exact hP
  | succ fuel ih =>
    rw [MkdirpOk] at hok
    rw [mkdirpFrom]
    dsimp only at hok ⊢
    split
    · exact hP
    · rename_i hne
      rw [if_neg hne] at hok
      split
      · exact hP
      · rename_i hlen
        rw [if_neg hlen] at hok
        split
        · rename_i n hlook
          rw [hlook] at hok
          exact ih _ _ _ _ hP hok
        · rename_i hlook
          rw [hlook] at hok
          have hnext := hcreate _ _ hP hok.1
          split
          · rename_i fs' hmade
            rw [hmade] at hnext
            exact hnext
          · rename_i n fs' hmade
            rw [hmade] at hok hnext
            exact ih _ _ _ _ hnext hok.2

theorem mkdirpOk_of_forall {ok : Fs → List UInt8 → Prop} (h : ∀ fs path, ok fs path)
    (fuel : Nat) (fs : Fs) (partialPath p : List UInt8) : MkdirpOk ok fuel fs partialPath p := by
  induction fuel generalizing fs partialPath p with
  | zero => trivial
  | succ fuel ih =>
    rw [MkdirpOk]
    dsimp only
    split
    · trivial
    · split
      · trivial
      · split
        · exact ih _ _ _
        · refine ⟨h _ _, ?_⟩
          split
          · trivial
          · exact ih _ _ _

/-! ## §4 The table after `ramfs64_init` -/

/-- The same tree with the same descriptors on it: only what the nodes hold
may differ. -/
structure SameTree (fs fs' : Fs) : Prop where
  freeHead : fs'.freeHead = fs.freeHead
  nodeCount : fs'.nodeCount = fs.nodeCount
  wires : ∀ i, (fs'.nodes i).wires = (fs.nodes i).wires
  name : ∀ i, (fs'.nodes i).name = (fs.nodes i).name
  isLink : ∀ i, (fs'.nodes i).isLink = (fs.nodes i).isLink
  openers : ∀ i, (fs'.nodes i).openers = (fs.nodes i).openers

namespace SameTree

theorem refl (fs : Fs) : SameTree fs fs :=
  ⟨rfl, rfl, fun _ => rfl, fun _ => rfl, fun _ => rfl, fun _ => rfl⟩

theorem trans {fs₁ fs₂ fs₃ : Fs} (h : SameTree fs₁ fs₂) (h' : SameTree fs₂ fs₃) :
    SameTree fs₁ fs₃ :=
  ⟨h'.freeHead.trans h.freeHead, h'.nodeCount.trans h.nodeCount,
    fun i => (h'.wires i).trans (h.wires i), fun i => (h'.name i).trans (h.name i),
    fun i => (h'.isLink i).trans (h.isLink i), fun i => (h'.openers i).trans (h.openers i)⟩

theorem modify (fs : Fs) (n : Nat) {f : Node64 → Node64}
    (hwires : (f (fs.nodes n)).wires = (fs.nodes n).wires)
    (hname : (f (fs.nodes n)).name = (fs.nodes n).name)
    (hlink : (f (fs.nodes n)).isLink = (fs.nodes n).isLink)
    (hopen : (f (fs.nodes n)).openers = (fs.nodes n).openers) : SameTree fs (fs.modify n f) := by
  refine ⟨rfl, rfl, ?_, ?_, ?_, ?_⟩
  all_goals
    intro i
    by_cases hi : i = n
    · subst hi; simp [*]
    · simp [hi]

theorem wired {fs fs' : Fs} (h : SameTree fs fs') {kids : Nat → List Nat} {free : List Nat}
    (w : Wired fs kids free) : Wired fs' kids free :=
  w.congr h.freeHead h.nodeCount h.wires

end SameTree

theorem makeFramed_frame (env : Env) (nd : Node64) (bytes : Nat) :
    ∃ f fc d c, (makeFramed env nd bytes).2 =
      { nd with frames := f, fcap := fc, data := d, capacity := c } := by
  rw [makeFramed]
  dsimp only
  generalize (if (bytes + PAGE64_SIZE - 1) / PAGE64_SIZE = 0 then 1
    else (bytes + PAGE64_SIZE - 1) / PAGE64_SIZE) = need
  generalize growCap 64 (if nd.fcap = 0 then 16 else nd.fcap) need = cap
  split
  · exact ⟨_, _, _, _, rfl⟩
  · split
    · exact ⟨_, _, _, _, rfl⟩
    · split
      · exact ⟨_, _, _, _, rfl⟩
      · split <;> exact ⟨_, _, _, _, rfl⟩

theorem ramfs64Write_frame (env : Env) (nd : Node64) (offset : Nat) (buf : Mem) (len : Nat) :
    ∃ f fc d c n, (ramfs64Write env nd offset buf len).2 =
      { nd with frames := f, fcap := fc, data := d, capacity := c, size := n } := by
  obtain ⟨d, c, hcap⟩ := ensureCapacity_frame env nd (offset + len)
  obtain ⟨f, fc, d', c', hframe⟩ := makeFramed_frame env nd (offset + len)
  rw [ramfs64Write]
  dsimp only
  rw [hcap, hframe]
  split
  · exact ⟨_, _, _, _, _, rfl⟩
  · split
    · exact ⟨_, _, _, _, _, rfl⟩
    · split <;> exact ⟨_, _, _, _, _, rfl⟩

theorem setDevice_same (fs : Fs) (node device : Nat) :
    SameTree fs (ramfs64SetDevice fs node device) := by
  rw [ramfs64SetDevice]
  split
  · exact SameTree.modify fs node rfl rfl rfl rfl
  · exact SameTree.refl fs

theorem setMode_same (fs : Fs) (node mode : Nat) : SameTree fs (ramfs64SetMode fs node mode) := by
  rw [ramfs64SetMode]
  split
  · exact SameTree.modify fs node rfl rfl rfl rfl
  · exact SameTree.refl fs

theorem seedDevice_same (fs : Fs) (path : String) (device : Nat) :
    SameTree (ramfs64Create fs (text path) false).2 (seedDevice fs path device) := by
  rw [seedDevice]
  split
  · rename_i h
    rw [h]
    exact SameTree.refl _
  · rename_i h
    rw [h]
    exact (setDevice_same _ _ _).trans (setMode_same _ _ _)

theorem seedFile_same (env : Env) (fs : Fs) (path contents : String) :
    SameTree (ramfs64Create fs (text path) false).2 (seedFile env fs path contents) := by
  rw [seedFile]
  split
  · rename_i h
    rw [h]
    exact SameTree.refl _
  · rename_i n fs' h
    rw [h]
    split
    · obtain ⟨f, fc, d, c, k, hwrite⟩ := ramfs64Write_frame env (fs'.nodes n) 0
        (fun i => (text contents).getD i 0) (text contents).length
      refine SameTree.modify fs' n ?_ ?_ ?_ ?_ <;> simp only [hwrite, Node64.wires]
    · exact SameTree.refl _

theorem links_range {next : Nat → Option Nat} {bound : Nat} (count first : Nat)
    (hbound : first + count = bound)
    (hnext : ∀ i, first ≤ i → next i = if i + 1 < bound then some (i + 1) else none) :
    Links next (if first < bound then some first else none) (List.range' first count) := by
  induction count generalizing first with
  | zero =>
    rw [if_neg (by omega)]
    rfl
  | succ count ih =>
    refine ⟨by rw [if_pos (by omega)], ?_⟩
    rw [hnext first (Nat.le_refl first)]
    exact ih (first + 1) (by omega) fun i hi => hnext i (by omega)

theorem wired_root (mem : Nat → Node64) :
    Wired (allocNode (clearNodes mem) (text "/") none true).2 (fun _ => [])
      (List.range' 1 (RAMFS64_MAX_NODES - 1)) := by
  have hnodes : ∀ i, (allocNode (clearNodes mem) (text "/") none true).2.nodes i =
      if i = 0 then freshNode (text "/") none true else (clearNodes mem).nodes i := fun i => rfl
  have hnext : ∀ i, 1 ≤ i → (allocNode (clearNodes mem) (text "/") none true).2.next i =
      if i + 1 < RAMFS64_MAX_NODES then some (i + 1) else none := by
    intro i hi
    rw [Fs.next, hnodes, if_neg (by omega)]
    rfl
  have hused : ∀ i, ((allocNode (clearNodes mem) (text "/") none true).2.nodes i).used =
      decide (i = 0) := by
    intro i
    rw [hnodes]
    by_cases hi : i = 0
    · rw [if_pos hi, decide_eq_true hi]; rfl
    · rw [if_neg hi, decide_eq_false hi]; rfl
  constructor
  · intro i hi
    rw [hused, decide_eq_true_eq] at hi
    exact hi ▸ Nat.zero_lt_succ 4095
  · exact links_range (RAMFS64_MAX_NODES - 1) 1 rfl hnext
  · intro i
    rw [hused, decide_eq_false_iff_not, List.mem_range'_1]
    omega
  · intro p
    rw [hnodes]
    by_cases hp : p = 0
    · rw [if_pos hp]; rfl
    · rw [if_neg hp]; rfl
  · intro p c hc
    exact absurd hc List.not_mem_nil
  · intro p hp
    exact absurd rfl hp
  · exact ⟨rfl, rfl, rfl⟩
  · rfl
  · rw [List.length_range']
    rfl

end NovarisOS.Ramfs64
