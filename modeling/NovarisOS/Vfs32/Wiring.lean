/-
NovarisOS.Vfs32.Wiring — what the list operations of `kernel/ramfs.c` do to the
lists.

`Wired fs kids free` says which lists there are: `kids p` are the children of
`p`, in order, and `free` the free nodes. An operation changes one list or moves
a node from one to another, and its lemma says which lists there are afterwards
and that nothing else about a node changed; the proofs about the tree never look
at a link again.
-/
import NovarisOS.Vfs32.Tree

namespace NovarisOS.Vfs32

open Function (update update_apply update_of_ne update_self)

/-- What a node is, apart from where it is. -/
def Node.plain (nd : Node) : Node := { nd with parent := none, first_child := none, next_sibling := none }

structure Wired (fs : Vfs) (kids : Nat → List Nat) (free : List Nat) : Prop where
  nblocks_le : fs.nblocks ≤ VFS_MAX_BLOCKS
  bound : ∀ i, (fs.nodes i).in_use = true → i < VFS_NODES_PER_BLOCK * fs.nblocks
  free_links : Links fs.next fs.free_list free
  free_unused : ∀ i ∈ free, (fs.nodes i).in_use = false ∧ i < VFS_NODES_PER_BLOCK * fs.nblocks
  links : ∀ p, (fs.nodes p).in_use = true → Links fs.next (fs.nodes p).first_child (kids p)
  kid : ∀ p, ∀ c ∈ kids p, (fs.nodes c).in_use = true ∧ fs.parent c = some p ∧ (fs.nodes p).in_use = true

namespace Vfs

variable (fs : Vfs) (n j : Nat) (nd : Node)

@[simp] theorem nodes_set : (fs.set n nd).nodes j = if j = n then nd else fs.nodes j := rfl
@[simp] theorem nblocks_set : (fs.set n nd).nblocks = fs.nblocks := rfl
@[simp] theorem free_list_set : (fs.set n nd).free_list = fs.free_list := rfl
@[simp] theorem root_set : (fs.set n nd).root = fs.root := rfl

end Vfs

/-- Two stages of the file system whose nodes differ in where they are only. -/
structure SameNodes (fs fs' : Vfs) : Prop where
  plain : ∀ j, (fs'.nodes j).plain = (fs.nodes j).plain
  nblocks : fs'.nblocks = fs.nblocks
  free_list : fs'.free_list = fs.free_list
  root : fs'.root = fs.root

namespace SameNodes

variable {fs fs' fs₂ : Vfs}

theorem trans (h : SameNodes fs fs') (h' : SameNodes fs' fs₂) : SameNodes fs fs₂ :=
  ⟨fun j => (h'.plain j).trans (h.plain j), h'.nblocks.trans h.nblocks, h'.free_list.trans h.free_list,
    h'.root.trans h.root⟩

theorem set {n : Nat} {nd : Node} (h : nd.plain = (fs.nodes n).plain) : SameNodes fs (fs.set n nd) := by
  refine ⟨fun j => ?_, rfl, rfl, rfl⟩
  by_cases hj : j = n
  · subst hj
    simpa using h
  · simp [hj]

theorem in_use (h : SameNodes fs fs') (j : Nat) : (fs'.nodes j).in_use = (fs.nodes j).in_use :=
  (congrArg Node.in_use (h.plain j) :)

theorem name (h : SameNodes fs fs') (j : Nat) : (fs'.nodes j).name = (fs.nodes j).name :=
  (congrArg Node.name (h.plain j) :)

theorem kind (h : SameNodes fs fs') (j : Nat) : (fs'.nodes j).kind = (fs.nodes j).kind :=
  (congrArg Node.kind (h.plain j) :)

theorem refs (h : SameNodes fs fs') (j : Nat) : (fs'.nodes j).refs = (fs.nodes j).refs :=
  (congrArg Node.refs (h.plain j) :)

theorem unlinked (h : SameNodes fs fs') (j : Nat) : (fs'.nodes j).unlinked = (fs.nodes j).unlinked :=
  (congrArg Node.unlinked (h.plain j) :)

end SameNodes

namespace Wired

variable {fs fs' : Vfs} {kids : Nat → List Nat} {free : List Nat}

variable {p dir n : Nat}

theorem kid_unique (w : Wired fs kids free) {q c : Nat} (hp : c ∈ kids p) (hq : c ∈ kids q) : p = q :=
  Option.some.inj ((w.kid p c hp).2.1.symm.trans (w.kid q c hq).2.1)

theorem kids_length (w : Wired fs kids free) (p : Nat) : (kids p).length ≤ POOL := by
  cases hk : kids p with
  | nil => exact Nat.zero_le _
  | cons c cs =>
    have hp := (w.kid p c (hk ▸ List.mem_cons_self)).2.2
    have hlen := (w.links p hp).length_le fun x hx => w.bound x (w.kid p x hx).1
    have hle := w.nblocks_le
    rw [← hk]
    simp only [POOL, VFS_NODES_PER_BLOCK, VFS_MAX_BLOCKS] at *
    omega

theorem not_free (w : Wired fs kids free) {i : Nat} (hi : (fs.nodes i).in_use = true) : i ∉ free := fun h => by
  rw [(w.free_unused i h).1] at hi
  cases hi

theorem not_kid (w : Wired fs kids free) {i : Nat} (hi : (fs.nodes i).in_use = false) (p : Nat) :
    i ∉ kids p := fun h => by
  rw [(w.kid p i h).1] at hi
  cases hi

theorem kids_of_unused (w : Wired fs kids free) (hp : (fs.nodes p).in_use = false) : kids p = [] := by
  cases hk : kids p with
  | nil => rfl
  | cons c cs =>
    rw [(w.kid p c (hk ▸ List.mem_cons_self)).2.2] at hp
    cases hp

theorem kids_nil (w : Wired fs kids free) (hp : (fs.nodes p).in_use = true)
    (hfirst : (fs.nodes p).first_child = none) : kids p = [] :=
  (hfirst ▸ w.links p hp : Links fs.next none (kids p)).eq_nil

theorem nodup (w : Wired fs kids free) (p : Nat) : (kids p).Nodup := by
  cases hp : (fs.nodes p).in_use with
  | false =>
    rw [w.kids_of_unused hp]
    exact List.nodup_nil
  | true => exact (w.links p hp).nodup

theorem mem_erase (w : Wired fs kids free) (hn : n ∈ kids dir) (q c : Nat) :
    c ∈ update kids dir ((kids dir).erase n) q ↔ c ∈ kids q ∧ c ≠ n := by
  by_cases hq : q = dir
  · subst hq
    rw [update_self, (w.nodup q).mem_erase_iff]
    exact and_comm
  · rw [update_of_ne hq]
    exact ⟨fun hc => ⟨hc, fun he => hq (w.kid_unique (he ▸ hc) hn)⟩, And.left⟩

theorem finddir_eq (w : Wired fs kids free) (hp : (fs.nodes p).in_use = true) (name : List UInt8) :
    ramfs_finddir fs p name = (kids p).find? fun c => (fs.nodes c).name == name :=
  seek_eq_find? _ (w.links p hp) (w.kids_length p)

theorem relink (w : Wired fs kids free) (h : SameNodes fs fs') {l : List Nat}
    (hfree : ∀ i ∈ free, fs'.next i = fs.next i)
    (hother : ∀ p, p ≠ dir → (fs.nodes p).in_use = true → (fs'.nodes p).first_child = (fs.nodes p).first_child ∧
      ∀ c ∈ kids p, fs'.next c = fs.next c ∧ fs'.parent c = fs.parent c)
    (hl : (fs.nodes dir).in_use = true → Links fs'.next (fs'.nodes dir).first_child l)
    (hkid : ∀ c ∈ l, (fs.nodes c).in_use = true ∧ fs'.parent c = some dir ∧ (fs.nodes dir).in_use = true) :
    Wired fs' (update kids dir l) free where
  nblocks_le := h.nblocks ▸ w.nblocks_le
  bound i hi := h.nblocks ▸ w.bound i (h.in_use i ▸ hi)
  free_links := h.free_list ▸ w.free_links.congr hfree
  free_unused i hi := by
    rw [h.in_use, h.nblocks]
    exact w.free_unused i hi
  links p hp := by
    rw [h.in_use] at hp
    by_cases hne : p = dir
    · subst hne
      simpa using hl hp
    · obtain ⟨hfirst, hsame⟩ := hother p hne hp
      rw [hfirst, update_of_ne hne]
      exact (w.links p hp).congr fun c hc => (hsame c hc).1
  kid p c hc := by
    rw [h.in_use, h.in_use]
    by_cases hne : p = dir
    · subst hne
      exact hkid c (by simpa using hc)
    · rw [update_of_ne hne] at hc
      obtain ⟨hused, hparent, hp⟩ := w.kid p c hc
      exact ⟨hused, ((hother p hne hp).2 c hc).2.trans hparent, hp⟩

theorem set_plain (w : Wired fs kids free) {nd : Node} (hused : nd.in_use = (fs.nodes n).in_use)
    (hparent : nd.parent = (fs.nodes n).parent) (hfirst : nd.first_child = (fs.nodes n).first_child)
    (hnext : nd.next_sibling = (fs.nodes n).next_sibling) : Wired (fs.set n nd) kids free := by
  have hu : ∀ j, ((fs.set n nd).nodes j).in_use = (fs.nodes j).in_use := fun j => by
    by_cases hj : j = n <;> simp [hj, hused]
  have hn : (fs.set n nd).next = fs.next := funext fun j => by
    by_cases hj : j = n <;> simp [Vfs.next, hj, hnext]
  have hp : (fs.set n nd).parent = fs.parent := funext fun j => by
    by_cases hj : j = n <;> simp [Vfs.parent, hj, hparent]
  have hf : ∀ j, ((fs.set n nd).nodes j).first_child = (fs.nodes j).first_child := fun j => by
    by_cases hj : j = n <;> simp [hj, hfirst]
  constructor
  · exact w.nblocks_le
  · exact fun i hi => w.bound i (hu i ▸ hi)
  · rw [hn]
    exact w.free_links
  · intro i hi
    rw [hu]
    exact w.free_unused i hi
  · intro p hused
    rw [hn, hf]
    exact w.links p (hu p ▸ hused)
  · intro p c hc
    rw [hu, hu, hp]
    exact w.kid p c hc

/-! ## Appending and removing -/

/-- A new last child. -/
theorem append (w : Wired fs kids free) (dir child : Nat) (hdir : (fs.nodes dir).in_use = true)
    (hchild : (fs.nodes child).in_use = true) (hfresh : ∀ p, child ∉ kids p) :
    Wired (vfs_dir_append fs dir child) (update kids dir (kids dir ++ [child])) free ∧
      SameNodes fs (vfs_dir_append fs dir child) ∧
      ∀ j, (vfs_dir_append fs dir child).parent j = if j = child then some dir else fs.parent j := by
  set nd : Node := { fs.nodes child with parent := some dir, next_sibling := none } with hnd
  set fs₁ := fs.set child nd with hfs₁
  have hsame : SameNodes fs fs₁ := .set rfl
  have hparent : ∀ j, fs₁.parent j = if j = child then some dir else fs.parent j := fun j => by
    by_cases hj : j = child <;> simp [Vfs.parent, hfs₁, hnd, hj]
  have hnext : ∀ j, j ≠ child → fs₁.next j = fs.next j := fun j hj => by simp [Vfs.next, hfs₁, hj]
  have hchild_next : fs₁.next child = none := by simp [Vfs.next, hfs₁, hnd]
  have hfirst : ∀ j, (fs₁.nodes j).first_child = (fs.nodes j).first_child := fun j => by
    by_cases hj : j = child <;> simp [hfs₁, hnd, hj]
  have hne : ∀ p, ∀ c ∈ kids p, c ≠ child := fun p c hc he => hfresh p (he ▸ hc)
  have hfree : ∀ i ∈ free, i ≠ child := fun i hi he => w.not_free hchild (he ▸ hi)
  have hl₁ : Links fs₁.next (fs₁.nodes dir).first_child (kids dir) := by
    rw [hfirst]
    exact (w.links dir hdir).congr fun c hc => hnext c (hne dir c hc)
  have hkid : ∀ c ∈ kids dir ++ [child], (fs.nodes c).in_use = true ∧ fs₁.parent c = some dir ∧
      (fs.nodes dir).in_use = true := by
    intro c hc
    rcases List.mem_append.mp hc with hc | hc
    · rw [hparent, if_neg (hne dir c hc)]
      exact w.kid dir c hc
    · obtain rfl := List.mem_singleton.mp hc
      rw [hparent, if_pos rfl]
      exact ⟨hchild, rfl, hdir⟩
  unfold vfs_dir_append
  dsimp only
  rw [← hnd, ← hfs₁]
  cases hcase : (fs₁.nodes dir).first_child with
  | none =>
    have hnil : kids dir = [] := (hcase ▸ hl₁ : Links fs₁.next none (kids dir)).eq_nil
    have hsame₂ : SameNodes fs₁ (fs₁.set dir { fs₁.nodes dir with first_child := some child }) := .set rfl
    have hparent₂ : ∀ j, (fs₁.set dir { fs₁.nodes dir with first_child := some child }).parent j =
        fs₁.parent j := fun j => by
      by_cases hj : j = dir <;> simp [Vfs.parent, hj]
    have hnext₂ : ∀ j, (fs₁.set dir { fs₁.nodes dir with first_child := some child }).next j = fs₁.next j := fun j => by
      by_cases hj : j = dir <;> simp [Vfs.next, hj]
    refine ⟨w.relink (hsame.trans hsame₂) ?_ ?_ ?_ ?_, hsame.trans hsame₂, fun j => (hparent₂ j).trans (hparent j)⟩
    · exact fun i hi => (hnext₂ i).trans (hnext i (hfree i hi))
    · intro p hp _
      refine ⟨by simp [hp, hfirst], fun c hc => ⟨(hnext₂ c).trans (hnext c (hne p c hc)), ?_⟩⟩
      rw [hparent₂, hparent, if_neg (hne p c hc)]
    · intro _
      rw [hnil]
      exact ⟨by simp, (hnext₂ child).trans hchild_next⟩
    · exact fun c hc => ⟨(hkid c hc).1, (hparent₂ c).trans (hkid c hc).2.1, hdir⟩
  | some c₀ =>
    -- the walk to the tail
    obtain ⟨l, tail, hl⟩ : ∃ l tail, kids dir = l ++ [tail] :=
      ⟨_, _, (List.dropLast_concat_getLast (hcase ▸ hl₁ : Links fs₁.next (some c₀) (kids dir)).ne_nil).symm⟩
    have hwalk : seek fs₁.next (fun c => (fs₁.next c).isNone) POOL (some c₀) = some tail := by
      rw [← hcase, seek_eq_find? _ hl₁ (w.kids_length dir), hl, List.find?_append]
      rw [hl] at hl₁
      have hbefore : l.find? (fun c => (fs₁.next c).isNone) = none := by
        rw [List.find?_eq_none]
        intro c hc hnone
        obtain ⟨a, b, rfl⟩ := List.append_of_mem hc
        rw [List.append_assoc, List.cons_append] at hl₁
        have htail := hl₁.suffix
        rw [Option.isNone_iff_eq_none.mp hnone] at htail
        exact absurd htail.eq_nil (by simp)
      rw [hbefore]
      simp [hl₁.last]
    rw [hwalk]
    have htail : tail ∈ kids dir := hl ▸ List.mem_append_right l List.mem_cons_self
    set nd₂ : Node := { fs₁.nodes tail with next_sibling := some child } with hnd₂
    have hsame₂ : SameNodes fs₁ (fs₁.set tail nd₂) := .set rfl
    have hparent₂ : ∀ j, (fs₁.set tail nd₂).parent j = fs₁.parent j := fun j => by
      by_cases hj : j = tail <;> simp [Vfs.parent, hnd₂, hj]
    have hnext₂ : ∀ j, j ≠ tail → (fs₁.set tail nd₂).next j = fs₁.next j := fun j hj => by simp [Vfs.next, hj]
    have hfirst₂ : ∀ j, ((fs₁.set tail nd₂).nodes j).first_child = (fs₁.nodes j).first_child := fun j => by
      by_cases hj : j = tail <;> simp [hnd₂, hj]
    refine ⟨w.relink (hsame.trans hsame₂) ?_ ?_ ?_ ?_, hsame.trans hsame₂, fun j => (hparent₂ j).trans (hparent j)⟩
    · intro i hi
      rw [hnext₂ i fun he => w.not_free (w.kid dir tail htail).1 (he ▸ hi), hnext i (hfree i hi)]
    · intro p hp _
      refine ⟨(hfirst₂ p).trans (hfirst p), fun c hc => ?_⟩
      rw [hnext₂ c fun he => hp (w.kid_unique hc (he ▸ htail)), hnext c (hne p c hc), hparent₂,
          hparent, if_neg (hne p c hc)]
      exact ⟨rfl, rfl⟩
    · intro _
      rw [hfirst₂, hl, List.append_assoc]
      rw [hl] at hl₁
      refine hl₁.concat (by simp [Vfs.next, hnd₂]) ?_ fun z hz => hnext₂ z ?_
      · rw [hnext₂ child (hne dir tail htail).symm, hchild_next]
      · rintro rfl
        have hnodup := hl₁.nodup
        rw [List.nodup_append] at hnodup
        exact hnodup.2.2 z hz z List.mem_cons_self rfl
    · exact fun c hc => ⟨(hkid c hc).1, (hparent₂ c).trans (hkid c hc).2.1, hdir⟩

/-- Taking a child off the list it is on. -/
theorem remove (w : Wired fs kids free) {child : Nat} (hc : child ∈ kids dir) :
    Wired (vfs_dir_remove fs dir child) (update kids dir ((kids dir).erase child)) free ∧
      SameNodes fs (vfs_dir_remove fs dir child) ∧
      ∀ j, (vfs_dir_remove fs dir child).parent j = if j = child then none else fs.parent j := by
  obtain ⟨hchild, _, hdir⟩ := w.kid dir child hc
  have hlinks := w.links dir hdir
  have hnodup := hlinks.nodup
  -- the two cases differ in what was linked past the child
  have key : ∀ (n : Nat) (nd : Node), SameNodes fs (fs.set n nd) → n ∉ free → nd.parent = (fs.nodes n).parent →
      (∀ p, p ≠ dir → (fs.nodes p).in_use = true → ((fs.set n nd).nodes p).first_child = (fs.nodes p).first_child ∧
        ∀ c ∈ kids p, (fs.set n nd).next c = fs.next c) →
      Links (fs.set n nd).next ((fs.set n nd).nodes dir).first_child ((kids dir).erase child) →
      Wired (detach (fs.set n nd) child) (update kids dir ((kids dir).erase child)) free ∧
        SameNodes fs (detach (fs.set n nd) child) ∧
        ∀ j, (detach (fs.set n nd) child).parent j = if j = child then none else fs.parent j := by
    intro n nd hsame hnfree hp hother hl
    have hparent₁ : ∀ j, (fs.set n nd).parent j = fs.parent j := fun j => by
      by_cases hj : j = n <;> simp [Vfs.parent, hj, hp]
    have hparent : ∀ j, (detach (fs.set n nd) child).parent j = if j = child then none else fs.parent j := fun j => by
      rw [← hparent₁]
      by_cases hj : j = child <;> simp [Vfs.parent, detach, hj]
    have hnext : ∀ j, j ≠ child → (detach (fs.set n nd) child).next j = (fs.set n nd).next j := fun j hj => by
      simp [Vfs.next, detach, hj]
    have hfirst : ∀ j, ((detach (fs.set n nd) child).nodes j).first_child =
        ((fs.set n nd).nodes j).first_child := fun j => by
      by_cases hj : j = child <;> simp [detach, hj]
    have hsame' : SameNodes fs (detach (fs.set n nd) child) := hsame.trans (.set rfl)
    refine ⟨w.relink hsame' ?_ ?_ ?_ ?_, hsame', hparent⟩
    · intro i hi
      rw [hnext i fun he => w.not_free hchild (he ▸ hi)]
      have hin : i ≠ n := fun he => hnfree (he ▸ hi)
      simp [Vfs.next, hin]
    · intro p hpdir hused
      obtain ⟨hf, hn⟩ := hother p hpdir hused
      refine ⟨(hfirst p).trans hf, fun c hcp => ?_⟩
      have hcc : c ≠ child := fun he => hpdir (w.kid_unique hcp (he ▸ hc))
      rw [hnext c hcc, hn c hcp, hparent, if_neg hcc]
      exact ⟨rfl, rfl⟩
    · intro _
      rw [hfirst]
      exact hl.congr fun c hcl => hnext c fun he => by
        subst he
        exact (hnodup.mem_erase_iff.mp hcl).1 rfl
    · intro c hcl
      obtain ⟨hcc, hck⟩ := hnodup.mem_erase_iff.mp hcl
      rw [hparent, if_neg hcc]
      exact w.kid dir c hck
  unfold vfs_dir_remove
  split
  · next hhead =>
    have hnext : ∀ j, (fs.set dir { fs.nodes dir with first_child := fs.next child }).next j = fs.next j := fun j => by
      by_cases hj : j = dir <;> simp [Vfs.next, hj]
    refine key dir _ (.set rfl) (w.not_free hdir) rfl ?_ ?_
    · exact fun p hp _ => ⟨by simp [hp], fun c _ => hnext c⟩
    · rw [hhead] at hlinks
      simpa using hlinks.erase_head.congr fun c _ => hnext c
  · next hhead =>
    obtain ⟨c₁, hc₁, hnext₁⟩ := hlinks.exists_pred hc hhead
    obtain ⟨c, hseek⟩ : ∃ c, seek fs.next (fun c => fs.next c == some child) POOL
        (fs.nodes dir).first_child = some c := by
      rw [seek_eq_find? _ hlinks (w.kids_length dir)]
      exact Option.isSome_iff_exists.mp (List.find?_isSome.mpr ⟨c₁, hc₁, by simpa using hnext₁⟩)
    rw [hseek]
    rw [seek_eq_find? _ hlinks (w.kids_length dir)] at hseek
    have hcmem := List.mem_of_find?_eq_some hseek
    have hcnext : fs.next c = some child := by simpa using List.find?_some hseek
    have hupdate : (fs.set c { fs.nodes c with next_sibling := fs.next child }).next =
        update fs.next c (fs.next child) :=
      funext fun j => by by_cases hj : j = c <;> simp [Vfs.next, update_apply, hj]
    refine key c _ (.set rfl) (w.not_free (w.kid dir c hcmem).1) rfl ?_ ?_
    · intro p hp _
      refine ⟨by by_cases hpc : p = c <;> simp [hpc], fun d hd => ?_⟩
      rw [hupdate, update_of_ne]
      rintro rfl
      exact hp (w.kid_unique hd hcmem)
    · have hfirst : ((fs.set c { fs.nodes c with next_sibling := fs.next child }).nodes
          dir).first_child = (fs.nodes dir).first_child := by
        by_cases hdc : dir = c <;> simp [hdc]
      rw [hupdate, hfirst]
      exact hlinks.erase_pred hcmem hcnext

/-! ## Taking a node and giving it back -/

/-- What a new node leaves of the others. -/
structure Taken (fs fs' : Vfs) (n : Nat) : Prop where
  unused : (fs.nodes n).in_use = false
  fresh : fs'.nodes n = { blank with in_use := true }
  in_use : ∀ j, j ≠ n → (fs'.nodes j).in_use = (fs.nodes j).in_use
  used : ∀ j, (fs.nodes j).in_use = true → fs'.nodes j = fs.nodes j
  root : fs'.root = fs.root

theorem take (w : Wired fs kids free) (h : take_free fs = some (n, fs')) :
    (∃ free', Wired fs' kids free') ∧ Taken fs fs' n := by
  unfold take_free at h
  split at h
  · cases h
  · next m hm =>
    cases h
    obtain ⟨rest, hfree⟩ : ∃ rest, free = n :: rest := by
      cases hf : free with
      | nil => exact absurd (hm.symm.trans (hf ▸ w.free_links : Links fs.next fs.free_list [])) (by simp)
      | cons m rest => exact ⟨rest, by rw [Option.some.inj (hm.symm.trans (hf ▸ w.free_links : Links fs.next fs.free_list (m :: rest)).1)]⟩
    subst hfree
    obtain ⟨hunused, hbound⟩ := w.free_unused n List.mem_cons_self
    have hother : ∀ j, j ≠ n → ({ fs with free_list := fs.next n }.set n
        { blank with in_use := true }).nodes j = fs.nodes j :=
      fun j hj => by simp [hj]
    have hne : ∀ j, (fs.nodes j).in_use = true → j ≠ n := fun j hj he => by
      rw [he, hunused] at hj
      cases hj
    have hnext : ∀ j, j ≠ n → ({ fs with free_list := fs.next n }.set n
        { blank with in_use := true }).next j = fs.next j :=
      fun j hj => by simp [Vfs.next, hj]
    refine ⟨⟨rest, w.nblocks_le, ?_, ?_, ?_, ?_, ?_⟩, hunused, by simp,
        fun j hj => by rw [hother j hj], fun j hj => hother j (hne j hj), rfl⟩
    · intro i hi
      by_cases hin : i = n
      · exact hin ▸ hbound
      · exact w.bound i (hother i hin ▸ hi)
    · exact w.free_links.2.congr fun j hj => hnext j fun he => (List.nodup_cons.mp w.free_links.nodup).1 (he ▸ hj)
    · intro i hi
      rw [hother i fun he => (List.nodup_cons.mp w.free_links.nodup).1 (he ▸ hi)]
      exact w.free_unused i (List.mem_cons_of_mem _ hi)
    · intro p hp
      by_cases hpn : p = n
      · subst hpn
        rw [w.kids_of_unused hunused]
        simp [Links, blank]
      · rw [hother p hpn] at hp ⊢
        exact (w.links p hp).congr fun c hc => hnext c (hne c (w.kid p c hc).1)
    · intro p c hc
      obtain ⟨hused, hparent, hp⟩ := w.kid p c hc
      rw [hother c (hne c hused), hother p (hne p hp)]
      refine ⟨hused, ?_, hp⟩
      rw [Vfs.parent, hother c (hne c hused)]
      exact hparent

theorem links_block {next : Nat → Option Nat} {base : Nat} (m : Nat)
    (hnext : ∀ i, i < m → next (base + i) = if i = 0 then none else some (base + i - 1)) :
    Links next (if m = 0 then none else some (base + m - 1)) ((List.range m).reverse.map (base + ·)) := by
  induction m with
  | zero => rfl
  | succ m ih =>
    rw [List.range_succ, List.reverse_append]
    refine ⟨by simp, ?_⟩
    rw [hnext m (Nat.lt_succ_self m)]
    exact ih fun i hi => hnext i (Nat.lt_succ_of_lt hi)

theorem grow {heap : Nat → Bool} (w : Wired fs kids []) (h : grow_pool heap fs = some fs') :
    (∃ free', Wired fs' kids free') ∧ (∀ j, (fs'.nodes j).in_use = (fs.nodes j).in_use) ∧
      (∀ j, (fs.nodes j).in_use = true → fs'.nodes j = fs.nodes j) ∧ fs'.root = fs.root := by
  have hempty : fs.free_list = none := w.free_links
  unfold grow_pool at h
  split at h
  · cases h
  · next hlt =>
    split at h
    · cases h
      have hlt : fs.nblocks < VFS_MAX_BLOCKS := Nat.lt_of_not_le hlt
      have hout : ∀ j, (fs.nodes j).in_use = true →
          ¬ (128 * fs.nblocks ≤ j ∧ j < 128 * fs.nblocks + 128) := fun j hj hin => by
        have := w.bound j hj
        simp only [VFS_NODES_PER_BLOCK] at this
        omega
      have hin_use : ∀ j, (fs.nodes j).in_use = true ∨ (fs.nodes j).in_use = false := fun j => by
        cases (fs.nodes j).in_use <;> simp
      refine ⟨⟨(List.range 128).reverse.map (128 * fs.nblocks + ·), ?_, ?_, ?_, ?_, ?_, ?_⟩, ?_, ?_, rfl⟩
      · exact hlt
      · intro i hi
        dsimp only at hi ⊢
        split at hi
        · cases hi
        · have := w.bound i hi
          simp only [VFS_NODES_PER_BLOCK] at *
          omega
      · refine links_block 128 fun i hi => ?_
        simp [Vfs.next, hempty, hi]
      · intro i hi
        obtain ⟨m, hm, rfl⟩ := List.mem_map.mp hi
        have hm : m < 128 := by simpa using hm
        simp only [VFS_NODES_PER_BLOCK]
        refine ⟨?_, by omega⟩
        rw [if_pos ⟨by omega, by omega⟩]
        rfl
      · intro p hp
        dsimp only at hp ⊢
        split at hp
        · cases hp
        · next hpo =>
          rw [if_neg hpo]
          refine (w.links p hp).congr fun c hc => ?_
          exact congrArg Node.next_sibling (if_neg (hout c (w.kid p c hc).1))
      · intro p c hc
        obtain ⟨hused, hparent, hp⟩ := w.kid p c hc
        dsimp only
        rw [if_neg (hout c hused), if_neg (hout p hp)]
        exact ⟨hused, (congrArg Node.parent (if_neg (hout c hused))).trans hparent, hp⟩
      · intro j
        dsimp only
        split
        · next hj =>
          rcases hin_use j with hu | hu
          · exact absurd hj (hout j hu)
          · rw [hu]
            rfl
        · rfl
      · intro j hj
        exact if_neg (hout j hj)
    · cases h

theorem alloc {heap : Nat → Bool} (w : Wired fs kids free) (h : vfs_node_alloc heap fs = some (n, fs')) :
    (∃ free', Wired fs' kids free') ∧ Taken fs fs' n := by
  unfold vfs_node_alloc at h
  split at h
  · next hempty =>
    split at h
    · cases h
    · next fs₁ hgrow =>
      obtain rfl : free = [] := (hempty ▸ w.free_links : Links fs.next none free).eq_nil
      obtain ⟨⟨free₁, w₁⟩, hin_use, hused, hroot⟩ := w.grow hgrow
      obtain ⟨hw, ht⟩ := w₁.take h
      refine ⟨hw, (hin_use n).symm.trans ht.unused, ht.fresh,
          fun j hj => (ht.in_use j hj).trans (hin_use j), fun j hj => ?_, ht.root.trans hroot⟩
      rw [ht.used j ((hin_use j).trans hj), hused j hj]
  · exact w.take h

theorem release (w : Wired fs kids free) (hn : (fs.nodes n).in_use = true) (hfree : ∀ p, n ∉ kids p)
    (hkids : kids n = []) :
    (∃ free', Wired (vfs_node_release fs n) kids free') ∧ ((vfs_node_release fs n).nodes n).in_use = false ∧
      (∀ j, j ≠ n → (vfs_node_release fs n).nodes j = fs.nodes j) ∧ (vfs_node_release fs n).root = fs.root := by
  unfold vfs_node_release
  rw [if_pos hn]
  have hnext : ∀ j, j ≠ n → Vfs.next { fs.set n
      { blank with next_sibling := fs.free_list } with free_list := some n } j = fs.next j :=
    fun j hj => by simp [Vfs.next, hj]
  refine ⟨⟨n :: free, w.nblocks_le, ?_, ?_, ?_, ?_, ?_⟩, by simp [blank], fun j hj => by simp [hj], rfl⟩
  · intro i hi
    by_cases hin : i = n
    · exact hin ▸ w.bound n hn
    · exact w.bound i (by simpa [hin] using hi)
  · refine ⟨rfl, ?_⟩
    have hnn : Vfs.next { fs.set n { blank with next_sibling := fs.free_list } with free_list := some n } n = fs.free_list := by
      simp [Vfs.next]
    rw [hnn]
    exact w.free_links.congr fun j hj => hnext j fun he => w.not_free hn (he ▸ hj)
  · intro i hi
    rcases List.mem_cons.mp hi with rfl | hi
    · exact ⟨by simp [blank], w.bound i hn⟩
    · have hin : i ≠ n := fun he => w.not_free hn (he ▸ hi)
      simpa [hin] using w.free_unused i hi
  · intro p hp
    by_cases hpn : p = n
    · subst hpn
      simp [blank] at hp
    · simp only [Vfs.nodes_set, if_neg hpn] at hp ⊢
      exact (w.links p hp).congr fun c hc => hnext c fun he => hfree p (he ▸ hc)
  · intro p c hc
    obtain ⟨hused, hparent, hp⟩ := w.kid p c hc
    have hcn : c ≠ n := fun he => hfree p (he ▸ hc)
    have hpn : p ≠ n := by
      rintro rfl
      rw [hkids] at hc
      exact absurd hc List.not_mem_nil
    simp only [Vfs.nodes_set, if_neg hcn, if_neg hpn, Vfs.parent]
    exact ⟨hused, hparent, hp⟩

end Wired

end NovarisOS.Vfs32
