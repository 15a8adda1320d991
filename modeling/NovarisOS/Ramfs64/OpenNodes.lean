/-
NovarisOS.Ramfs64.OpenNodes — a node somebody has open keeps its slot.

`ramfs64_ref_node` and `ramfs64_unref_node` count the descriptors on a node.
Four calls can take a node's last name away, and the slot must then wait for
the last descriptor: `release_node` is "only ever called when the node has
no name and no openers left".
-/
import NovarisOS.Ramfs64.TreeTheorems

namespace NovarisOS.Ramfs64

open Function (update update_of_ne update_self)

/-- The file or directory in a slot, apart from its name, its place in the
tree and the descriptors on it. -/
def Node64.object (nd : Node64) : Node64 :=
  { nd with
    name := []
    parent := none
    openers := 0
    unlinked := false
    firstChild := none
    nextSibling := none }

/-- The filesystem and the references its callers hold. -/
structure Session where
  fs : Fs
  /-- Refs not yet matched by an unref. -/
  outstanding : Nat → Nat
  /-- What a slot held when the first of them was taken. -/
  opened : Nat → Option Node64

def Session.call (s : Session) (op : TreeOp) : Session × Int :=
  let r := treeCall s.fs op
  match op with
  | .refNode node =>
    if valid s.fs node then
      let n := node.toNat
      ({ fs := r.1
         outstanding := update s.outstanding n (s.outstanding n + 1)
         opened :=
           if s.outstanding n = 0 then update s.opened n (some (s.fs.nodes n).object)
           else s.opened }, r.2)
    else ({ s with fs := r.1 }, r.2)
  | .unrefNode node =>
    let n := node.toNat
    ({ s with
        fs := r.1
        outstanding := update s.outstanding n (s.outstanding n - 1) }, r.2)
  | _ => ({ s with fs := r.1 }, r.2)

def sessions : Machine Session TreeOp Int := ⟨Session.call⟩

/-- A filesystem nobody has opened anything on. -/
def Session.start (env : Env) (mem : Nat → Node64) : Session where
  fs := ramfs64Init env mem
  outstanding _ := 0
  opened _ := none

/-- Every unref gives up a reference that was taken. -/
def Session.Matched (s : Session) : TreeOp → Prop
  | .unrefNode node => 0 ≤ node ∧ 0 < s.outstanding node.toNat
  | _ => True

/-- A `ramfs64_rmdir` that is about to remove a directory finds it closed. -/
def Session.RmdirClosed (s : Session) : TreeOp → Prop
  | .rmdir path => ∀ n, ramfs64LookupNofollow s.fs (cstr path) = some n →
      (s.fs.nodes n).isDir = true → (s.fs.nodes n).firstChild = none → n ≠ ROOT →
      (s.fs.nodes n).openers = 0
  | _ => True

/-- A slot with references outstanding is in use, holds what it held when it
was opened, and is not the one `alloc_node` hands out. -/
def Session.NotRecycled (s : Session) : Prop :=
  ∀ n, 0 < s.outstanding n →
    (s.fs.nodes n).used = true ∧
    s.opened n = some (s.fs.nodes n).object ∧
    ∀ name parent isDir, (allocNode s.fs name parent isDir).1 ≠ some n

/-! ## What the calls on names do to a node -/

/-- Open nodes stay as they are, and a node that was not there before comes
without descriptors. -/
structure Keeps (fs fs' : Fs) : Prop where
  held : ∀ n, (fs.nodes n).used = true → (fs.nodes n).openers ≠ 0 →
    (fs'.nodes n).used = true ∧ (fs'.nodes n).object = (fs.nodes n).object
  count : ∀ n, (fs'.nodes n).used = true →
    (fs'.nodes n).openers = if (fs.nodes n).used = true then (fs.nodes n).openers else 0

namespace Keeps

theorem refl (fs : Fs) : Keeps fs fs :=
  ⟨fun _ hu _ => ⟨hu, rfl⟩, fun _ hu => by rw [if_pos hu]⟩

theorem trans {fs₁ fs₂ fs₃ : Fs} (h : Keeps fs₁ fs₂) (h' : Keeps fs₂ fs₃) : Keeps fs₁ fs₃ := by
  have hcount : ∀ n, (fs₁.nodes n).used = true → (fs₁.nodes n).openers ≠ 0 →
      (fs₂.nodes n).used = true ∧ (fs₂.nodes n).openers = (fs₁.nodes n).openers := by
    intro n hu ho
    have hu₂ := (h.held n hu ho).1
    exact ⟨hu₂, by rw [h.count n hu₂, if_pos hu]⟩
  constructor
  · intro n hu ho
    obtain ⟨hu₂, ho₂⟩ := hcount n hu ho
    obtain ⟨hu₃, hobj⟩ := h'.held n hu₂ (by rw [ho₂]; exact ho)
    exact ⟨hu₃, hobj.trans (h.held n hu ho).2⟩
  · intro n hu₃
    rw [h'.count n hu₃]
    by_cases hu₂ : (fs₂.nodes n).used = true
    · rw [if_pos hu₂, h.count n hu₂]
    · rw [if_neg hu₂]
      split
      · rename_i hu
        by_contra ho
        exact hu₂ (hcount n hu (Ne.symm ho)).1
      · rfl

theorem of_core {fs fs' : Fs} (i : Nat)
    (hcore : ∀ j, j ≠ i → (fs'.nodes j).core = (fs.nodes j).core)
    (hheld : (fs.nodes i).used = true → (fs.nodes i).openers ≠ 0 →
      (fs'.nodes i).used = true ∧ (fs'.nodes i).object = (fs.nodes i).object)
    (hcount : (fs'.nodes i).used = true →
      (fs'.nodes i).openers = if (fs.nodes i).used = true then (fs.nodes i).openers else 0) :
    Keeps fs fs' := by
  have hother : ∀ j, j ≠ i → (fs'.nodes j).used = (fs.nodes j).used ∧
      (fs'.nodes j).openers = (fs.nodes j).openers ∧
      (fs'.nodes j).object = (fs.nodes j).object := fun j hj =>
    ⟨(congrArg Node64.used (hcore j hj) :), (congrArg Node64.openers (hcore j hj) :),
      (congrArg Node64.object (hcore j hj) :)⟩
  constructor
  · intro n hu ho
    by_cases hn : n = i
    · subst hn; exact hheld hu ho
    · obtain ⟨hused, -, hobj⟩ := hother n hn
      exact ⟨by rw [hused]; exact hu, hobj⟩
  · intro n hu
    by_cases hn : n = i
    · subst hn; exact hcount hu
    · obtain ⟨hused, hopen, -⟩ := hother n hn
      rw [hopen, if_pos (by rw [← hused]; exact hu)]

variable {fs : Fs} {kids : Nat → List Nat} {free : List Nat} (w : Wired fs kids free)
include w

theorem alloc {p i : Nat} {fs' : Fs} {name : List UInt8} {isDir : Bool}
    (hp : (fs.nodes p).used = true)
    (halloc : allocNode fs name (some p) isDir = (some i, fs')) : Keeps fs fs' := by
  obtain ⟨-, hunused, hfresh, hcore⟩ := w.alloc hp halloc
  refine of_core i hcore ?_ ?_
  · intro hu
    exact absurd hu (by simp [hunused])
  · intro _
    rw [if_neg (by simp [hunused])]
    exact (congrArg Node64.openers hfresh :)

theorem drop {n p : Nat} (hn : n ∈ kids p) : Keeps fs (dropName fs n) := by
  obtain ⟨-, -, hgone, hkept, hcore⟩ := w.drop hn
  refine of_core n hcore ?_ ?_
  · intro hu ho
    have hself := hkept ho
    exact ⟨((congrArg Node64.used hself :)).trans hu, (congrArg Node64.object hself :)⟩
  · intro hu
    have ho : (fs.nodes n).openers ≠ 0 := fun ho => absurd hu (by simp [hgone ho])
    rw [if_pos (w.kid_used hn)]
    exact (congrArg Node64.openers (hkept ho) :)

theorem freed {n p : Nat} (hn : n ∈ kids p) (hnil : kids n = [])
    (hclosed : (fs.nodes n).openers = 0) : Keeps fs (freeNode fs n) := by
  obtain ⟨-, hgone, hcore⟩ := w.freed hn hnil
  refine of_core n hcore ?_ ?_
  · intro _ ho
    exact absurd hclosed ho
  · intro hu
    exact absurd hu (by simp [hgone])

theorem move {src p dst : Nat} (name : List UInt8) (hsrc : src ∈ kids p)
    (hdst : (fs.nodes dst).used = true) : Keeps fs (moveNode fs src dst name) := by
  obtain ⟨-, hself, hcore⟩ := w.move name hsrc hdst
  have hused : ((moveNode fs src dst name).nodes src).used = (fs.nodes src).used :=
    (congrArg Node64.used hself :)
  refine of_core src hcore ?_ ?_
  · intro hu _
    exact ⟨hused.trans hu, (congrArg Node64.object hself :)⟩
  · intro _
    rw [if_pos (w.kid_used hsrc)]
    exact (congrArg Node64.openers hself :)

end Keeps

/-- A call that started at `fs` has left open nodes alone, and the lists are
in order. -/
def Stays (fs fs' : Fs) : Prop := Keeps fs fs' ∧ ∃ kids free, Wired fs' kids free

section

variable {fs : Fs} {kids : Nat → List Nat} {free : List Nat} (w : Wired fs kids free)
include w

theorem stays_refl : Stays fs fs := ⟨Keeps.refl fs, kids, free, w⟩

theorem stays_create (path : List UInt8) (isDir : Bool) :
    Stays fs (ramfs64Create fs path isDir).2 := by
  rcases create_cases w path isDir with hsame | ⟨p, i, name, m⟩
  · rw [hsame]
    exact stays_refl w
  · have hp := m.reached.used w
    exact ⟨Keeps.alloc w hp m.alloc, _, _, (w.alloc hp m.alloc).1⟩

theorem stays_mkdirp (path : List UInt8) : Stays fs (ramfs64Mkdirp fs path).2 := by
  rw [ramfs64Mkdirp]
  split
  · refine mkdirpFrom_keeps (fun _ _ => True) ?_ _ _ _ _ _ (stays_refl w)
      (mkdirpOk_of_forall (fun _ _ => trivial) _ _ _ _)
    rintro fs' path' ⟨hkeeps, kids', free', w'⟩ -
    obtain ⟨hkeeps', hwired⟩ := stays_create w' path' true
    exact ⟨hkeeps.trans hkeeps', hwired⟩
  · exact stays_refl w

theorem stays_symlink (env : Env) (path target : List UInt8) :
    Stays fs (ramfs64Symlink env fs path target).2 := by
  rcases symlink_cases w env path target with hsame | ⟨p, i, name, fs', d, c, n, -, -, m, hdone⟩
  · rw [hsame]
    exact stays_refl w
  · have hp := m.reached.used w
    obtain ⟨-, hunused, hfresh, hcore⟩ := w.alloc hp m.alloc
    have w' := m.wired w true d c n
    have hopen : (fs'.nodes i).openers = 0 := (congrArg Node64.openers hfresh :)
    have hfilled : Keeps fs (fs'.modify i fun _ =>
        { fs'.nodes i with isLink := true, data := d, capacity := c, size := n }) := by
      refine Keeps.of_core i ?_ ?_ ?_
      · intro j hj
        rw [← hcore j hj]
        simp [hj]
      · intro hu
        exact absurd hu (by simp [hunused])
      · intro _
        simp [hunused, hopen]
    rcases hdone with hdone | hdone
    · rw [hdone]
      exact ⟨hfilled, _, _, w'⟩
    · rw [hdone]
      have hi : i ∈ update kids p (i :: kids p) p := by simp
      have hnil := m.kids_nil w
      exact ⟨hfilled.trans (Keeps.freed w' hi hnil (by simp [hopen])), _, _,
        (w'.freed hi hnil).1⟩

theorem stays_unlink (path : List UInt8) : Stays fs (ramfs64Unlink fs path).2 := by
  rcases unlink_cases w path with hsame | ⟨n, p, hn, -, hdone⟩
  · rw [hsame]
    exact stays_refl w
  · rw [hdone]
    obtain ⟨⟨kids', free', w', -⟩, -⟩ := w.drop hn
    exact ⟨Keeps.drop w hn, kids', free', w'⟩

theorem stays_rmdir (path : List UInt8)
    (hclosed : ∀ n, ramfs64LookupNofollow fs path = some n → (fs.nodes n).isDir = true →
      (fs.nodes n).firstChild = none → n ≠ ROOT → (fs.nodes n).openers = 0) :
    Stays fs (ramfs64Rmdir fs path).2 := by
  rcases rmdir_cases w path with hsame | ⟨n, p, hlook, hn, hdir, hempty, hdone⟩
  · rw [hsame]
    exact stays_refl w
  · rw [hdone]
    have hnil := w.kids_of_firstChild_none hempty
    exact ⟨Keeps.freed w hn hnil (hclosed n hlook hdir hempty (w.kid_ne_root hn)), _, _,
      (w.freed hn hnil).1⟩

theorem stays_rename (oldpath newpath : List UInt8) :
    Stays fs (ramfs64Rename fs oldpath newpath).2 := by
  rcases rename_cases w oldpath newpath with hsame | ⟨src, p, dst, name, fs', r, hdone⟩
  · rw [hsame]
    exact stays_refl w
  · obtain ⟨kids', free', w', hsrc, hdst⟩ := r.cleared_wired w
    have hcleared : Keeps fs fs' := by
      rcases r.cleared with ⟨-, rfl⟩ | ⟨e, -, hfind, -, -, rfl⟩
      · exact Keeps.refl fs'
      · exact Keeps.drop w (findChild_some w hfind).2.1
    rcases hdone with ⟨-, hdone⟩ | ⟨-, hdone⟩
    · rw [hdone]
      exact ⟨hcleared, kids', free', w'⟩
    · rw [hdone]
      exact ⟨hcleared.trans (Keeps.move w' name hsrc hdst), _, _, (w'.move name hsrc hdst).1⟩

end

/-! ## Runs -/

/-- What a session keeps: the descriptors counted in the table are the
references outstanding. -/
structure Session.Held (s : Session) : Prop where
  wired : ∃ kids free, Wired s.fs kids free
  counted : ∀ n, (s.fs.nodes n).used = true → (s.fs.nodes n).openers = s.outstanding n
  unused : ∀ n, (s.fs.nodes n).used = false → s.outstanding n = 0
  same : ∀ n, 0 < s.outstanding n → s.opened n = some (s.fs.nodes n).object

namespace Session.Held

variable {s : Session} (h : s.Held)
include h

theorem used {n : Nat} (hn : 0 < s.outstanding n) : (s.fs.nodes n).used = true := by
  by_contra hu
  have := h.unused n (by simpa using hu)
  omega

theorem notRecycled : s.NotRecycled := by
  intro n hn
  have hu := h.used hn
  refine ⟨hu, h.same n hn, ?_⟩
  intro name parent isDir halloc
  obtain ⟨kids, free, w⟩ := h.wired
  cases hhead : s.fs.freeHead with
  | none =>
    rw [allocNode, hhead] at halloc
    exact absurd halloc (by simp)
  | some i =>
    have hi : i = n := by
      simp only [allocNode, hhead] at halloc
      cases parent with
      | none => exact Option.some.inj halloc
      | some p =>
        dsimp only at halloc
        split at halloc <;> exact Option.some.inj halloc
    have hunused := (w.take (freshNode name parent isDir) hhead rfl rfl).2.1
    rw [hi] at hunused
    exact absurd hu (by simp [hunused])

theorem stays {fs' : Fs} (hstays : Stays s.fs fs') : Held { s with fs := fs' } := by
  obtain ⟨hkeeps, hwired⟩ := hstays
  have hopen : ∀ n, 0 < s.outstanding n → (s.fs.nodes n).openers ≠ 0 := by
    intro n hn
    rw [h.counted n (h.used hn)]
    omega
  refine ⟨hwired, ?_, ?_, ?_⟩
  · intro n hu
    rw [hkeeps.count n hu]
    split
    · rename_i hu'
      exact h.counted n hu'
    · rename_i hu'
      exact (h.unused n (by simpa using hu')).symm
  · intro n hu
    by_contra hn
    have hpos : 0 < s.outstanding n := Nat.pos_of_ne_zero hn
    have := (hkeeps.held n (h.used hpos) (hopen n hpos)).1
    exact absurd this (by simpa using hu)
  · intro n hn
    rw [(hkeeps.held n (h.used hn) (hopen n hn)).2]
    exact h.same n hn

theorem refNode (node : Int) : (s.call (.refNode node)).1.Held := by
  obtain ⟨kids, free, w⟩ := h.wired
  cases node with
  | negSucc k => exact h
  | ofNat n =>
    by_cases hvalid : valid s.fs (n : Int) = true
    · have hrun : (s.call (.refNode (Int.ofNat n))).1 =
          { fs := s.fs.modify n fun nd => { nd with openers := nd.openers + 1 }
            outstanding := update s.outstanding n (s.outstanding n + 1)
            opened := if s.outstanding n = 0
              then update s.opened n (some (s.fs.nodes n).object) else s.opened } := by
        simp [Session.call, treeCall, ramfs64RefNode, hvalid]
      have hu : (s.fs.nodes n).used = true := (Bool.and_eq_true _ _ ▸ hvalid).2
      rw [hrun]
      refine ⟨⟨kids, free, w.congr rfl rfl fun i => ?_⟩, ?_, ?_, ?_⟩
      · by_cases hi : i = n
        · subst hi; simp [Node64.wires]
        · simp [hi]
      · intro i hi
        by_cases hin : i = n
        · subst hin
          simp [h.counted i hu]
        · simpa [hin] using h.counted i (by simpa [hin] using hi)
      · intro i hi
        by_cases hin : i = n
        · subst hin
          simp [hu] at hi
        · simpa [hin] using h.unused i (by simpa [hin] using hi)
      · intro i hi
        by_cases hin : i = n
        · subst hin
          by_cases hzero : s.outstanding i = 0
          · simp [hzero, Node64.object]
          · simpa [hzero, Node64.object] using h.same i (Nat.pos_of_ne_zero hzero)
        · have hsame := h.same i (by simpa [hin] using hi)
          by_cases hzero : s.outstanding n = 0
          · simpa [hzero, hin] using hsame
          · simpa [hzero, hin] using hsame
    · have hrun : (s.call (.refNode (Int.ofNat n))).1 = s := by
        simp [Session.call, treeCall, ramfs64RefNode, hvalid]
      rw [hrun]
      exact h

/-- Giving up one of the references: the last one lets a nameless node go. -/
theorem unrefNode (node : Int) (hmatched : s.Matched (.unrefNode node)) :
    (s.call (.unrefNode node)).1.Held := by
  obtain ⟨kids, free, w⟩ := h.wired
  obtain ⟨hpos, hout⟩ := hmatched
  obtain ⟨n, rfl⟩ := Int.eq_ofNat_of_zero_le hpos
  rw [Int.toNat_natCast] at hout
  have hu := h.used hout
  have hcount := h.counted n hu
  have hvalid : valid s.fs n = true := by
    rw [valid_natCast, hu, decide_eq_true (w.bound n hu)]
    rfl
  generalize hfs' : s.fs.modify n (fun nd => { nd with openers := nd.openers - 1 }) = fs'
  have hnode : fs'.nodes n = { s.fs.nodes n with openers := (s.fs.nodes n).openers - 1 } := by
    rw [← hfs']; simp
  have hother : ∀ i, i ≠ n → fs'.nodes i = s.fs.nodes i := fun i hi => by rw [← hfs']; simp [hi]
  have w' : Wired fs' kids free := by
    refine w.congr (by rw [← hfs']; rfl) (by rw [← hfs']; rfl) fun i => ?_
    by_cases hi : i = n
    · subst hi; rw [hnode]; rfl
    · rw [hother i hi]
  have hrun : (s.call (.unrefNode n)).1 =
      { fs := if ((fs'.nodes n).openers = 0 && (fs'.nodes n).unlinked) = true
          then releaseNode fs' n else fs'
        outstanding := update s.outstanding n (s.outstanding n - 1)
        opened := s.opened } := by
    simp [Session.call, treeCall, ramfs64UnrefNode, hvalid, hfs']
  rw [hrun]
  by_cases hlast : ((fs'.nodes n).openers = 0 && (fs'.nodes n).unlinked) = true
  · rw [if_pos hlast]
    rw [Bool.and_eq_true, decide_eq_true_eq, hnode] at hlast
    have hnroot : n ≠ ROOT := fun hn => by simpa [hn, w.rootNamed] using hlast.2
    have hkid : ∀ p, n ∉ kids p := fun p hp => by
      simpa [(w.kid p n hp).1.named] using hlast.2
    have hone : s.outstanding n - 1 = 0 := by
      have := hlast.1
      dsimp only at this
      omega
    refine ⟨⟨_, _, w'.release hnroot (by rw [hnode]; exact hu) hkid⟩, ?_, ?_, ?_⟩
    · intro i hi
      have hin : i ≠ n := fun hin => by simp [hin, releaseNode] at hi
      simp only [releaseNode, Fs.nodes_modify, if_neg hin, hother i hin] at hi ⊢
      rw [update_of_ne hin]
      exact h.counted i hi
    · intro i hi
      dsimp only at hi ⊢
      by_cases hin : i = n
      · rw [hin, update_self, hone]
      · simp only [releaseNode, Fs.nodes_modify, if_neg hin, hother i hin] at hi
        rw [update_of_ne hin]
        exact h.unused i hi
    · intro i hi
      dsimp only at hi ⊢
      have hin : i ≠ n := fun hin => by simp [hin, hone] at hi
      rw [update_of_ne hin] at hi
      simp only [releaseNode, Fs.nodes_modify, if_neg hin, hother i hin]
      exact h.same i hi
  · rw [if_neg hlast]
    refine ⟨⟨kids, free, w'⟩, ?_, ?_, ?_⟩
    · intro i hi
      dsimp only at hi ⊢
      by_cases hin : i = n
      · rw [hin, update_self, hnode, ← hcount]
      · rw [hother i hin] at hi ⊢
        rw [update_of_ne hin]
        exact h.counted i hi
    · intro i hi
      dsimp only at hi ⊢
      by_cases hin : i = n
      · rw [hin, hnode] at hi
        exact absurd hu (by simpa using hi)
      · rw [hother i hin] at hi
        rw [update_of_ne hin]
        exact h.unused i hi
    · intro i hi
      dsimp only at hi ⊢
      by_cases hin : i = n
      · subst hin
        rw [hnode, h.same i hout]
        rfl
      · rw [update_of_ne hin] at hi
        rw [hother i hin]
        exact h.same i hi

theorem call {op : TreeOp} (hmatched : s.Matched op) (hclosed : s.RmdirClosed op) :
    (s.call op).1.Held := by
  obtain ⟨kids, free, w⟩ := h.wired
  cases op with
  | create path isDir => exact h.stays (stays_create w (cstr path) isDir)
  | mkdirp path => exact h.stays (stays_mkdirp w (cstr path))
  | symlink env path target => exact h.stays (stays_symlink w env (cstr path) (cstr target))
  | rename oldpath newpath => exact h.stays (stays_rename w (cstr oldpath) (cstr newpath))
  | unlink path => exact h.stays (stays_unlink w (cstr path))
  | rmdir path => exact h.stays (stays_rmdir w (cstr path) hclosed)
  | refNode node => exact h.refNode node
  | unrefNode node => exact h.unrefNode node hmatched

end Session.Held

/-- The lists are in order and nothing is open. -/
def Quiet (fs : Fs) : Prop :=
  (∃ kids free, Wired fs kids free) ∧
  ∀ n, (fs.nodes n).used = true → (fs.nodes n).openers = 0

theorem Quiet.stays {fs fs' : Fs} (h : Quiet fs) (hstays : Stays fs fs') : Quiet fs' := by
  refine ⟨hstays.2, fun n hu => ?_⟩
  rw [hstays.1.count n hu]
  split
  · rename_i hu'
    exact h.2 n hu'
  · rfl

theorem Quiet.sameTree {fs fs' : Fs} (h : Quiet fs) (hsame : SameTree fs fs') : Quiet fs' := by
  obtain ⟨⟨kids, free, w⟩, hopen⟩ := h
  refine ⟨⟨kids, free, hsame.wired w⟩, fun n hu => ?_⟩
  rw [hsame.openers]
  exact hopen n (((congrArg Wires.used (hsame.wires n)).symm).trans hu)

theorem Quiet.mkdirp {fs : Fs} (h : Quiet fs) (path : List UInt8) :
    Quiet (ramfs64Mkdirp fs path).2 := by
  obtain ⟨kids, free, w⟩ := h.1
  exact h.stays (stays_mkdirp w path)

theorem Quiet.create {fs : Fs} (h : Quiet fs) (path : List UInt8) (isDir : Bool) :
    Quiet (ramfs64Create fs path isDir).2 := by
  obtain ⟨kids, free, w⟩ := h.1
  exact h.stays (stays_create w path isDir)

theorem Quiet.seedDevice {fs : Fs} (h : Quiet fs) (path : String) (device : Nat) :
    Quiet (seedDevice fs path device) :=
  (h.create _ false).sameTree (seedDevice_same fs path device)

theorem Quiet.seedFile {fs : Fs} (h : Quiet fs) (env : Env) (path contents : String) :
    Quiet (seedFile env fs path contents) :=
  (h.create _ false).sameTree (seedFile_same env fs path contents)

theorem quiet_init (env : Env) (mem : Nat → Node64) : Quiet (ramfs64Init env mem) := by
  have hroot : Quiet (allocNode (clearNodes mem) (text "/") none true).2 := by
    refine ⟨⟨_, _, wired_root mem⟩, fun n hu => ?_⟩
    by_cases hn : n = 0
    · subst hn; rfl
    · have hunused : ((allocNode (clearNodes mem) (text "/") none true).2.nodes n).used = false :=
        congrArg Node64.used (if_neg hn)
      exact absurd hu (by simp [hunused])
  have hdirs : Quiet (initDirs mem) := (((hroot.mkdirp _).mkdirp _).mkdirp _).mkdirp _
  rw [ramfs64Init]
  exact (((hdirs.seedDevice _ _).seedDevice _ _).seedFile _ _ _).seedFile _ _ _

theorem held_of_quiet {fs : Fs} (h : Quiet fs) : Session.Held ⟨fs, fun _ => 0, fun _ => none⟩ :=
  ⟨h.1, h.2, fun _ _ => rfl, fun _ hn => absurd hn (Nat.lt_irrefl 0)⟩

theorem held_start (env : Env) (mem : Nat → Node64) : (Session.start env mem).Held :=
  held_of_quiet (quiet_init env mem)

/-- **In every run from `ramfs64_init`** in which each unref gives up a
reference that was taken and `ramfs64_rmdir` removes no open directory, a
slot with references outstanding is not recycled. -/
theorem open_node_not_recycled (env : Env) (mem : Nat → Node64) (ops : List TreeOp)
    (hops : sessions.Guarded (fun s op => s.Matched op ∧ s.RmdirClosed op)
      (Session.start env mem) ops) :
    (sessions.run (Session.start env mem) ops).NotRecycled :=
  (sessions.invariant_of_step (fun (s : Session) _ (h : s.Held) hok => h.call hok.1 hok.2) ops _
    (held_start env mem) hops).notRecycled

/-- An unlinked file that is still open, while a directory comes and goes. -/
def heldOps : List TreeOp :=
  [.create (text "/f") false, .refNode 9, .unlink (text "/f"), .mkdirp (text "/d"),
    .rmdir (text "/d")]

theorem open_node_not_recycled_unlinked :
    0 < (sessions.run (Session.start roomy fun _ => blankNode) heldOps).outstanding 9 ∧
    (sessions.run (Session.start roomy fun _ => blankNode) heldOps).NotRecycled := by
  refine ⟨by decide, open_node_not_recycled _ _ _ ?_⟩
  refine ⟨⟨trivial, trivial⟩, ⟨trivial, trivial⟩, ⟨trivial, trivial⟩, ⟨trivial, trivial⟩,
    ⟨trivial, ?_⟩, trivial⟩
  intro n hn _ _ _
  have hlook : (ramfs64LookupNofollow (sessions.run (Session.start roomy fun _ => blankNode)
      (heldOps.take 4)).fs (cstr (text "/d"))) = some 10 := by decide
  obtain rfl : 10 = n := Option.some.inj (hlook.symm.trans hn)
  have hclosed : ((sessions.run (Session.start roomy fun _ => blankNode)
      (heldOps.take 4)).fs.nodes 10).openers = 0 := by decide
  exact hclosed

/-- `ramfs64_rmdir` frees a directory that is open. -/
theorem open_directory_recycled :
    ¬ ∀ env mem ops, sessions.Guarded (fun s op => s.Matched op) (Session.start env mem) ops →
      (sessions.run (Session.start env mem) ops).NotRecycled := by
  intro h
  have hrun := h roomy (fun _ => blankNode)
    [.mkdirp (text "/d"), .refNode 9, .rmdir (text "/d")]
    ⟨trivial, trivial, trivial, trivial⟩ 9 (by decide)
  exact absurd hrun.1 (by decide)

end NovarisOS.Ramfs64
