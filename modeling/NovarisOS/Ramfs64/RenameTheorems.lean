/-
NovarisOS.Ramfs64.RenameTheorems — what a refused `ramfs64_rename` changes.

The node that has the new name is taken out before the loop up from the new
parent is run. A directory that is renamed onto an empty directory below it
is refused with -EINVAL by that loop, and by then the empty directory is
gone: `renameTakesOut` says when. Every other refusal leaves every path where
it led (`failed_rename`).
-/
import Mathlib.Data.List.Find
import NovarisOS.Ramfs64.Shape

namespace NovarisOS.Ramfs64

/-- Every path leads where it led, and what it leads to holds what it held. -/
structure SamePaths (fs fs' : Fs) : Prop where
  follow : ∀ path, ramfs64Lookup fs' path = ramfs64Lookup fs path
  nofollow : ∀ path, ramfs64LookupNofollow fs' path = ramfs64LookupNofollow fs path
  contents : ∀ path n, ramfs64Lookup fs path = some n ∨ ramfs64LookupNofollow fs path = some n →
    (fs'.nodes n).core = (fs.nodes n).core

theorem SamePaths.refl (fs : Fs) : SamePaths fs fs :=
  ⟨fun _ => rfl, fun _ => rfl, fun _ _ _ => rfl⟩

/-- The old name is a directory, the new parent is inside it, and the new name
is an empty directory there that a path can lead to. -/
def renameTakesOut (fs : Fs) (oldpath newpath : List UInt8) : Bool :=
  match ramfs64LookupNofollow fs oldpath, walk fs newpath true true with
  | some src, some (dst, name) =>
    match findChild fs dst name with
    | some e =>
      src != ROOT && e != src && (fs.nodes src).isDir && (fs.nodes e).isDir &&
        (fs.nodes e).firstChild.isNone && inSubtree fs src dst && name != DOT && name != DOTDOT
    | none => false
  | _, _ => false

/-! ## Taking a leaf out -/

theorem find?_erase (l : List Nat) {p : Nat → Bool} {x : Nat} (hx : p x = false) :
    (l.erase x).find? p = l.find? p := by
  induction l with
  | nil => rfl
  | cons y ys ih =>
    by_cases hy : y = x
    · subst hy
      rw [List.erase_cons_head, List.find?_cons, hx]
    · rw [List.erase_cons_tail (by simpa using hy), List.find?_cons, List.find?_cons, ih]

section

variable {fs : Fs} {kids : Nat → List Nat} {free : List Nat} (w : Wired fs kids free)
include w

variable {e p dst : Nat}

theorem dropName_leaf (he : e ∈ kids p) (hnil : kids e = []) :
    ∃ kids' free', Wired (dropName fs e) kids' free' ∧ (∀ q, e ∉ kids' q) ∧
      (∀ q, kids' q = if q = p then (kids p).erase e else kids q) ∧
      ∀ i, i ≠ e → ((dropName fs e).nodes i).core = (fs.nodes i).core := by
  obtain ⟨⟨kids', free', w', hkids, -⟩, -, -, -, hcore⟩ := w.drop he
  have heq : ∀ q, kids' q = if q = p then (kids p).erase e else kids q := by
    intro q
    rw [hkids hnil, Function.update_apply]
  refine ⟨kids', free', w', ?_, heq, hcore⟩
  intro q hq
  rw [heq] at hq
  split at hq
  · exact (w.kidsLinks p).nodup.not_mem_erase hq
  · rename_i hqp
    exact hqp (w.kid_unique hq he)

variable {name newpath oldpath : List UInt8}

theorem walk_dropName_ne (he : e ∈ kids p) (hnil : kids e = []) {path : List UInt8}
    {wantParent followFinal : Bool} {n : Nat}
    (h : walk (dropName fs e) path wantParent followFinal = some (n, name)) : n ≠ e := by
  obtain ⟨kids', free', w', hout, -, -⟩ := dropName_leaf w he hnil
  rintro rfl
  obtain ⟨q, hq, -⟩ := (walk_reached w' h).1.has_parent w' (w.kid_ne_root he)
  exact hout q hq

theorem findChild_dropName (he : e ∈ kids p) (hnil : kids e = []) {dir : Nat}
    (hdir : dir ≠ e) (hname : (fs.nodes e).name ≠ name) :
    findChild (dropName fs e) dir name = findChild fs dir name := by
  obtain ⟨kids', free', w', hout, hkids, hcore⟩ := dropName_leaf w he hnil
  have hused : ((dropName fs e).nodes dir).used = (fs.nodes dir).used :=
    (congrArg Node64.used (hcore dir hdir) :)
  have hisDir : ((dropName fs e).nodes dir).isDir = (fs.nodes dir).isDir :=
    (congrArg Node64.isDir (hcore dir hdir) :)
  have hsame : (kids' dir).find? (fun i => ((dropName fs e).nodes i).name == name) =
      (kids' dir).find? (fun i => (fs.nodes i).name == name) := by
    refine List.find?_congr fun i hi => ?_
    have hie : i ≠ e := fun h => hout dir (h ▸ hi)
    have hsame : ((dropName fs e).nodes i).name = (fs.nodes i).name :=
      (congrArg Node64.name (hcore i hie) :)
    rw [hsame]
  have herase : (kids' dir).find? (fun i => (fs.nodes i).name == name) =
      (kids dir).find? (fun i => (fs.nodes i).name == name) := by
    rw [hkids]
    split
    · rename_i hdp
      subst hdp
      exact find?_erase _ (by simpa using hname)
    · rfl
  have hseek : seek (dropName fs e).next (fun i => ((dropName fs e).nodes i).name == name)
      RAMFS64_MAX_NODES ((dropName fs e).nodes dir).firstChild =
      seek fs.next (fun i => (fs.nodes i).name == name) RAMFS64_MAX_NODES
        (fs.nodes dir).firstChild := by
    rw [seek_eq_find? _ (w'.kidsLinks dir) (w'.kids_length dir),
      seek_eq_find? _ (w.kidsLinks dir) (w.kids_length dir), hsame, herase]
  rw [findChild, findChild, valid_natCast, valid_natCast, hused, hisDir, hseek]

omit w in
theorem length_rest_lt {path : List UInt8} (h : (path.dropWhile (· == SLASH)).isEmpty = false) :
    ((path.dropWhile (· == SLASH)).dropWhile (· != SLASH)).length < path.length := by
  have hle : (path.dropWhile (· == SLASH)).length ≤ path.length :=
    (List.dropWhile_sublist _).length_le
  cases hp : path.dropWhile (· == SLASH) with
  | nil => simp [hp] at h
  | cons b bs =>
    have hb : (b == SLASH) = false := by
      have := List.head?_dropWhile_not (· == SLASH) path
      rw [hp] at this
      simpa using this
    have hbs : (bs.dropWhile (· != SLASH)).length ≤ bs.length :=
      (List.dropWhile_sublist _).length_le
    rw [hp, List.length_cons] at hle
    rw [List.dropWhile_cons, if_pos (by simp [bne, hb])]
    omega

omit w in
/-- The loop that wants a node goes the way of the loop that wants its parent,
one step further. -/
theorem scan_child (hfind : findChild fs dst name = some e)
    (hdot : name ≠ DOT) (hdotdot : name ≠ DOTDOT) (fuel node : Nat) (path : List UInt8)
    (hfuel : path.length < fuel) :
    (scan fs true true fuel node path = .parent dst name →
      scan fs false false fuel node path = .node e) ∧
    (∀ d c r, scan fs true true fuel node path = .link d c r →
      scan fs false false fuel node path = .link d c r) ∧
    ∀ n, scan fs true true fuel node path ≠ .node n := by
  induction fuel generalizing node path with
  | zero => exact absurd hfuel (by omega)
  | succ fuel ih =>
    rw [scan, scan]
    by_cases hempty : (path.dropWhile (· == SLASH)).isEmpty = true
    · simp [hempty]
    · rw [if_neg hempty, if_neg hempty]
      have hrest := length_rest_lt (by simpa using hempty)
      generalize path.dropWhile (· == SLASH) = p at *
      by_cases hlast : ((p.dropWhile (· != SLASH)).dropWhile (· == SLASH)).isEmpty = true
      · simp only [hlast, Bool.and_true, if_true, Bool.and_false, Bool.false_eq_true, if_false,
          Bool.not_true, Bool.or_false]
        split
        · exact ⟨fun h => Scan.noConfusion h, fun _ _ _ h => Scan.noConfusion h,
            fun _ h => Scan.noConfusion h⟩
        · refine ⟨fun h => ?_, fun _ _ _ h => Scan.noConfusion h, fun _ h => Scan.noConfusion h⟩
          obtain ⟨hnode, hname⟩ := Scan.parent.inj h
          rw [hnode, hname, if_neg hdot, if_neg hdotdot, hfind]
          dsimp only
          obtain ⟨k, rfl⟩ : ∃ k, fuel = k + 1 := ⟨fuel - 1, by omega⟩
          rw [scan]
          simp only [hlast, if_true, Bool.false_eq_true, if_false]
      · have hlast' : ((p.dropWhile (· != SLASH)).dropWhile (· == SLASH)).isEmpty = false := by
          simpa using hlast
        simp only [hlast', Bool.false_and, Bool.false_eq_true, if_false, Bool.not_false,
          Bool.true_or, Bool.and_true]
        split
        · exact ih _ _ (by omega)
        · split
          · exact ih _ _ (by omega)
          · split
            · exact ⟨fun h => Scan.noConfusion h, fun _ _ _ h => Scan.noConfusion h,
                fun _ h => Scan.noConfusion h⟩
            · split
              · exact ⟨fun h => Scan.noConfusion h, fun _ _ _ h => h,
                  fun _ h => Scan.noConfusion h⟩
              · exact ih _ _ (by omega)

omit w in
theorem walkFrom_child (hfind : findChild fs dst name = some e)
    (hdot : name ≠ DOT) (hdotdot : name ≠ DOTDOT) (links node : Nat) (path : List UInt8)
    (h : walkFrom fs true true links node path = some (dst, name)) :
    walkFrom fs false false links node path = some (e, []) := by
  have hscan := fun node path =>
    scan_child hfind hdot hdotdot (path.length + 1) node path (Nat.lt_succ_self _)
  induction links generalizing node path with
  | zero =>
    rw [walkFrom] at h ⊢
    cases hs : scan fs true true (path.length + 1) node path with
    | fail => rw [hs] at h; exact absurd h (by simp)
    | node n => exact absurd hs ((hscan node path).2.2 n)
    | parent n last =>
      rw [hs] at h
      obtain ⟨rfl, rfl⟩ := Prod.mk.inj (Option.some.inj h)
      rw [(hscan node path).1 hs]
    | link d c r => rw [hs] at h; exact absurd h (by simp)
  | succ links ih =>
    rw [walkFrom] at h ⊢
    cases hs : scan fs true true (path.length + 1) node path with
    | fail => rw [hs] at h; exact absurd h (by simp)
    | node n => exact absurd hs ((hscan node path).2.2 n)
    | parent n last =>
      rw [hs] at h
      obtain ⟨rfl, rfl⟩ := Prod.mk.inj (Option.some.inj h)
      rw [(hscan node path).1 hs]
    | link d c r =>
      rw [hs] at h
      rw [(hscan node path).2.1 d c r hs]
      dsimp only at h ⊢
      split
      · rename_i hout
        rw [hout] at h
        exact absurd h (by simp)
      · rename_i out hout
        rw [hout] at h
        exact ih _ _ h

/-! ## Tables a path cannot tell apart -/

/-- In what a walk reads the two tables are alike on `G`, and no walk leaves
`G`. -/
structure Alike (fs fs' : Fs) (G : Nat → Prop) : Prop where
  root : G ROOT
  parent : ∀ i, G i → (fs'.nodes i).parent = (fs.nodes i).parent
  up : ∀ i, G i → G ((fs.nodes i).parent.getD i)
  find : ∀ i name, G i → name ≠ DOT → name ≠ DOTDOT → findChild fs' i name = findChild fs i name
  child : ∀ i name c, G i → name ≠ DOT → name ≠ DOTDOT → findChild fs i name = some c → G c
  isLink : ∀ i, G i → (fs'.nodes i).isLink = (fs.nodes i).isLink
  expand : ∀ i rest, G i → expand (fs'.nodes i) rest = expand (fs.nodes i) rest

/-- Where the component loop stops is in `G`. -/
def Scan.Within (G : Nat → Prop) : Scan → Prop
  | .link dir child _ => G dir ∧ G child
  | _ => True

section

variable {fs' : Fs} {G : Nat → Prop} (a : Alike fs fs' G)
omit w
include a

theorem Alike.scan (wantParent followFinal : Bool) (fuel node : Nat) (path : List UInt8) (hnode : G node) :
    scan fs' wantParent followFinal fuel node path = scan fs wantParent followFinal fuel node path ∧
    (scan fs wantParent followFinal fuel node path).Within G := by
  induction fuel generalizing node path with
  | zero => exact ⟨rfl, trivial⟩
  | succ fuel ih =>
    rw [Ramfs64.scan, Ramfs64.scan]
    dsimp only
    split
    · exact ⟨rfl, by split <;> trivial⟩
    · split
      · exact ⟨rfl, by split <;> trivial⟩
      · split
        · exact ih _ _ hnode
        · rename_i hdot
          split
          · rw [a.parent node hnode]
            exact ih _ _ (a.up node hnode)
          · rename_i hdotdot
            rw [a.find node _ hnode hdot hdotdot]
            split
            · exact ⟨rfl, trivial⟩
            · rename_i child hfind
              have hchild := a.child node _ child hnode hdot hdotdot hfind
              rw [a.isLink child hchild]
              split
              · exact ⟨rfl, hnode, hchild⟩
              · exact ih _ _ hchild

theorem Alike.walkFrom (wantParent followFinal : Bool) (links node : Nat) (path : List UInt8)
    (hnode : G node) :
    walkFrom fs' wantParent followFinal links node path = walkFrom fs wantParent followFinal links node path := by
  induction links generalizing node path with
  | zero => rw [Ramfs64.walkFrom, Ramfs64.walkFrom, (a.scan _ _ _ _ _ hnode).1]
  | succ links ih =>
    obtain ⟨hscan, hstop⟩ := a.scan wantParent followFinal (path.length + 1) node path hnode
    rw [Ramfs64.walkFrom, Ramfs64.walkFrom, hscan]
    split
    · rfl
    · rfl
    · rfl
    · rename_i dir child rest hs
      rw [hs] at hstop
      rw [a.expand child rest hstop.2]
      dsimp only
      split
      · rfl
      · refine ih _ _ ?_
        split
        · exact a.root
        · exact hstop.1

theorem Alike.walk (path : List UInt8) (wantParent followFinal : Bool) :
    walk fs' path wantParent followFinal = walk fs path wantParent followFinal := by
  simp only [Ramfs64.walk]
  rw [a.walkFrom _ _ _ _ _ a.root]

end

/-! ## A name no path has -/

theorem up_ne {node : Nat} (hnil : kids e = []) (hnode : Reached fs kids node)
    (hne : node ≠ e) : ((fs.nodes node).parent).getD node ≠ e := by
  by_cases hroot : node = ROOT
  · subst hroot
    rw [show (fs.nodes ROOT).parent = none from w.root.2.2]
    exact hne
  · obtain ⟨p, hp, -, -, hpar⟩ := hnode.has_parent w hroot
    rw [show (fs.nodes node).parent = some p from hpar]
    intro h
    have hpe : p = e := h
    rw [hpe, hnil] at hp
    exact absurd hp List.not_mem_nil

theorem alike_dropName (he : e ∈ kids p) (hnil : kids e = [])
    (hname : (fs.nodes e).name = DOT ∨ (fs.nodes e).name = DOTDOT) :
    Alike fs (dropName fs e) fun i => Reached fs kids i ∧ i ≠ e := by
  obtain ⟨-, -, -, -, -, hcore⟩ := dropName_leaf w he hnil
  have hother : ∀ name, name ≠ DOT → name ≠ DOTDOT → (fs.nodes e).name ≠ name := by
    rintro name hdot hdotdot rfl
    exact hname.elim hdot hdotdot
  exact
    { root := ⟨Reached.root, Ne.symm (w.kid_ne_root he)⟩
      parent := fun i hi => (congrArg Node64.parent (hcore i hi.2) :)
      up := fun i hi => ⟨hi.1.up w, up_ne w hnil hi.1 hi.2⟩
      find := fun i name hi hdot hdotdot => findChild_dropName w he hnil hi.2 (hother name hdot hdotdot)
      child := fun i name c hi hdot hdotdot hfind =>
        ⟨findChild_reached w hi.1 hfind, fun hc => hother name hdot hdotdot (hc ▸ (findChild_some w hfind).2.2)⟩
      isLink := fun i hi => (congrArg Node64.isLink (hcore i hi.2) :)
      expand := fun i rest hi => by
        have hdata : ((dropName fs e).nodes i).data = (fs.nodes i).data :=
          (congrArg Node64.data (hcore i hi.2) :)
        have hsize : ((dropName fs e).nodes i).size = (fs.nodes i).size :=
          (congrArg Node64.size (hcore i hi.2) :)
        simp only [expand, hdata, hsize] }

theorem samePaths_dropName (he : e ∈ kids p) (hnil : kids e = [])
    (hname : (fs.nodes e).name = DOT ∨ (fs.nodes e).name = DOTDOT) :
    SamePaths fs (dropName fs e) := by
  obtain ⟨-, -, -, -, -, hcore⟩ := dropName_leaf w he hnil
  have a := alike_dropName w he hnil hname
  refine ⟨fun path => ?_, fun path => ?_, ?_⟩
  · rw [ramfs64Lookup, ramfs64Lookup, a.walk]
  · rw [ramfs64LookupNofollow, ramfs64LookupNofollow, a.walk]
  · rintro path n (h | h)
    all_goals
      obtain ⟨⟨m, name⟩, hm, rfl⟩ := Option.map_eq_some_iff.mp h
      rw [← a.walk] at hm
      exact hcore m (walk_dropName_ne w he hnil hm)

/-! ## The refusal -/

theorem inSubtree_dropName (he : e ∈ kids p) (hnil : kids e = []) {src : Nat}
    (hdst : Reached fs kids dst) (hne : dst ≠ e) :
    inSubtree (dropName fs e) src dst = inSubtree fs src dst := by
  obtain ⟨-, -, -, -, -, hcore⟩ := dropName_leaf w he hnil
  have hseek : ∀ fuel i, Reached fs kids i → i ≠ e →
      seek (dropName fs e).parent (fun a => a == src || a == ROOT) fuel (some i) =
        seek fs.parent (fun a => a == src || a == ROOT) fuel (some i) := by
    intro fuel
    induction fuel with
    | zero => intros; rfl
    | succ fuel ih =>
      intro i hi hie
      have hparent : (dropName fs e).parent i = fs.parent i :=
        (congrArg Node64.parent (hcore i hie) :)
      rw [seek, seek, hparent]
      by_cases hroot : i = ROOT
      · simp [hroot]
      · obtain ⟨q, hq, hreach, -, hpar⟩ := hi.has_parent w hroot
        have hqe : q ≠ e := by
          intro h
          rw [h, hnil] at hq
          exact absurd hq List.not_mem_nil
        rw [hpar, ih q hreach hqe]
  rw [inSubtree, inSubtree, hseek _ dst hdst hne]

theorem Renames.rename_eq {src : Nat}
    {fs' : Fs} (r : Renames fs kids oldpath newpath src p dst name fs') :
    ramfs64Rename fs oldpath newpath =
      if (fs'.nodes src).isDir && inSubtree fs' src dst then (-22, fs')
      else (0, moveNode fs' src dst name) := by
  rw [ramfs64Rename, r.found]
  dsimp only
  rw [if_neg (w.kid_ne_root r.kid), r.walked]
  dsimp only
  rcases r.cleared with ⟨hfind, rfl⟩ | ⟨e, hes, hfind, hkind, hempty, rfl⟩
  · rw [hfind]
    simp
  · rw [hfind, if_neg (by simpa using hes)]
    simp only [Option.bind_eq_bind, Option.bind_some, hkind, ne_eq, not_true_eq_false, if_false]
    cases hd : (fs.nodes src).isDir with
    | false => simp
    | true => simp [hempty (hkind.trans hd)]

/-- A refused rename left the table alone or took a leaf out, and the leaf was
on no path or is the one of `renameTakesOut`. -/
theorem rename_refused
    (hneg : (ramfs64Rename fs oldpath newpath).1 < 0) :
    (ramfs64Rename fs oldpath newpath).2 = fs ∨
    ∃ e p, e ∈ kids p ∧ kids e = [] ∧ (ramfs64Rename fs oldpath newpath).2 = dropName fs e ∧
      (renameTakesOut fs oldpath newpath = false →
        (fs.nodes e).name = DOT ∨ (fs.nodes e).name = DOTDOT) := by
  rcases rename_cases w oldpath newpath with h | ⟨src, p, dst, name, fs', r, h⟩
  · exact .inl h
  rcases h with ⟨hin, h⟩ | ⟨hin, -⟩
  · rcases r.cleared with ⟨-, rfl⟩ | ⟨e, hes, hfind, hkind, hempty, rfl⟩
    · exact .inl h
    · obtain ⟨-, he, hname⟩ := findChild_some w hfind
      obtain ⟨-, -, -, -, hcore⟩ := w.drop he
      rw [Bool.and_eq_true] at hin
      have hsrcDir : (fs.nodes src).isDir = true :=
        (congrArg Node64.isDir (hcore src (Ne.symm hes)) :).symm.trans hin.1
      have hnone := hempty (hkind.trans hsrcDir)
      have hnil := w.kids_of_firstChild_none hnone
      have hde : dst ≠ e := by
        rintro rfl
        exact r.reached.not_self_parent w he
      have hsub : inSubtree fs src dst = true :=
        (inSubtree_dropName w he hnil r.reached hde).symm.trans hin.2
      refine .inr ⟨e, dst, he, hnil, h, fun hnot => ?_⟩
      rw [renameTakesOut, r.found, r.walked] at hnot
      simp only [hfind, hnone, hsub, hsrcDir, hkind, Option.isNone_none, Bool.and_true,
        w.kid_ne_root r.kid, hes, Bool.and_eq_false_iff, bne_eq_false_iff_eq] at hnot
      rw [hname]
      simpa using hnot
  · rw [r.rename_eq w, hin] at hneg
    exact absurd hneg (by simp)

theorem rename_of_takesOut
    (h : renameTakesOut fs oldpath newpath = true) :
    (ramfs64Rename fs oldpath newpath).1 < 0 ∧
    ∃ e, ramfs64LookupNofollow fs newpath = some e ∧
      ramfs64LookupNofollow (ramfs64Rename fs oldpath newpath).2 newpath ≠ some e := by
  rw [renameTakesOut] at h
  split at h
  · rename_i src dst name hfound hwalk
    split at h
    · rename_i e hfind
      simp only [Bool.and_eq_true, bne_iff_ne, ne_eq, Option.isNone_iff_eq_none] at h
      obtain ⟨⟨⟨⟨⟨⟨⟨hroot, hes⟩, hsrcDir⟩, hdir⟩, hnone⟩, hsub⟩, hdot⟩, hdotdot⟩ := h
      obtain ⟨p, hkid, -, howner, -⟩ := (lookupNofollow_reached w hfound).has_parent w hroot
      obtain ⟨hdst, hcomp⟩ := walk_reached w hwalk
      obtain ⟨-, he, -⟩ := findChild_some w hfind
      obtain ⟨-, -, -, -, hcore⟩ := w.drop he
      have hnil := w.kids_of_firstChild_none hnone
      have hde : dst ≠ e := by
        rintro rfl
        exact hdst.not_self_parent w he
      have r : Renames fs kids oldpath newpath src p dst name (dropName fs e) :=
        ⟨hfound, hwalk, hkid, howner, hdst, hcomp rfl,
          .inr ⟨e, hes, hfind, hdir.trans hsrcDir.symm, fun _ => hnone, rfl⟩⟩
      have hsrc : ((dropName fs e).nodes src).isDir = true :=
        (congrArg Node64.isDir (hcore src (Ne.symm hes)) :).trans hsrcDir
      have hrename : ramfs64Rename fs oldpath newpath = (-22, dropName fs e) := by
        rw [r.rename_eq w, hsrc, inSubtree_dropName w he hnil hdst hde, hsub]
        rfl
      rw [hrename]
      refine ⟨by simp, e, ?_, fun hlook => ?_⟩
      · rw [ramfs64LookupNofollow]
        rw [walk] at hwalk ⊢
        split at hwalk
        · rename_i hslash
          rw [if_pos hslash, walkFrom_child hfind hdot hdotdot _ _ _ hwalk]
          rfl
        · exact absurd hwalk (by simp)
      · obtain ⟨⟨m, last⟩, hm, rfl⟩ := Option.map_eq_some_iff.mp hlook
        exact walk_dropName_ne w he hnil hm rfl
    · exact absurd h (by simp)
  · exact absurd h (by simp)

/-- **A `ramfs64_rename` that fails changes nothing** a path can tell, except
when it takes out the empty directory the new name is. -/
theorem failed_rename (oldpath newpath : List UInt8) :
    ((ramfs64Rename fs oldpath newpath).1 < 0 →
      SamePaths fs (ramfs64Rename fs oldpath newpath).2) ↔
    renameTakesOut fs oldpath newpath = false := by
  constructor
  · intro h
    cases hout : renameTakesOut fs oldpath newpath with
    | false => rfl
    | true =>
      obtain ⟨hneg, e, hbefore, hafter⟩ := rename_of_takesOut w hout
      exact absurd (((h hneg).nofollow newpath).trans hbefore) hafter
  · intro hout hneg
    rcases rename_refused w hneg with h | ⟨e, p, he, hnil, h, hname⟩
    · rw [h]
      exact SamePaths.refl fs
    · rw [h]
      exact samePaths_dropName w he hnil (hname hout)

end

/-- A directory over a file. -/
theorem failed_rename_kind :
    SamePaths (ramfs64Init roomy fun _ => blankNode)
      (ramfs64Rename (ramfs64Init roomy fun _ => blankNode) (text "/tmp") (text "/etc/passwd")).2 := by
  obtain ⟨kids, free, w, -⟩ := tidy_init roomy fun _ => blankNode
  exact (failed_rename w (text "/tmp") (text "/etc/passwd")).mpr (by decide)
    (by decide)

/-- A directory over an empty directory in it: refused, and the empty one is
gone. -/
theorem failed_rename_takes_out :
    let fs := tree.run (ramfs64Init roomy fun _ => blankNode) [.create (text "/tmp/x") true]
    (ramfs64Rename fs (text "/tmp") (text "/tmp/x")).1 = -22 ∧
    ¬ SamePaths fs (ramfs64Rename fs (text "/tmp") (text "/tmp/x")).2 := by
  refine ⟨by decide, fun h => ?_⟩
  exact absurd (h.nofollow (text "/tmp/x")) (by decide)

end NovarisOS.Ramfs64
