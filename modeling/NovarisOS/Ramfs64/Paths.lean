/-
NovarisOS.Ramfs64.Paths — what giving back a node changes for the paths.

`ramfs64_unref_node` counts a descriptor less, and frees the node if its name
is gone and nobody has it open. A path only goes through nodes with a name, so
it leads where it led, to the same file (`NamedKept.undisturbed`).
-/
import NovarisOS.Ramfs64.OpenNodes
import NovarisOS.Ramfs64.RenameTheorems

namespace NovarisOS.Ramfs64

/-- Every path leads where it led, and the file there is as it was. -/
structure Undisturbed (fs fs' : Fs) : Prop where
  follow : ∀ path, ramfs64Lookup fs' path = ramfs64Lookup fs path
  nofollow : ∀ path, ramfs64LookupNofollow fs' path = ramfs64LookupNofollow fs path
  file : ∀ path n, ramfs64Lookup fs path = some n ∨ ramfs64LookupNofollow fs path = some n →
    (fs'.nodes n).object = (fs.nodes n).object

/-- A node apart from the descriptors on it. -/
def Node64.closed (nd : Node64) : Node64 := { nd with openers := 0 }

/-- A node that has its name is the same but for the descriptors on it. -/
structure NamedKept (fs fs' : Fs) : Prop where
  unlinked : ∀ i, (fs'.nodes i).unlinked = (fs.nodes i).unlinked
  named : ∀ i, (fs.nodes i).unlinked = false → (fs'.nodes i).closed = (fs.nodes i).closed

namespace NamedKept

theorem refl (fs : Fs) : NamedKept fs fs := ⟨fun _ => rfl, fun _ _ => rfl⟩

theorem trans {fs₁ fs₂ fs₃ : Fs} (h : NamedKept fs₁ fs₂) (h' : NamedKept fs₂ fs₃) : NamedKept fs₁ fs₃ :=
  ⟨fun i => (h'.unlinked i).trans (h.unlinked i),
    fun i hi => (h'.named i ((h.unlinked i).trans hi)).trans (h.named i hi)⟩

theorem openers (fs : Fs) (n k : Nat) : NamedKept fs (fs.modify n fun nd => { nd with openers := k }) := by
  constructor
  all_goals
    intro i
    by_cases hi : i = n
    · subst hi; simp [Node64.closed]
    · simp [hi]

theorem release (fs : Fs) {n : Nat} (hn : (fs.nodes n).unlinked = true) : NamedKept fs (releaseNode fs n) := by
  constructor
  all_goals
    intro i
    by_cases hi : i = n
    · subst hi; simp [releaseNode, hn]
    · simp [releaseNode, hi]

theorem unrefNode (fs : Fs) (node : Int) : NamedKept fs (ramfs64UnrefNode fs node) := by
  unfold ramfs64UnrefNode
  split
  · dsimp only
    have hless : NamedKept fs (fs.modify node.toNat fun nd => { nd with openers := nd.openers - 1 }) :=
      openers fs node.toNat ((fs.nodes node.toNat).openers - 1)
    split
    · rename_i hlast
      exact hless.trans (release _ (Bool.and_eq_true_iff.1 hlast).2)
    · exact hless
  · exact refl fs

end NamedKept

/-! ## Paths only go through names -/

section

variable {fs fs' : Fs} {kids : Nat → List Nat} {free : List Nat} (w : Wired fs kids free) (k : NamedKept fs fs')
include w k

theorem Reached.closed {n : Nat} (h : Reached fs kids n) : (fs'.nodes n).closed = (fs.nodes n).closed := by
  cases h with
  | root => exact k.named _ w.rootNamed
  | child _ _ hc => exact k.named _ (w.kid _ _ hc).1.named

theorem findChild_closed {dir : Nat} (hdir : Reached fs kids dir) (name : List UInt8) :
    findChild fs' dir name = findChild fs dir name := by
  have hself := hdir.closed w k
  have hused : (fs'.nodes dir).used = (fs.nodes dir).used := (congrArg Node64.used hself :)
  have hisDir : (fs'.nodes dir).isDir = (fs.nodes dir).isDir := (congrArg Node64.isDir hself :)
  have hfirst : (fs'.nodes dir).firstChild = (fs.nodes dir).firstChild := (congrArg Node64.firstChild hself :)
  have hkid : ∀ c ∈ kids dir, (fs'.nodes c).closed = (fs.nodes c).closed :=
    fun c hc => k.named c (w.kid dir c hc).1.named
  have hlinks : Links fs'.next (fs.nodes dir).firstChild (kids dir) :=
    (w.kidsLinks dir).congr fun c hc => (congrArg Node64.nextSibling (hkid c hc) :)
  have hsame : (kids dir).find? (fun i => (fs'.nodes i).name == name) =
      (kids dir).find? (fun i => (fs.nodes i).name == name) := by
    refine List.find?_congr fun c hc => ?_
    have hname : (fs'.nodes c).name = (fs.nodes c).name := (congrArg Node64.name (hkid c hc) :)
    rw [hname]
  rw [findChild, findChild, valid_natCast, valid_natCast, hused, hisDir, hfirst,
    seek_eq_find? _ hlinks (w.kids_length dir), seek_eq_find? _ (w.kidsLinks dir) (w.kids_length dir), hsame]

theorem NamedKept.alike : Alike fs fs' (Reached fs kids) where
  root := Reached.root
  parent i hi := (congrArg Node64.parent (hi.closed w k) :)
  up i hi := hi.up w
  find i name hi _ _ := findChild_closed w k hi name
  child i name c hi _ _ hfind := findChild_reached w hi hfind
  isLink i hi := (congrArg Node64.isLink (hi.closed w k) :)
  expand i rest hi := by
    have hdata : (fs'.nodes i).data = (fs.nodes i).data := (congrArg Node64.data (hi.closed w k) :)
    have hsize : (fs'.nodes i).size = (fs.nodes i).size := (congrArg Node64.size (hi.closed w k) :)
    simp only [expand, hdata, hsize]

theorem NamedKept.undisturbed : Undisturbed fs fs' := by
  have a := k.alike w
  refine ⟨fun path => ?_, fun path => ?_, ?_⟩
  · rw [ramfs64Lookup, ramfs64Lookup, a.walk]
  · rw [ramfs64LookupNofollow, ramfs64LookupNofollow, a.walk]
  · rintro path n (h | h)
    all_goals
      obtain ⟨⟨m, name⟩, hm, rfl⟩ := Option.map_eq_some_iff.mp h
      exact (congrArg Node64.object ((walk_reached w hm).1.closed w k) :)

end

end NovarisOS.Ramfs64
