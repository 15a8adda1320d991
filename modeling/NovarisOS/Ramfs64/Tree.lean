/-
NovarisOS.Ramfs64.Tree — the node table of `kernel/ramfs64.c` as a
directory tree, and the calls that name a node by its path.

`nodes` is the table, `freeHead` the first free slot and `nodeCount` the
number in use. A directory's children and the free slots are lists threaded
through the SAME field, `nextSibling`, so a slot is on one of them or the
other. The loops over these lists are `seek`, with room for every slot.
-/
import NovarisOS.Lib.Links
import NovarisOS.Ramfs64.File

namespace NovarisOS.Ramfs64

abbrev ROOT : Nat := 0
abbrev RAMFS64_DEV_NONE : Nat := 0
abbrev RAMFS64_DEV_NULL : Nat := 5
abbrev RAMFS64_DEV_CON : Nat := 6

/-- The bytes of a string constant. -/
def text (s : String) : List UInt8 := s.toList.map fun c => UInt8.ofNat c.toNat

/-- A C string: the bytes up to the first NUL. -/
def cstr (s : List UInt8) : List UInt8 := s.takeWhile (· != 0)

/-- `"."` and `".."`. -/
abbrev DOT : List UInt8 := [46]
abbrev DOTDOT : List UInt8 := [46, 46]

/-- The static data of `kernel/ramfs64.c`. -/
structure Fs where
  nodes : Nat → Node64
  freeHead : Option Nat
  nodeCount : Nat

namespace Fs

/-- An assignment to fields of `nodes[i]`. -/
def modify (fs : Fs) (i : Nat) (f : Node64 → Node64) : Fs :=
  { fs with nodes := fun j => if j = i then f (fs.nodes i) else fs.nodes j }

/-- The `next_sibling` column of the table. -/
def next (fs : Fs) (i : Nat) : Option Nat := (fs.nodes i).nextSibling

/-- The `parent` column of the table. -/
def parent (fs : Fs) (i : Nat) : Option Nat := (fs.nodes i).parent

end Fs

def valid (fs : Fs) : Int → Bool
  | .ofNat n => decide (n < RAMFS64_MAX_NODES) && (fs.nodes n).used
  | .negSucc _ => false

/-! ## Slots -/

/-- What `alloc_node` assigns to the fields of a slot. -/
def freshNode (name : List UInt8) (parent : Option Nat) (isDir : Bool) : Node64 where
  name := name.take (RAMFS64_NAME_MAX - 1)
  parent := parent
  data := none
  size := 0
  capacity := 0
  isDir := isDir
  isLink := false
  frames := none
  fcap := 0
  openers := 0
  unlinked := false
  mode := if isDir then 0o755 else 0o644
  device := RAMFS64_DEV_NONE
  used := true
  firstChild := none
  nextSibling := none

/-- `alloc_node`: the slot, or nothing when the table is full. -/
def allocNode (fs : Fs) (name : List UInt8) (parent : Option Nat) (isDir : Bool) :
    Option Nat × Fs :=
  match fs.freeHead with
  | none => (none, fs)
  | some i =>
    let fs := { fs with freeHead := fs.next i, nodeCount := fs.nodeCount + 1 }
    let fs := fs.modify i fun _ => freshNode name parent isDir
    match parent with
    | none => (some i, fs)
    | some p =>
      if p < RAMFS64_MAX_NODES then
        let fs := fs.modify i fun nd => { nd with nextSibling := (fs.nodes p).firstChild }
        (some i, fs.modify p fun nd => { nd with firstChild := some i })
      else (some i, fs)

/-- Taking `n` out of the child list of its parent: the block that
`detach_from_parent` and `ramfs64_rename` share. -/
def unchain (fs : Fs) (n : Nat) : Fs :=
  match (fs.nodes n).parent with
  | none => fs
  | some p =>
    if p < RAMFS64_MAX_NODES then
      if (fs.nodes p).firstChild = some n then
        fs.modify p fun nd => { nd with firstChild := fs.next n }
      else
        match seek fs.next (fun c => fs.next c == some n) RAMFS64_MAX_NODES
            (fs.nodes p).firstChild with
        | none => fs
        | some c => fs.modify c fun nd => { nd with nextSibling := fs.next n }
    else fs

def detachFromParent (fs : Fs) (n : Nat) : Fs :=
  (unchain fs n).modify n fun nd => { nd with parent := none, nextSibling := none }

def releaseNode (fs : Fs) (n : Nat) : Fs :=
  let fs' := fs.modify n fun nd =>
    { nd with
      data := none
      frames := none
      fcap := if nd.frames.isSome then 0 else nd.fcap
      used := false
      firstChild := none
      nextSibling := fs.freeHead }
  { fs' with freeHead := some n, nodeCount := fs.nodeCount - 1 }

def freeNode (fs : Fs) (n : Nat) : Fs := releaseNode (detachFromParent fs n) n

def ramfs64RefNode (fs : Fs) (node : Int) : Fs :=
  if valid fs node then fs.modify node.toNat fun nd => { nd with openers := nd.openers + 1 }
  else fs

def ramfs64UnrefNode (fs : Fs) (node : Int) : Fs :=
  if valid fs node then
    let n := node.toNat
    let fs := fs.modify n fun nd => { nd with openers := nd.openers - 1 }
    if (fs.nodes n).openers = 0 && (fs.nodes n).unlinked then releaseNode fs n else fs
  else fs

/-! ## Paths -/

/-- `find_child`. Two names of one length are compared byte by byte. -/
def findChild (fs : Fs) (dir : Nat) (name : List UInt8) : Option Nat :=
  if valid fs dir && (fs.nodes dir).isDir then
    seek fs.next (fun i => (fs.nodes i).name == name) RAMFS64_MAX_NODES (fs.nodes dir).firstChild
  else none

/-- Where the component loop of `walk` stops: at an answer, at the parent of
the last component, or at a symbolic link it has to follow. -/
inductive Scan where
  | fail
  | node (n : Nat)
  | parent (n : Nat) (name : List UInt8)
  | link (dir child : Nat) (rest : List UInt8)

/-- The component loop of `walk`, from `node` with `p` still to read. Every
turn of it reads a byte, so `p.length + 1` turns are enough. -/
def scan (fs : Fs) (wantParent followFinal : Bool) : Nat → Nat → List UInt8 → Scan
  | 0, _, _ => .fail
  | fuel + 1, node, p =>
    let p := p.dropWhile (· == SLASH)
    if p.isEmpty then
      -- a path that was only slashes has no last component
      if wantParent then .fail else .node node
    else
      let comp := p.takeWhile (· != SLASH)
      let rest := p.dropWhile (· != SLASH)
      let isLast := (rest.dropWhile (· == SLASH)).isEmpty
      if isLast && wantParent then
        if comp.length ≥ RAMFS64_NAME_MAX then .fail else .parent node comp
      else if comp = DOT then scan fs wantParent followFinal fuel node rest
      else if comp = DOTDOT then
        scan fs wantParent followFinal fuel (((fs.nodes node).parent).getD node) rest
      else
        match findChild fs node comp with
        | none => .fail
        | some child =>
          if (fs.nodes child).isLink && (!isLast || followFinal) then .link node child rest
          else scan fs wantParent followFinal fuel child rest

/-- The path a link turns into: its target with what was left of the old
path behind it, if that fits a buffer. -/
def expand (nd : Node64) (rest : List UInt8) : Option (List UInt8) :=
  match nd.data with
  | none => none
  | some target =>
    if nd.size = 0 || decide (nd.size ≥ RAMFS64_PATH_MAX) then none
    else if !rest.isEmpty && decide (nd.size + rest.length + 1 ≥ RAMFS64_PATH_MAX) then none
    else some (cstr (target.bytes 0 nd.size ++ rest))

/-- `walk` with `links` links still allowed. -/
def walkFrom (fs : Fs) (wantParent followFinal : Bool) :
    Nat → Nat → List UInt8 → Option (Nat × List UInt8)
  | links, node, p =>
    match scan fs wantParent followFinal (p.length + 1) node p with
    | .fail => none
    | .node n => some (n, [])
    | .parent n name => some (n, name)
    | .link dir child rest =>
      match links with
      | 0 => none
      | links + 1 =>
        match expand (fs.nodes child) rest with
        | none => none
        | some out =>
          walkFrom fs wantParent followFinal links
            (if out.head? = some SLASH then ROOT else dir) out

/-- `walk`: the node, and the name it copied out when it was asked for the
parent. -/
def walk (fs : Fs) (path : List UInt8) (wantParent followFinal : Bool) :
    Option (Nat × List UInt8) :=
  if path.head? = some SLASH then
    walkFrom fs wantParent followFinal RAMFS64_LINK_MAX ROOT path
  else none

def ramfs64Lookup (fs : Fs) (path : List UInt8) : Option Nat :=
  (walk fs path false true).map Prod.fst

def ramfs64LookupNofollow (fs : Fs) (path : List UInt8) : Option Nat :=
  (walk fs path false false).map Prod.fst

/-! ## The calls -/

def ramfs64Create (fs : Fs) (path : List UInt8) (isDir : Bool) : Option Nat × Fs :=
  match walk fs path true true with
  | none => (none, fs)
  | some (parent, component) =>
    match findChild fs parent component with
    | some existing => (some existing, fs)
    | none => allocNode fs component (some parent) isDir

/-- The component loop of `ramfs64_mkdirp`: `partialPath` is the path so far. -/
def mkdirpFrom : Nat → Fs → Option Nat → List UInt8 → List UInt8 → Option Nat × Fs
  | 0, fs, _, _, _ => (none, fs)
  | fuel + 1, fs, node, partialPath, p =>
    let p := p.dropWhile (· == SLASH)
    if p.isEmpty then (node, fs)
    else
      let comp := p.takeWhile (· != SLASH)
      let rest := p.dropWhile (· != SLASH)
      if partialPath.length + comp.length + 1 ≥ RAMFS64_PATH_MAX then (none, fs)
      else
        let partialPath :=
          (if partialPath.length > 1 then partialPath ++ [SLASH] else partialPath) ++ comp
        match ramfs64Lookup fs partialPath with
        | some n => mkdirpFrom fuel fs (some n) partialPath rest
        | none =>
          match ramfs64Create fs partialPath true with
          | (none, fs) => (none, fs)
          | (some n, fs) => mkdirpFrom fuel fs (some n) partialPath rest

def ramfs64Mkdirp (fs : Fs) (path : List UInt8) : Option Nat × Fs :=
  if path.head? = some SLASH then mkdirpFrom (path.length + 1) fs (some ROOT) [SLASH] path
  else (none, fs)

def ramfs64Symlink (env : Env) (fs : Fs) (path target : List UInt8) : Int × Fs :=
  if target.isEmpty then (-22, fs)
  else if target.length ≥ RAMFS64_PATH_MAX then (-36, fs)
  else
    match walk fs path true true with
    | none => (-2, fs)
    | some (parent, component) =>
      if (findChild fs parent component).isSome then (-17, fs)
      else
        match allocNode fs component (some parent) false with
        | (none, fs) => (-28, fs)
        | (some node, fs) =>
          let fs := fs.modify node fun nd => { nd with isLink := true }
          let r := ensureCapacity env (fs.nodes node) (target.length + 1)
          if r.1 then
            (node, fs.modify node fun _ =>
              { r.2 with
                data := r.2.data.map fun d =>
                  (d.copyAt 0 (fun i => target.getD i 0) target.length).fillAt target.length 0 1
                size := target.length })
          else (-12, freeNode (fs.modify node fun _ => r.2) node)

/-- The name goes now, the file when the last descriptor on it closes: what
`ramfs64_unlink` and a replacing `ramfs64_rename` do. -/
def dropName (fs : Fs) (n : Nat) : Fs :=
  let fs := (detachFromParent fs n).modify n fun nd => { nd with unlinked := true }
  if (fs.nodes n).openers = 0 then releaseNode fs n else fs

/-- Whether the loop up from `dst` in `ramfs64_rename` meets `src`. -/
def inSubtree (fs : Fs) (src dst : Nat) : Bool :=
  seek fs.parent (fun a => a == src || a == ROOT) RAMFS64_MAX_NODES (some dst) == some src

/-- The last part of `ramfs64_rename`: `src` moves to the front of the list
of `dst` under its new name. -/
def moveNode (fs : Fs) (src dst : Nat) (name : List UInt8) : Fs :=
  let fs := unchain fs src
  let fs := fs.modify src fun nd =>
    { nd with
      name := name.take (RAMFS64_NAME_MAX - 1)
      parent := some dst
      nextSibling := (fs.nodes dst).firstChild }
  fs.modify dst fun nd => { nd with firstChild := some src }

/-- `ramfs64_rename`. What stands in the way is taken out before the loop up
from the new parent is run, so a rename that it refuses has already removed
it. -/
def ramfs64Rename (fs : Fs) (oldpath newpath : List UInt8) : Int × Fs :=
  match ramfs64LookupNofollow fs oldpath with
  | none => (-2, fs)
  | some src =>
    if src = ROOT then (-16, fs)
    else
      match walk fs newpath true true with
      | none => (-2, fs)
      | some (dst, component) =>
        let existing := findChild fs dst component
        if existing = some src then (0, fs)
        else
          let refused : Option Int := do
            let e ← existing
            if (fs.nodes e).isDir ≠ (fs.nodes src).isDir then
              some (if (fs.nodes e).isDir then -21 else -20)
            else if (fs.nodes e).isDir && (fs.nodes e).firstChild.isSome then some (-39)
            else none
          match refused with
          | some err => (err, fs)
          | none =>
            let fs := match existing with
              | some e => dropName fs e
              | none => fs
            if (fs.nodes src).isDir && inSubtree fs src dst then (-22, fs)
            else (0, moveNode fs src dst component)

def ramfs64Unlink (fs : Fs) (path : List UInt8) : Int × Fs :=
  match ramfs64LookupNofollow fs path with
  | none => (-2, fs)
  | some i => if (fs.nodes i).isDir then (-21, fs) else (0, dropName fs i)

def hasChildren (fs : Fs) (dir : Nat) : Bool :=
  valid fs dir && (fs.nodes dir).firstChild.isSome

/-- `ramfs64_rmdir`: unlike `ramfs64_unlink` it does not ask whether anybody
has the directory open. -/
def ramfs64Rmdir (fs : Fs) (path : List UInt8) : Int × Fs :=
  match ramfs64LookupNofollow fs path with
  | none => (-2, fs)
  | some i =>
    if !(fs.nodes i).isDir then (-20, fs)
    else if i = ROOT then (-16, fs)
    else if hasChildren fs i then (-39, fs)
    else (0, freeNode fs i)

def ramfs64SetDevice (fs : Fs) (node : Nat) (device : Nat) : Fs :=
  if valid fs node && !(fs.nodes node).isDir then
    fs.modify node fun nd => { nd with device := device }
  else fs

def ramfs64SetMode (fs : Fs) (node : Nat) (mode : Nat) : Fs :=
  if valid fs node then fs.modify node fun nd => { nd with mode := mode &&& 0o7777 } else fs

/-! ## `ramfs64_init` -/

/-- The loop that threads every slot into the free list. Fields it does not
name hold whatever the memory held. -/
def clearNodes (mem : Nat → Node64) : Fs where
  nodes i :=
    { mem i with
      used := false
      data := none
      capacity := 0
      size := 0
      frames := none
      fcap := 0
      firstChild := none
      nextSibling := if i + 1 < RAMFS64_MAX_NODES then some (i + 1) else none }
  freeHead := some 0
  nodeCount := 0

/-- Creating a device node. -/
def seedDevice (fs : Fs) (path : String) (device : Nat) : Fs :=
  match ramfs64Create fs (text path) false with
  | (none, fs) => fs
  | (some n, fs) => ramfs64SetMode (ramfs64SetDevice fs n device) n 0o666

/-- Creating a file with contents. -/
def seedFile (env : Env) (fs : Fs) (path contents : String) : Fs :=
  match ramfs64Create fs (text path) false with
  | (none, fs) => fs
  | (some n, fs) =>
    if valid fs n then
      fs.modify n fun nd =>
        (ramfs64Write env nd 0 (fun i => (text contents).getD i 0) (text contents).length).2
    else fs

/-- The filesystem with its root and the directories a program expects. -/
def initDirs (mem : Nat → Node64) : Fs :=
  let fs := (allocNode (clearNodes mem) (text "/") none true).2
  let fs := (ramfs64Mkdirp fs (text "/tmp")).2
  let fs := (ramfs64Mkdirp fs (text "/root")).2
  let fs := (ramfs64Mkdirp fs (text "/etc")).2
  (ramfs64Mkdirp fs (text "/dev")).2

/-- `ramfs64_init` on a table whose memory holds `mem`. -/
def ramfs64Init (env : Env) (mem : Nat → Node64) : Fs :=
  let fs := initDirs mem
  let fs := seedDevice fs "/dev/null" RAMFS64_DEV_NULL
  let fs := seedDevice fs "/dev/console" RAMFS64_DEV_CON
  let fs := seedFile env fs "/etc/passwd" "root:x:0:0:root:/root:/bin/sh\n"
  seedFile env fs "/etc/nsswitch.conf"
    "passwd: files\ngroup: files\nshadow: files\nhosts: files\n"

/-! ## The calls as a machine -/

inductive TreeOp where
  | create (path : List UInt8) (isDir : Bool)
  | mkdirp (path : List UInt8)
  | symlink (env : Env) (path target : List UInt8)
  | rename (oldpath newpath : List UInt8)
  | unlink (path : List UInt8)
  | rmdir (path : List UInt8)
  | refNode (node : Int)
  | unrefNode (node : Int)

/-- An index as the `int` the caller sees. -/
def index : Option Nat → Int
  | some n => n
  | none => -1

def treeCall (fs : Fs) : TreeOp → Fs × Int
  | .create path isDir =>
      let r := ramfs64Create fs (cstr path) isDir
      (r.2, index r.1)
  | .mkdirp path =>
      let r := ramfs64Mkdirp fs (cstr path)
      (r.2, index r.1)
  | .symlink env path target =>
      let r := ramfs64Symlink env fs (cstr path) (cstr target)
      (r.2, r.1)
  | .rename oldpath newpath =>
      let r := ramfs64Rename fs (cstr oldpath) (cstr newpath)
      (r.2, r.1)
  | .unlink path =>
      let r := ramfs64Unlink fs (cstr path)
      (r.2, r.1)
  | .rmdir path =>
      let r := ramfs64Rmdir fs (cstr path)
      (r.2, r.1)
  | .refNode node => (ramfs64RefNode fs node, 0)
  | .unrefNode node => (ramfs64UnrefNode fs node, 0)

/-- The calls of `kernel/ramfs64.c` that change the tree. -/
def tree : Machine Fs TreeOp Int := ⟨treeCall⟩

/-- A slot nothing was ever stored in, and allocators that never refuse. -/
def blankNode : Node64 where
  name := []
  parent := none
  data := none
  size := 0
  capacity := 0
  isDir := false
  isLink := false
  mode := 0
  frames := none
  fcap := 0
  openers := 0
  unlinked := false
  device := 0
  used := false
  firstChild := none
  nextSibling := none

def roomy : Env := ⟨fun _ => some fun _ => 0, fun _ => some fun _ => 0⟩

end NovarisOS.Ramfs64
