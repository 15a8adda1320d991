/-
NovarisOS.Vfs32.Tree — the nodes of `kernel/ramfs.c`, its path resolution, and
the calls that make, move and take away a node by its path.

Nodes come from the kernel heap in blocks of 128: entry `i` of block `b` is
node `128 * b + i`, and a pointer to one is its number, null being `none`. A
directory's children and the free nodes are lists threaded through the same
field, `next_sibling`.
-/
import NovarisOS.Lib.Links
import NovarisOS.Lib.Machine
import NovarisOS.Vfs.Basic

namespace NovarisOS.Vfs32

abbrev VFS_NODES_PER_BLOCK : Nat := 128
abbrev VFS_MAX_BLOCKS : Nat := 64
abbrev INITRD_MAX_FILES : Nat := 2048
abbrev INITRD_NAME_MAX : Nat := 124
abbrev VFS_MAX_LINKS : Nat := 8

/-- All the nodes there can be. -/
abbrev POOL : Nat := VFS_NODES_PER_BLOCK * VFS_MAX_BLOCKS

/-- A C string: the bytes up to the first NUL. -/
def cstr (s : List UInt8) : List UInt8 := s.takeWhile (· != 0)

/-- `kstrlcpy(dst, src, VFS_NAME_MAX)`. -/
def stored (name : List UInt8) : List UInt8 := name.take (VFS_NAME_MAX - 1)

/-- `"."` and `".."`. -/
abbrev DOT : List UInt8 := [46]
abbrev DOTDOT : List UInt8 := [46, 46]

/-- `vfs_node_t`. -/
structure Node where
  name : List UInt8
  kind : Kind
  /-- What a symbolic link names. -/
  target : List UInt8
  parent : Option Nat
  first_child : Option Nat
  next_sibling : Option Nat
  in_use : Bool
  refs : Int
  unlinked : Bool
  deriving DecidableEq

/-- `kmemset(n, 0, sizeof(*n))`. -/
def blank : Node where
  name := []
  kind := .file
  target := []
  parent := none
  first_child := none
  next_sibling := none
  in_use := false
  refs := 0
  unlinked := false

/-- The static data of `kernel/ramfs.c`. -/
structure Vfs where
  nodes : Nat → Node
  nblocks : Nat
  free_list : Option Nat
  root : Option Nat

namespace Vfs

/-- `*n = nd`. -/
def set (fs : Vfs) (n : Nat) (nd : Node) : Vfs :=
  { fs with nodes := fun j => if j = n then nd else fs.nodes j }

/-- The fields of every node that a list or a chain of them runs through. -/
def next (fs : Vfs) (i : Nat) : Option Nat := (fs.nodes i).next_sibling
def parent (fs : Vfs) (i : Nat) : Option Nat := (fs.nodes i).parent

end Vfs

/-! ## Node bookkeeping -/

/-- `grow_pool`, where `heap b` says whether the kernel heap has room for block
`b`. -/
def grow_pool (heap : Nat → Bool) (fs : Vfs) : Option Vfs :=
  if fs.nblocks ≥ VFS_MAX_BLOCKS then none
  else if heap fs.nblocks then
    let base := VFS_NODES_PER_BLOCK * fs.nblocks
    some { fs with
      nodes := fun j =>
        if base ≤ j ∧ j < base + VFS_NODES_PER_BLOCK then
          { blank with next_sibling := if j = base then fs.free_list else some (j - 1) }
        else fs.nodes j
      free_list := some (base + VFS_NODES_PER_BLOCK - 1)
      nblocks := fs.nblocks + 1 }
  else none

/-- `vfs_node_alloc` once the free list has been seen to. -/
def take_free (fs : Vfs) : Option (Nat × Vfs) :=
  match fs.free_list with
  | none => none
  | some n => some (n, { fs with free_list := fs.next n }.set n { blank with in_use := true })

def vfs_node_alloc (heap : Nat → Bool) (fs : Vfs) : Option (Nat × Vfs) :=
  match fs.free_list with
  | none =>
    match grow_pool heap fs with
    | none => none
    | some fs => take_free fs
  | some _ => take_free fs

def vfs_node_release (fs : Vfs) (n : Nat) : Vfs :=
  if (fs.nodes n).in_use then
    { fs.set n { blank with next_sibling := fs.free_list } with free_list := some n }
  else fs

/-- `vfs_node_ref`. The count is an `int`. -/
def vfs_node_ref (fs : Vfs) (n : Nat) : Vfs :=
  fs.set n { fs.nodes n with refs := ((fs.nodes n).refs + 1).bmod 4294967296 }

def vfs_node_unref (fs : Vfs) (n : Nat) : Vfs :=
  if (fs.nodes n).refs ≤ 0 then fs
  else
    let fs' := fs.set n { fs.nodes n with refs := (fs.nodes n).refs - 1 }
    if (fs.nodes n).refs - 1 = 0 ∧ (fs.nodes n).unlinked then vfs_node_release fs' n else fs'

def vfs_dir_append (fs : Vfs) (dir child : Nat) : Vfs :=
  let fs := fs.set child { fs.nodes child with parent := some dir, next_sibling := none }
  match (fs.nodes dir).first_child with
  | none => fs.set dir { fs.nodes dir with first_child := some child }
  | some _ =>
    match seek fs.next (fun c => (fs.next c).isNone) POOL (fs.nodes dir).first_child with
    | none => fs
    | some tail => fs.set tail { fs.nodes tail with next_sibling := some child }

/-- The assignments at the end of `vfs_dir_remove`, once the link to `child` has
been moved past it. -/
def detach (fs : Vfs) (child : Nat) : Vfs :=
  fs.set child { fs.nodes child with next_sibling := none, parent := none }

def vfs_dir_remove (fs : Vfs) (dir child : Nat) : Vfs :=
  if (fs.nodes dir).first_child = some child then
    detach (fs.set dir { fs.nodes dir with first_child := fs.next child }) child
  else
    match seek fs.next (fun c => fs.next c == some child) POOL (fs.nodes dir).first_child with
    | none => fs
    | some c => detach (fs.set c { fs.nodes c with next_sibling := fs.next child }) child

/-! ## Directories -/

def ramfs_finddir (fs : Vfs) (dir : Nat) (name : List UInt8) : Option Nat :=
  seek fs.next (fun c => (fs.nodes c).name == name) POOL (fs.nodes dir).first_child

def vfs_finddir (fs : Vfs) (dir : Nat) (name : List UInt8) : Option Nat :=
  if (fs.nodes dir).kind = .directory then ramfs_finddir fs dir name else none

def ramfs_create (heap : Nat → Bool) (fs : Vfs) (dir : Nat) (name : List UInt8) (flags : Kind) : Option (Nat × Vfs) :=
  match vfs_node_alloc heap fs with
  | none => none
  | some (n, fs) => some (n, vfs_dir_append (fs.set n { fs.nodes n with name := stored name, kind := flags }) dir n)

def vfs_create (heap : Nat → Bool) (fs : Vfs) (dir : Nat) (name : List UInt8) (flags : Kind) : Option (Nat × Vfs) :=
  if (fs.nodes dir).kind = .directory then
    if name = [] then none
    else
      match vfs_finddir fs dir name with
      | some _ => none
      | none => ramfs_create heap fs dir name flags
  else none

/-- What `ramfs_unlink` does to a victim that may go. -/
def unlink_victim (fs : Vfs) (dir victim : Nat) : Vfs :=
  let fs := vfs_dir_remove fs dir victim
  let fs := fs.set victim { fs.nodes victim with unlinked := true }
  if (fs.nodes victim).refs = 0 then vfs_node_release fs victim else fs

def ramfs_unlink (fs : Vfs) (dir : Nat) (name : List UInt8) (want_dir : Bool) : Int × Vfs :=
  match ramfs_finddir fs dir name with
  | none => (-ENOENT, fs)
  | some victim =>
    let is_dir := (fs.nodes victim).kind = .directory
    if want_dir ∧ ¬ is_dir then (-ENOTDIR, fs)
    else if ¬ want_dir ∧ is_dir then (-EISDIR, fs)
    else if is_dir ∧ (fs.nodes victim).first_child ≠ none then (-ENOTEMPTY, fs)
    else (0, unlink_victim fs dir victim)

def vfs_unlink (fs : Vfs) (dir : Nat) (name : List UInt8) (want_dir : Bool) : Int × Vfs :=
  if (fs.nodes dir).kind = .directory then
    if name = DOT ∨ name = DOTDOT then (-EINVAL, fs) else ramfs_unlink fs dir name want_dir
  else (-ENOTDIR, fs)

/-! ## Path resolution -/

/-- `follow_link` below the limit on links, resolving with `walk`. -/
def follow_link (fs : Vfs) (walk : Nat → List UInt8 → Option Nat) (link : Nat) : Option Nat :=
  let target := (fs.nodes link).target.take (VFS_SYMLINK_MAX - 1)
  if target = [] then none
  else
    match if target.head? = some SLASH then fs.root else fs.parent link with
    | none => none
    | some base => walk base (cstr target)

/-- The loop of `walk_from` from `cur` with `path` still to read, following a link
by `follow`: the node, and the leaf when the caller wants one. A turn of the loop
reads at least a byte. -/
def components (fs : Vfs) (follow : Nat → Option Nat) (leaf_out follow_final : Bool) :
    Nat → Nat → List UInt8 → Option (Nat × Option (List UInt8))
  | 0, _, _ => none
  | fuel + 1, cur, path =>
    let seg := path.dropWhile (· == SLASH)
    if seg = [] then some (cur, none)
    else
      let name := seg.takeWhile (· != SLASH)
      let path := (seg.dropWhile (· != SLASH)).dropWhile (· == SLASH)
      let last := path = []
      if last ∧ leaf_out then some (cur, some seg)
      else if name.length ≥ VFS_NAME_MAX then none
      else
        let next :=
          if name = DOT then some cur
          else if name = DOTDOT then some ((fs.parent cur).getD cur)
          else vfs_finddir fs cur name
        let next := next.bind fun next =>
          if (fs.nodes next).kind = .symlink ∧ (¬ last ∨ follow_final) then follow next else some next
        match next with
        | none => none
        | some next =>
          if last then some (next, none)
          else if (fs.nodes next).kind = .directory then components fs follow leaf_out follow_final fuel next path
          else none

/-- `walk_from` with `links` links still allowed. -/
def walk_from (fs : Vfs) : Nat → Nat → List UInt8 → Bool → Bool → Option (Nat × Option (List UInt8))
  | links, start, path, leaf_out, follow_final =>
    let follow : Nat → Option Nat :=
      match links with
      | 0 => fun _ => none
      | links + 1 => follow_link fs fun base target => (walk_from fs links base target false true).map Prod.fst
    match if path.head? = some SLASH then fs.root else some start with
    | none => none
    | some cur => components fs follow leaf_out follow_final (path.length + 1) cur path

def vfs_resolve_parent (fs : Vfs) (path : List UInt8) : Option (Nat × List UInt8) :=
  match fs.root with
  | none => none
  | some root =>
    match walk_from fs VFS_MAX_LINKS root path true true with
    | some (dir, some leaf) => if (fs.nodes dir).kind = .directory then some (dir, leaf) else none
    | _ => none

/-! ## Symbolic links and renaming -/

/-- `vfs_symlink`. `write` says whether `vfs_write` finds room for the target. -/
def vfs_symlink (heap : Nat → Bool) (write : Bool) (fs : Vfs) (dir : Nat) (name target : List UInt8) : Int × Vfs :=
  if (fs.nodes dir).kind = .directory then
    if name = [] ∨ target = [] then (-EINVAL, fs)
    else if target.length ≥ VFS_SYMLINK_MAX then (-ENAMETOOLONG, fs)
    else
      match vfs_finddir fs dir name with
      | some _ => (-EEXIST, fs)
      | none =>
        match vfs_create heap fs dir name .symlink with
        | none => (-ENOSPC, fs)
        | some (n, fs) =>
          if write then (0, fs.set n { fs.nodes n with target := target })
          else (-ENOSPC, (vfs_unlink fs dir name false).2)
  else (-ENOTDIR, fs)

def ramfs_rename (fs : Vfs) (olddir : Nat) (oldname : List UInt8) (newdir : Nat) (newname : List UInt8) : Int × Vfs :=
  match ramfs_finddir fs olddir oldname with
  | none => (-ENOENT, fs)
  | some moving =>
    let leafbuf := stored newname
    let victim := ramfs_finddir fs newdir leafbuf
    if victim = some moving then (0, fs)
    else if victim.any fun v => (fs.nodes v).kind = .directory then (-EISDIR, fs)
    else
      let fs := vfs_dir_remove fs olddir moving
      let fs := if victim.isSome then (ramfs_unlink fs newdir leafbuf false).2 else fs
      let fs := fs.set moving { fs.nodes moving with name := leafbuf }
      (0, vfs_dir_append fs newdir moving)

def vfs_rename (fs : Vfs) (oldpath newpath : List UInt8) : Int × Vfs :=
  match vfs_resolve_parent fs oldpath with
  | none => (-ENOENT, fs)
  | some (olddir, oldleaf) =>
    match vfs_resolve_parent fs newpath with
    | none => (-ENOENT, fs)
    | some (newdir, newleaf) => ramfs_rename fs olddir (stored oldleaf) newdir newleaf

/-! ## Mounting -/

/-- `initrd_make_dirs` from `dir` with `p` still to read. -/
def initrd_make_dirs (heap : Nat → Bool) : Nat → Vfs → Nat → List UInt8 → Option (Nat × List UInt8) × Vfs
  | 0, fs, _, _ => (none, fs)
  | fuel + 1, fs, dir, p =>
    let slash := p.dropWhile (· != SLASH)
    if slash = [] then (some (dir, p), fs)
    else
      let comp := stored (p.takeWhile (· != SLASH))
      let p := slash.dropWhile (· == SLASH)
      if comp = [] then initrd_make_dirs heap fuel fs dir p
      else
        match vfs_finddir fs dir comp with
        | some next =>
          if (fs.nodes next).kind = .directory then initrd_make_dirs heap fuel fs next p else (none, fs)
        | none =>
          match vfs_create heap fs dir comp .directory with
          | none => (none, fs)
          | some (next, fs) =>
            if (fs.nodes next).kind = .directory then initrd_make_dirs heap fuel fs next p else (none, fs)

/-- The path an entry of the archive gives its file. -/
def entry_name (entry : List UInt8) : List UInt8 := cstr (entry.take INITRD_NAME_MAX)

/-- The loop of `ramfs_init` over the name fields of the archive's entries. -/
def populate (heap : Nat → Bool) (root : Nat) : List (List UInt8) → Vfs → Vfs
  | [], fs => fs
  | entry :: entries, fs =>
    let name := entry_name entry
    if name = [] then populate heap root entries fs
    else
      match initrd_make_dirs heap (name.length + 1) fs root (name.dropWhile (· == SLASH)) with
      | (none, fs) => populate heap root entries fs
      | (some (dir, leaf), fs) =>
        if leaf = [] then populate heap root entries fs
        else
          match vfs_create heap fs dir leaf .file with
          | none => fs
          | some (_, fs) => populate heap root entries fs

/-- A directory `ramfs_init` makes in the root. -/
def make_home (heap : Nat → Bool) (root : Nat) (fs : Vfs) (name : List UInt8) : Vfs :=
  match vfs_create heap fs root name .directory with
  | none => fs
  | some (_, fs) => fs

/-- `"tmp"`, `"disk"` and `"root"`. -/
def homes : List (List UInt8) := [[116, 109, 112], [100, 105, 115, 107], [114, 111, 111, 116]]

/-- `ramfs_init` over an archive, which is empty when the image has the wrong
magic. -/
def ramfs_init (heap : Nat → Bool) (archive : List (List UInt8)) : Vfs :=
  let fs : Vfs := ⟨fun _ => blank, 0, none, none⟩
  match vfs_node_alloc heap fs with
  | none => fs
  | some (root, fs) =>
    let fs := { fs.set root { fs.nodes root with name := [SLASH], kind := .directory } with root := some root }
    homes.foldl (make_home heap root) (populate heap root (archive.take INITRD_MAX_FILES) fs)

/-! ## The calls -/

/-- A call. `create` stands for every caller of `vfs_create`, and `create`,
`symlink` and `unlink` work on the directory and the leaf `vfs_resolve_parent`
gives for the path. -/
inductive Act
  | rename (oldpath newpath : List UInt8)
  | create (path : List UInt8) (flags : Kind) (heap : Nat → Bool)
  | symlink (path target : List UInt8) (heap : Nat → Bool) (write : Bool)
  | unlink (path : List UInt8) (want_dir : Bool)
  | ref (n : Nat)
  | unref (n : Nat)

/-- The file system and, for every node, the references taken and not yet given
back. -/
structure State where
  fs : Vfs
  held : Nat → Nat

def State.boot (heap : Nat → Bool) (archive : List (List UInt8)) : State :=
  ⟨ramfs_init heap archive, fun _ => 0⟩

/-- What a call on a path does to the nodes. -/
def on_parent (fs : Vfs) (path : List UInt8) (call : Nat → List UInt8 → Vfs) : Vfs :=
  match vfs_resolve_parent fs (cstr path) with
  | none => fs
  | some (dir, leaf) => call dir leaf

def State.step (k : State) : Act → State
  | .rename oldpath newpath => { k with fs := (vfs_rename k.fs (cstr oldpath) (cstr newpath)).2 }
  | .create path flags heap =>
    { k with fs := on_parent k.fs path fun dir leaf => ((vfs_create heap k.fs dir leaf flags).map Prod.snd).getD k.fs }
  | .symlink path target heap write =>
    { k with fs := on_parent k.fs path fun dir leaf => (vfs_symlink heap write k.fs dir leaf (cstr target)).2 }
  | .unlink path want_dir =>
    { k with fs := on_parent k.fs path fun dir leaf => (vfs_unlink k.fs dir leaf want_dir).2 }
  | .ref n => { fs := vfs_node_ref k.fs n, held := fun j => if j = n then k.held n + 1 else k.held j }
  | .unref n => { fs := vfs_node_unref k.fs n, held := fun j => if j = n then k.held n - 1 else k.held j }

/-- The calls in any order. -/
def calls : Machine State Act Unit := ⟨fun k a => (k.step a, ())⟩

end NovarisOS.Vfs32
