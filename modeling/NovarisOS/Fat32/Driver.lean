/-
NovarisOS.Fat32.Driver — the nodes of a mounted volume, and the calls that
make them: `populate` and `fat_create`.

A node is a number. The pool of `kernel/ramfs.c` hands numbers out and takes
them back; what `kmalloc` answers when the pool grows is in `grants`. The
list a directory's children are chained in is the list `children` of it.
-/
import NovarisOS.Fat32.Dir

namespace NovarisOS.Fat32

abbrev VFS_NODES_PER_BLOCK : Nat := 128
abbrev VFS_MAX_BLOCKS : Nat := 64

structure State where
  nodes : Nat → Node
  freeList : List Nat
  blocks : Nat
  grants : List Bool
  root : Nat
  fs : Fs

/-! ## `kernel/ramfs.c`: the nodes -/

/-- A node after `kmemset`. -/
def blank : Node where
  name := []
  kind := .file
  length := 0
  data := none
  capacity := 0
  inUse := false
  refs := 0
  unlinked := false
  fsCluster := 0
  fsDirentLba := 0
  fsDirentOff := 0
  fsSlots := 0
  populated := false
  fsDirty := false
  children := []

def State.set (s : State) (n : Nat) (node : Node) : State :=
  { s with nodes := Function.update s.nodes n node }

def State.onDisk (s : State) (fs : Fs) : State := { s with fs := fs }

/-- `grow_pool`. The last node of the new block is the first to go. -/
def growPool (s : State) : Bool × State :=
  if s.blocks ≥ VFS_MAX_BLOCKS then (false, s)
  else
    match s.grants with
    | [] => (false, s)
    | false :: grants => (false, { s with grants := grants })
    | true :: grants =>
      (true, { s with
        grants := grants
        blocks := s.blocks + 1
        freeList := ((List.range VFS_NODES_PER_BLOCK).map
          (s.blocks * VFS_NODES_PER_BLOCK + ·)).reverse ++ s.freeList })

def nodeAlloc (s : State) : Option Nat × State :=
  match if s.freeList = [] then growPool s else (true, s) with
  | (false, s) => (none, s)
  | (true, s) =>
    match s.freeList with
    | [] => (none, s)
    | n :: rest => (some n, { s with freeList := rest }.set n { blank with inUse := true })

def nodeRelease (n : Nat) (s : State) : State :=
  if (s.nodes n).inUse then { s.set n blank with freeList := n :: s.freeList } else s

def dirAppend (dir child : Nat) (s : State) : State :=
  s.set dir { s.nodes dir with children := (s.nodes dir).children ++ [child] }

def dirRemove (dir child : Nat) (s : State) : State :=
  s.set dir { s.nodes dir with children := (s.nodes dir).children.erase child }

/-! ## Reading a directory -/

/-- The node `populate` makes of an entry. -/
def entryNode (e : DirEntry) (kind : Kind) (size : Nat) (pos : Pos) : Node :=
  { blank with
    inUse := true
    name := e.name
    kind := kind
    length := size
    fsCluster := e.cluster
    fsDirentLba := pos.lba
    fsDirentOff := pos.off
    fsSlots := e.slots }

/-- The loop of `populate`, from slot `i` on. -/
def populateFrom (v : Vol) (dir : Nat) : Nat → Nat → Lfn → State → State
  | 0, _, _, s => s
  | left + 1, i, lfn, s =>
      match dirEntryAt v (s.nodes dir).fsCluster i s.fs with
      | (none, fs) => s.onDisk fs
      | (some (ent, pos), fs) =>
        if ent 0 = ENTRY_END then s.onDisk fs
        else
          match entryStep lfn ent with
          | (lfn, none) => populateFrom v dir left (i + 1) lfn (s.onDisk fs)
          | (lfn, some e) =>
            match entryKind v e fs with
            | (kind, size, fs) =>
              match nodeAlloc (s.onDisk fs) with
              | (none, s) => s
              | (some n, s) =>
                populateFrom v dir left (i + 1) lfn
                  (dirAppend dir n (s.set n (entryNode e kind size pos)))

def populate (v : Vol) (dir : Nat) (s : State) : State :=
  if (s.nodes dir).populated then s
  else
    populateFrom v dir v.slotRounds 0 ⟨fun _ => 0, 0, 0, 0⟩
      (s.set dir { s.nodes dir with populated := true })

/-! ## Creating -/

/-- The two entries of a new directory. -/
def writeDots (v : Vol) (cluster up : Nat) (fs : Fs) : Fs :=
  let t := v.clock fs.ticks
  let fs := { fs with ticks := fs.ticks + 1 }
  let fs := (putSlot v cluster 0 (dotEntry [DOT] cluster (fdate t) (ftime t)) fs).2
  (putSlot v cluster 1 (dotEntry [DOT, DOT] up (fdate t) (ftime t)) fs).2

/-- The attribute byte of a kind. -/
def attrOf : Kind → UInt8
  | .directory => ATTR_DIRECTORY
  | .symlink => ATTR_SYSTEM + ATTR_ARCHIVE
  | _ => ATTR_ARCHIVE

/-- The cluster of a new directory: nothing when there is none. -/
def newCluster (v : Vol) (kind : Kind) (fs : Fs) : Option Nat × Fs :=
  if kind = .directory then
    match allocCluster v 0 fs with
    | (cluster, fs) =>
      if cluster = 0 then (none, fs)
      else
        match zeroCluster v cluster fs with
        | (false, fs) => (none, freeChain v cluster fs)
        | (true, fs) => (some cluster, fs)
  else (some 0, fs)

/-- What is undone when a new entry gets no node. -/
def dropCluster (v : Vol) (cluster : Nat) (fs : Fs) : Fs :=
  if cluster ≠ 0 then freeChain v cluster fs else fs

def createdNode (name : List UInt8) (kind : Kind) (cluster lfnCount : Nat) (pos : Pos) : Node :=
  { blank with
    inUse := true
    name := name
    kind := kind
    fsCluster := cluster
    fsDirentLba := pos.lba
    fsDirentOff := pos.off
    fsSlots := lfnCount + 1
    populated := decide (kind = .directory) }

/-- What `fat_create` does with the node in place. -/
def finishCreate (v : Vol) (dir n : Nat) (kind : Kind) (s : State) : Option Nat × State :=
  match kind with
  | .directory =>
      let up := if dir = s.root then 0 else (s.nodes dir).fsCluster
      (some n, s.onDisk (fatCacheFlush v (writeDots v (s.nodes n).fsCluster up s.fs)).2)
  | .symlink =>
      match fatWriteRaw v (s.nodes n) 0 SYMLINK_MAGIC_LEN (fun i => SYMLINK_MAGIC.getD i 0) s.fs with
      | (.error _, node, fs) => (none, nodeRelease n (dirRemove dir n ((s.set n node).onDisk fs)))
      | (.ok _, node, fs) =>
        match direntUpdate v node fs with
        | (_, node, fs) => (some n, (s.set n node).onDisk (fatCacheFlush v fs).2)
  | _ => (some n, s.onDisk (fatCacheFlush v s.fs).2)

def fatCreate (v : Vol) (dir : Nat) (name : List UInt8) (kind : Kind) (s : State) :
    Option Nat × State :=
  if name.length ≥ VFS_NAME_MAX then (none, s)
  else
    let s := populate v dir s
    match chooseShort v (s.nodes dir).fsCluster name s.fs with
    | (none, fs) => (none, s.onDisk fs)
    | (some (short11, ntflags, lfnCount), fs) =>
      match dirFindSlots v (s.nodes dir) (lfnCount + 1) fs with
      | (none, node, fs) => (none, (s.set dir node).onDisk fs)
      | (some slot, node, fs) =>
        let s := s.set dir node
        match newCluster v kind fs with
        | (none, fs) => (none, s.onDisk fs)
        | (some cluster, fs) =>
          match dirWriteEntries v node.fsCluster slot name short11 ntflags (attrOf kind) cluster 0
            lfnCount fs with
          | (none, fs) => (none, s.onDisk (dropCluster v cluster fs))
          | (some pos, fs) =>
            match nodeAlloc (s.onDisk fs) with
            | (none, s) => (none, s.onDisk (dropCluster v cluster s.fs))
            | (some n, s) =>
              finishCreate v dir n kind
                (dirAppend dir n (s.set n (createdNode name kind cluster lfnCount pos)))

end NovarisOS.Fat32
