/-
NovarisOS.Ramfs.File — file contents in the 32-bit in-memory filesystem,
`kernel/ramfs.c`: where a file's bytes live and how they get there.

A file's storage is one of three things. A file of the initrd points INTO the
archive (`fromInitrd`) and owns nothing; the first call that needs room of its
own copies it out. An ordinary file is a heap block that `ensureCapacity`
doubles.
-/
import NovarisOS.Lib.ByteFile
import NovarisOS.Lib.Machine
import NovarisOS.Vfs.Basic

namespace NovarisOS.Ramfs

/-- The fields of `vfs_node_t` that hold a file's contents. -/
structure Node where
  kind : Kind
  length : Nat
  data : Option Mem
  capacity : Nat
  fromInitrd : Bool
  mappable : Bool

/-- The doubling loop of `ensure_capacity`. It gives up above `0x40000000`,
so the doubling never leaves 32 bits, and 33 rounds are more than it takes. -/
def growCap : Nat → Nat → Nat → Option Nat
  | 0, _, _ => none
  | fuel + 1, cap, want =>
      if cap < want then
        if cap > 0x40000000 then none else growCap fuel (cap * 2) want
      else some cap

/-- `ensure_capacity`: `none` is its 0, which leaves the node as it was. -/
def ensureCapacity (heap : Heap) (n : Node) (want : Nat) : Option Node :=
  if !n.fromInitrd && n.data.isSome && decide (want ≤ n.capacity) then some n
  else do
    let cap ← growCap 33 (if n.capacity = 0 then 64 else n.capacity) want
    let block ← kmalloc heap cap
    let keep := if n.length < want then n.length else want
    let buf := match n.data with
      | some d => block.mem.copyAt 0 d keep
      | none => block.mem
    let buf := buf.fillAt keep 0 (cap - keep)
    return { n with
      data := some buf
      mappable := false
      capacity := cap
      fromInitrd := false }

/-- `vfs_materialize`, with `none` for its 0. -/
def vfsMaterialize (heap : Heap) (n : Node) : Option Node :=
  if n.data.isSome then some n
  else ensureCapacity heap n (if n.length = 0 then 1 else n.length)

/-- The size `vfs_make_mappable` asks for: the larger of the request and the
file, at least a byte, rounded up to a page in 32 bits, and for a file this
heap owns and nobody has mapped yet, the growth reserve. -/
def mappableCap (n : Node) (bytes : Nat) (mayGrow : Bool) : Nat :=
  let bytes := if bytes < n.length then n.length else bytes
  let bytes := if bytes = 0 then 1 else bytes
  let cap := u32 (bytes + 4095) / 4096 * 4096
  if mayGrow && !n.mappable && !n.fromInitrd && decide (cap < VFS_MAPPING_RESERVE) then
    VFS_MAPPING_RESERVE
  else cap

/-- The page-aligned address inside a block: `(raw + 4095) & ~4095`. -/
def Block.aligned (b : Block) : Mem :=
  b.mem.shift ((b.addr + 4095) / 4096 * 4096 - b.addr)

/-- `vfs_make_mappable`, returning its answer and the node after it. A
refusal after the bytes were materialized keeps them materialized. -/
def vfsMakeMappable (heap : Heap) (n : Node) (bytes : Nat) (mayGrow : Bool) : Int × Node :=
  if n.kind = .directory then (0, n)
  else match vfsMaterialize heap n with
    | none => (0, n)
    | some n =>
      let cap := mappableCap n bytes mayGrow
      if n.mappable && decide (cap ≤ n.capacity) then (1, n)
      else match kmalloc heap (u32 (cap + 4096)) with
        | none => (0, n)
        | some raw =>
          let keep := if n.length < cap then n.length else cap
          let buf := match n.data with
            | some d => (Block.aligned raw).copyAt 0 d keep
            | none => Block.aligned raw
          let buf := buf.fillAt keep 0 (cap - keep)
          (1, { n with data := some buf, capacity := cap, mappable := true, fromInitrd := false })

def ramfsWrite (heap : Heap) (n : Node) (offset size : Nat) (buffer : Mem) : Int × Node :=
  let stop := u32 (offset + size)
  match ensureCapacity heap n stop with
  | none => (-ENOSPC, n)
  | some n =>
    let data := n.data.map fun d => d.copyAt offset buffer size
    let length := if stop > n.length then stop else n.length
    (int32 size, { n with data := data, length := length })

/-- `vfs_write` on a ramfs node. -/
def vfsWrite (heap : Heap) (n : Node) (offset size : Nat) (buffer : Mem) : Int × Node :=
  if n.kind = .directory then (-EISDIR, n)
  else if size = 0 then (0, n)
  else if u32 (offset + size) < offset then (-EINVAL, n)
  else ramfsWrite heap n offset size buffer

def ramfsTruncate (heap : Heap) (n : Node) (length : Nat) : Int × Node :=
  if length > n.length then
    match ensureCapacity heap n length with
    | none => (-ENOSPC, n)
    | some n => (0, { n with length := length })
  else if n.fromInitrd then
    -- Detached even when it shrinks, or the next write would land in the archive.
    match ensureCapacity heap n (if length = 0 then 1 else length) with
    | none => (-ENOSPC, n)
    | some n => (0, { n with length := length })
  else
    let data := if length < n.length then
        n.data.map fun d => d.fillAt length 0 (n.length - length)
      else n.data
    (0, { n with data := data, length := length })

/-- `vfs_truncate` on a ramfs node. -/
def vfsTruncate (heap : Heap) (n : Node) (length : Nat) : Int × Node :=
  if n.kind = .directory then (-EISDIR, n) else ramfsTruncate heap n length

/-- `ramfs_read`: the count it returns and the bytes it copies out. The test
against the length is on the 32-bit sum. -/
def ramfsRead (n : Node) (offset size : Nat) : Nat × List UInt8 :=
  match n.data with
  | none => (0, [])
  | some d =>
    if offset ≥ n.length then (0, [])
    else
      let size := if u32 (offset + size) > n.length then n.length - offset else size
      (size, d.bytes offset size)

/-! ## The calls as a machine -/

inductive Op where
  | write (offset size : UInt32) (buffer : Mem)
  | truncate (length : UInt32)
  | makeMappable (bytes : UInt32) (mayGrow : Bool)
  | materialize
  | read (offset size : UInt32)

/-- One call, with the heap's answers while it runs. -/
structure Call where
  heap : Heap
  op : Op

inductive Out where
  | ret (r : Int)
  | bytes (n : Nat) (b : List UInt8)
  deriving DecidableEq

def call (n : Node) (c : Call) : Node × Out :=
  match c.op with
  | .write offset size buffer =>
      let r := vfsWrite c.heap n offset.toNat size.toNat buffer
      (r.2, .ret r.1)
  | .truncate length =>
      let r := vfsTruncate c.heap n length.toNat
      (r.2, .ret r.1)
  | .makeMappable bytes mayGrow =>
      let r := vfsMakeMappable c.heap n bytes.toNat mayGrow
      (r.2, .ret r.1)
  | .materialize =>
      match vfsMaterialize c.heap n with
      | none => (n, .ret 0)
      | some n => (n, .ret 1)
  | .read offset size =>
      let r := ramfsRead n offset.toNat size.toNat
      (n, .bytes r.1 r.2)

/-- The file calls of `kernel/ramfs.c` on one node. -/
def files : Machine Node Call Out := ⟨call⟩

/-- What the calls mean for the file: a write or a truncate that reported
success changes the bytes, nothing else does, and a read returns the slice
the file has there. -/
def contents : Spec (List UInt8) Call Out where
  next a c out :=
    match c.op, out with
    | .write offset size buffer, .ret r =>
        if r > 0 then ByteFile.write a offset.toNat (buffer.bytes 0 size.toNat) else a
    | .truncate length, .ret r => if r = 0 then ByteFile.resize a length.toNat else a
    | _, _ => a
  Allows a c out :=
    match c.op with
    | .read offset size =>
        out = .bytes (min size.toNat (a.length - offset.toNat))
          (ByteFile.read a offset.toNat size.toNat)
    | _ => True

instance (a : List UInt8) (c : Call) (out : Out) : Decidable (contents.Allows a c out) :=
  match c with
  | ⟨_, .read _ _⟩ => inferInstanceAs (Decidable (out = _))
  | ⟨_, .write _ _ _⟩ | ⟨_, .truncate _⟩ | ⟨_, .makeMappable _ _⟩ | ⟨_, .materialize⟩ =>
      inferInstanceAs (Decidable True)

end NovarisOS.Ramfs
