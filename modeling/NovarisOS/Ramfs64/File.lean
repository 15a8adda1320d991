/-
NovarisOS.Ramfs64.File — the node of the 64-bit in-memory filesystem and
the contents of its files, `kernel/ramfs64.c`.

A file's bytes are in one heap block (`data`, `capacity`) until something
wants them in page frames (`frames`): a write that passes
`RAMFS64_CONTIGUOUS_MAX`, a heap that refuses, or a shared mapping. From then
on the frames ARE the file and the heap block is gone.
-/
import NovarisOS.Lib.ByteFile
import NovarisOS.Lib.Machine
import NovarisOS.Page
import NovarisOS.Vfs.Basic

namespace NovarisOS.Ramfs64

abbrev RAMFS64_MAX_NODES : Nat := 4096
abbrev RAMFS64_NAME_MAX : Nat := 256
abbrev RAMFS64_PATH_MAX : Nat := 1024
abbrev RAMFS64_LINK_MAX : Nat := 40
abbrev RAMFS64_CONTIGUOUS_MAX : Nat := 33554432

/-- `node64_t`. `nframes` is the length of the `frames` list. -/
structure Node64 where
  name : List UInt8
  parent : Option Nat
  data : Option Mem
  size : Nat
  capacity : Nat
  isDir : Bool
  isLink : Bool
  mode : Nat
  frames : Option (List Mem)
  fcap : Nat
  openers : Nat
  unlinked : Bool
  device : Nat
  used : Bool
  firstChild : Option Nat
  nextSibling : Option Nat

/-- The allocators during one call: `heap n` is a block of `n` bytes,
`frame k` the page handed out for the file's `k`-th frame. -/
structure Env where
  heap : Nat → Option Mem
  frame : Nat → Option Mem

/-- `while (cap < want) cap *= 2;` — 64 doublings leave any 64-bit `want`
behind. -/
def growCap : Nat → Nat → Nat → Nat
  | 0, cap, _ => cap
  | fuel + 1, cap, want => if cap < want then growCap fuel (cap * 2) want else cap

/-! ## Frames -/

/-- `frame_copy` into the file. -/
def frameStore : Nat → List Mem → Nat → Mem → Nat → Nat → List Mem
  | 0, frames, _, _, _, _ => frames
  | fuel + 1, frames, off, buf, len, done =>
      if done < len then
        let page := (off + done) / PAGE64_SIZE
        let start := (off + done) % PAGE64_SIZE
        if page ≥ frames.length then frames
        else
          let run := if PAGE64_SIZE - start > len - done then len - done else PAGE64_SIZE - start
          frameStore fuel (frames.modify page fun p => p.copyAt start (buf.shift done) run)
            off buf len (done + run)
      else frames

/-- `frame_copy` out of the file: the caller's buffer afterwards. -/
def frameLoad : Nat → List Mem → Nat → Mem → Nat → Nat → Mem
  | 0, _, _, buf, _, _ => buf
  | fuel + 1, frames, off, buf, len, done =>
      if done < len then
        let page := (off + done) / PAGE64_SIZE
        let start := (off + done) % PAGE64_SIZE
        match frames[page]? with
        | none => buf
        | some p =>
          let run := if PAGE64_SIZE - start > len - done then len - done else PAGE64_SIZE - start
          frameLoad fuel frames off (buf.copyAt done (p.shift start) run) len (done + run)
      else buf

/-- The allocation loop of `make_framed`: `count` more frames, each cleared. -/
def addFrames (env : Env) : Nat → List Mem → Option (List Mem)
  | 0, frames => some frames
  | count + 1, frames => do
      let f ← env.frame frames.length
      addFrames env count (frames ++ [f.fillAt 0 0 PAGE64_SIZE])

/-- `make_framed`. The array grows before the frames are asked for, so a
refused frame leaves an array behind, with the frames it had. -/
def makeFramed (env : Env) (nd : Node64) (bytes : Nat) : Bool × Node64 :=
  let need := (bytes + PAGE64_SIZE - 1) / PAGE64_SIZE
  let need := if need = 0 then 1 else need
  let have_ := nd.frames.getD []
  if nd.frames.isSome && decide (need ≤ have_.length) then (true, nd)
  else
    let cap := growCap 64 (if nd.fcap = 0 then 16 else nd.fcap) need
    if need > nd.fcap && (env.heap (cap * 8)).isNone then (false, nd)
    else
      let nd := { nd with
        frames := if need > nd.fcap then some have_ else nd.frames
        fcap := if need > nd.fcap then cap else nd.fcap }
      match addFrames env (need - have_.length) have_ with
      | none => (false, nd)
      | some frames =>
        match nd.data with
        | none => (true, { nd with frames := some frames })
        | some d =>
          -- First time: move the contents in and let the heap copy go.
          (true, { nd with
            frames := some (frameStore nd.size frames 0 d nd.size 0)
            data := none
            capacity := 0 })

/-! ## The heap block -/

def ensureCapacity (env : Env) (nd : Node64) (want : Nat) : Bool × Node64 :=
  if want ≤ nd.capacity then (true, nd)
  else
    let cap := growCap 64 (if nd.capacity = 0 then 64 else nd.capacity) want
    match env.heap cap with
    | none => (false, nd)
    | some fresh =>
      let fresh := match nd.data with
        | some d => fresh.copyAt 0 d nd.size
        | none => fresh
      (true, { nd with data := some (fresh.fillAt nd.size 0 (cap - nd.size)), capacity := cap })

/-! ## The calls -/

/-- `ramfs64_read`: what it returns and the caller's buffer afterwards. -/
def ramfs64Read (nd : Node64) (offset : Nat) (buf : Mem) (len : Nat) : Int × Mem :=
  if nd.isDir then (-21, buf)
  else if offset ≥ nd.size then (0, buf)
  else
    let len := if offset + len > nd.size then nd.size - offset else len
    match nd.frames, nd.data with
    | some frames, _ => (len, frameLoad len frames offset buf len 0)
    | none, some d => (len, buf.copyAt 0 (d.shift offset) len)
    | none, none => (len, buf)

def ramfs64Write (env : Env) (nd : Node64) (offset : Nat) (buf : Mem) (len : Nat) : Int × Node64 :=
  if nd.isDir then (-21, nd)
  else
    let small := nd.frames.isNone && decide (offset + len ≤ RAMFS64_CONTIGUOUS_MAX)
    let r := ensureCapacity env nd (offset + len)
    if small && r.1 then
      let nd := { r.2 with data := r.2.data.map fun (d : Mem) => d.copyAt offset buf len }
      (len, { nd with size := if offset + len > nd.size then offset + len else nd.size })
    else
      -- Framed already, too big for one heap block, or the heap refused.
      let r := makeFramed env nd (offset + len)
      if r.1 then
        let nd := { r.2 with
          frames := r.2.frames.map fun fs => frameStore len fs offset buf len 0 }
        (len, { nd with size := if offset + len > nd.size then offset + len else nd.size })
      else (-12, r.2)

/-- `ramfs64_truncate`: the length goes, the storage stays. -/
def ramfs64Truncate (nd : Node64) : Int × Node64 := (0, { nd with size := 0 })

def ramfs64Resize (env : Env) (nd : Node64) (len : Nat) : Int × Node64 :=
  if nd.isDir then (-21, nd)
  else if len > nd.size then
    if nd.frames.isSome then
      let r := makeFramed env nd len
      if r.1 then (0, { r.2 with size := len }) else (-28, r.2)
    else
      let r := ensureCapacity env nd len
      if r.1 then
        (0, { r.2 with
          data := r.2.data.map fun (d : Mem) => d.fillAt r.2.size 0 (len - r.2.size)
          size := len })
      else (-28, r.2)
  else (0, { nd with size := len })

/-- `ramfs64_frames`: whether it gave an array, and the node after it. -/
def ramfs64Frames (env : Env) (nd : Node64) (bytes : Nat) : Bool × Node64 :=
  if nd.isDir then (false, nd)
  else makeFramed env nd (if bytes < nd.size then nd.size else bytes)

/-! ## The calls as a machine -/

inductive Op where
  | write (offset : UInt64) (buf : Mem) (len : UInt64)
  | truncate
  | resize (len : UInt64)
  | frames (bytes : UInt64)
  | read (offset : UInt64) (buf : Mem) (len : UInt64)

structure Call where
  env : Env
  op : Op

inductive Out where
  | ret (r : Int)
  | bytes (r : Int) (b : List UInt8)
  deriving DecidableEq

def call (nd : Node64) (c : Call) : Node64 × Out :=
  match c.op with
  | .write offset buf len =>
      let r := ramfs64Write c.env nd offset.toNat buf len.toNat
      (r.2, .ret r.1)
  | .truncate => ((ramfs64Truncate nd).2, .ret (ramfs64Truncate nd).1)
  | .resize len =>
      let r := ramfs64Resize c.env nd len.toNat
      (r.2, .ret r.1)
  | .frames bytes =>
      let r := ramfs64Frames c.env nd bytes.toNat
      (r.2, .ret (if r.1 then 1 else 0))
  | .read offset buf len =>
      let r := ramfs64Read nd offset.toNat buf len.toNat
      (nd, .bytes r.1 (r.2.bytes 0 r.1.toNat))

/-- The file calls of `kernel/ramfs64.c` on one valid node. -/
def files : Machine Node64 Call Out := ⟨call⟩

/-- What the calls mean for the file. -/
def contents : Spec (List UInt8) Call Out where
  next a c out :=
    match c.op, out with
    | .write offset buf len, .ret r =>
        if r < 0 then a else ByteFile.write a offset.toNat (buf.bytes 0 len.toNat)
    | .truncate, _ => []
    | .resize len, .ret r => if r = 0 then ByteFile.resize a len.toNat else a
    | _, _ => a
  Allows a c out :=
    match c.op with
    | .read offset _ len =>
        out = .bytes (min len.toNat (a.length - offset.toNat) : Nat)
          (ByteFile.read a offset.toNat len.toNat)
    | _ => True

instance (a : List UInt8) (c : Call) (out : Out) : Decidable (contents.Allows a c out) :=
  match c with
  | ⟨_, .read _ _ _⟩ => inferInstanceAs (Decidable (out = _))
  | ⟨_, .write _ _ _⟩ | ⟨_, .truncate⟩ | ⟨_, .resize _⟩ | ⟨_, .frames _⟩ =>
      inferInstanceAs (Decidable True)

end NovarisOS.Ramfs64
