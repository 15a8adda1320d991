/-
NovarisOS.Pipe64.Pipe — a byte stream between two descriptors,
`kernel/pipe64.c`.

A pipe is a ring of `PIPE64_BUF` bytes with three counters: where the next
byte is read, where the next one is written, and how many there are. They
are redundant, and the copy loops advance two of them round the end of the
buffer. The descriptors in flight have nothing to do with the bytes and are
left out, and so is the table: the functions are those of one pipe, from
`pipe64_create` on.
-/
import NovarisOS.Lib.Machine
import NovarisOS.Lib.Mem

namespace NovarisOS.Pipe64

abbrev PIPE64_BUF : Nat := 65536

structure Pipe where
  buf : Mem
  /-- The next byte to read. -/
  head : Nat
  /-- The next byte to write. -/
  tail : Nat
  len : Nat
  readers : Nat
  writers : Nat
  used : Bool

/-- `pipe64_create`, with what the heap's memory happened to hold. -/
def create (buf : Mem) : Pipe := ⟨buf, 0, 0, 0, 0, 0, true⟩

namespace Pipe

/-- `pipe64_ref`. -/
def ref (q : Pipe) (reader writer : Bool) : Pipe :=
  if !q.used then q
  else
    { q with
      readers := if reader then q.readers + 1 else q.readers
      writers := if writer then q.writers + 1 else q.writers }

/-- `pipe64_unref`. -/
def unref (q : Pipe) (reader writer : Bool) : Pipe :=
  if !q.used then q
  else
    let q := { q with
      readers := if reader && q.readers > 0 then q.readers - 1 else q.readers
      writers := if writer && q.writers > 0 then q.writers - 1 else q.writers }
    if q.readers = 0 ∧ q.writers = 0 then { q with used := false, len := 0 } else q

/-- The loop of `pipe64_read`. `out` is what has been copied so far. -/
def readLoop (buf : Mem) (n : Nat) : Nat → Nat → List UInt8 → Nat × List UInt8
  | 0, head, out => (head, out)
  | fuel + 1, head, out =>
    if out.length < n then
      let run := PIPE64_BUF - head
      let run := if run > n - out.length then n - out.length else run
      readLoop buf n fuel ((head + run) % PIPE64_BUF) (out ++ buf.bytes head run)
    else (head, out)

/-- `pipe64_read`: what it returns, the bytes it copied out, and the pipe. -/
def read (q : Pipe) (n : Nat) : (Int × List UInt8) × Pipe :=
  if !q.used then ((-9, []), q)
  else if q.len = 0 then
    if q.writers = 0 then ((0, []), q) else ((-11, []), q)
  else
    let n := if n > q.len then q.len else n
    let (head, out) := readLoop q.buf n n q.head []
    ((out.length, out), { q with head := head, len := q.len - out.length })

/-- The loop of `pipe64_write`. -/
def writeLoop (data : Mem) (n : Nat) : Nat → Nat → Mem → Nat → Nat × Mem × Nat
  | 0, tail, buf, put => (tail, buf, put)
  | fuel + 1, tail, buf, put =>
    if put < n then
      let run := PIPE64_BUF - tail
      let run := if run > n - put then n - put else run
      writeLoop data n fuel ((tail + run) % PIPE64_BUF) (buf.copyAt tail (data.shift put) run) (put + run)
    else (tail, buf, put)

/-- `pipe64_write` of the `n` bytes at `data`. -/
def write (q : Pipe) (data : Mem) (n : Nat) : Int × Pipe :=
  if !q.used then (-9, q)
  else if q.readers = 0 then (-32, q)
  else
    let room := PIPE64_BUF - q.len
    if room = 0 then (-11, q)
    else
      let n := if n > room then room else n
      let (tail, buf, put) := writeLoop data n n q.tail q.buf 0
      (put, { q with tail := tail, buf := buf, len := q.len + put })

end Pipe

/-! ## Calls in any order -/

inductive Op where
  | write (data : Mem) (n : Nat)
  | read (n : Nat)
  | ref (reader writer : Bool)
  | unref (reader writer : Bool)

/-- The pipe, with the bytes its writes have accepted and those its reads
have returned. -/
structure Session where
  pipe : Pipe
  accepted : List UInt8
  returned : List UInt8

def Session.call (s : Session) : Op → Session × Int
  | .write data n =>
    let (r, q) := s.pipe.write data n
    (⟨q, s.accepted ++ data.bytes 0 r.toNat, s.returned⟩, r)
  | .read n =>
    let ((r, out), q) := s.pipe.read n
    (⟨q, s.accepted, s.returned ++ out⟩, r)
  | .ref reader writer => (⟨s.pipe.ref reader writer, s.accepted, s.returned⟩, 0)
  | .unref reader writer => (⟨s.pipe.unref reader writer, s.accepted, s.returned⟩, 0)

def sessions : Machine Session Op Int := ⟨Session.call⟩

def Session.start (buf : Mem) : Session := ⟨create buf, [], []⟩

end NovarisOS.Pipe64
