/-
NovarisOS.Socket.Rights — bytes and passed descriptors on a connected pair of
Unix sockets, `kernel/socket.c`.

One direction: what the sender's calls put into the receiver's queue, and what
the receiver's calls take out, and with how many free descriptors. The ring is
the list of its bytes. `rx_written` and `rx_read` have 32 bits and wrap; a
passed descriptor has the value of the first at the time it was sent.
-/
import NovarisOS.Socket.Inet

namespace NovarisOS.Socket.Rights

open Tcp (wrap32)

abbrev SOCK_BUF_SIZE : Nat := 16384
abbrev MAX_PASSED_FDS : Nat := 16
abbrev CMSGHDR_BYTES : Nat := 12

/-- `passed_fd_t`; `pos` is `at`. -/
structure Passed (τ : Type) where
  token : τ
  pos : Nat
  deriving DecidableEq

structure Queue (τ : Type) where
  buf : List UInt8
  rxWritten : Nat
  rxRead : Nat
  passed : List (Passed τ)
  deriving DecidableEq

namespace Queue

variable {τ : Type}

def qPut (q : Queue τ) (src : List UInt8) : Nat × Queue τ :=
  let n := min src.length (SOCK_BUF_SIZE - q.buf.length)
  (n, { q with buf := q.buf ++ src.take n, rxWritten := wrap32 (q.rxWritten + n) })

def qLimit (q : Queue τ) : Nat :=
  q.passed.foldl (fun limit p => if p.pos ≤ q.rxRead then limit else min limit (p.pos - q.rxRead)) q.buf.length

/-- `n` bytes are taken. -/
def advance (q : Queue τ) (n : Nat) : Queue τ :=
  { q with buf := q.buf.drop n, rxRead := wrap32 (q.rxRead + n) }

def qGet (q : Queue τ) (n : Nat) (peek : Bool) : List UInt8 × Queue τ :=
  let n := min n q.qLimit
  (q.buf.take n, if peek then q else q.advance n)

/-- The descriptors that the reader has come to. -/
def reached (q : Queue τ) : List (Passed τ) := q.passed.takeWhile (·.pos ≤ q.rxRead)

/-! ## Sending -/

/-- `socket_write` on the connected pair. -/
def socketWrite (q : Queue τ) (data : List UInt8) : Int × Queue τ :=
  if data = [] then (0, q)
  else
    let (n, q') := q.qPut data
    if n = 0 then (-EAGAIN, q') else (n, q')

def sendControl (q : Queue τ) : List (Option τ) → Int × Queue τ
  | [] => (0, q)
  | right :: rights =>
    if q.passed.length ≥ MAX_PASSED_FDS then (-EMSGSIZE, q)
    else
      match right with
      | none => (-EBADF, q)
      | some token => ({ q with passed := q.passed ++ [⟨token, q.rxWritten⟩] } : Queue τ).sendControl rights

/-- The loop of `do_sendmsg` over the vectors. -/
def sendVecs (q : Queue τ) (total : Nat) : List (List UInt8) → Int × Queue τ
  | [] => (total, q)
  | v :: vs =>
    if v = [] then q.sendVecs total vs
    else
      let (n, q') := q.socketWrite v
      if n < 0 then (if total ≠ 0 then total else n, q')
      else if n < v.length then (total + n, q')
      else q'.sendVecs (total + n.toNat) vs

def doSendmsg (q : Queue τ) (rights : List (Option τ)) (vecs : List (List UInt8)) : Int × Queue τ :=
  let (r, q) := q.sendControl rights
  if r < 0 then (r, q) else q.sendVecs 0 vecs

/-! ## Receiving -/

/-- `posix_fd_import` of one after the other. With no descriptor free it is
`-EMFILE`, and what was passed is lost. -/
def fdImport : Nat → List τ → List (Option τ)
  | _, [] => []
  | 0, _ :: tokens => none :: fdImport 0 tokens
  | free + 1, token :: tokens => some token :: fdImport free tokens

def recvControl (q : Queue τ) (room free : Nat) : List (Option τ) × Queue τ :=
  if q.passed = [] ∨ room < CMSGHDR_BYTES + 4 then ([], q)
  else
    let n := min q.reached.length ((room - CMSGHDR_BYTES) / 4)
    (fdImport free ((q.passed.take n).map (·.token)), { q with passed := q.passed.drop n })

/-- The loop of `do_recvmsg` over the vectors. -/
def recvVecs (q : Queue τ) (peek : Bool) (got : List UInt8) : List Nat → List UInt8 × Queue τ
  | [] => (got, q)
  | len :: lens =>
    if len = 0 then q.recvVecs peek got lens
    else if q.buf = [] then (got, q)
    else
      let (bytes, q') := q.qGet len peek
      if bytes.length < len then (got ++ bytes, q') else q'.recvVecs peek (got ++ bytes) lens

/-- `do_recvmsg`, with `room` bytes for control data and `free` descriptors in
the receiver's table. -/
def doRecvmsg (q : Queue τ) (room free : Nat) (lens : List Nat) (peek : Bool) :
    List UInt8 × List (Option τ) × Queue τ :=
  let (fdv, q) := q.recvControl room free
  let (bytes, q) := q.recvVecs peek [] lens
  (bytes, fdv, q)

def socketRead (q : Queue τ) (len : Nat) : List UInt8 × Queue τ :=
  if len = 0 ∨ q.buf = [] then ([], q)
  else ({ q with passed := q.passed.dropWhile (·.pos ≤ q.rxRead) } : Queue τ).qGet len false

end Queue

/-! ## Histories -/

/-- What a send has queued. -/
structure Message (τ : Type) where
  number : Nat
  code : Int
  start : Nat
  payload : List UInt8
  rights : List τ
  deriving DecidableEq

/-- What a receive has returned; `rights` are the descriptors that it has
installed. -/
structure Receipt (τ : Type) where
  recvmsg : Bool
  peek : Bool
  start : Nat
  bytes : List UInt8
  rights : List (Nat × τ)
  deriving DecidableEq

structure History (τ : Type) where
  queue : Queue (Nat × τ)
  messages : List (Message τ)
  receipts : List (Receipt τ)

inductive Call (τ : Type) where
  | sendmsg (rights : List (Option τ)) (vecs : List (List UInt8))
  | write (data : List UInt8)
  | recvmsg (room free : Nat) (lens : List Nat) (peek : Bool)
  | read (len : Nat)

namespace History

variable {τ : Type}

def init : History τ := ⟨⟨[], 0, 0, []⟩, [], []⟩

/-- All bytes that were queued. -/
def stream (h : History τ) : List UInt8 := h.messages.flatMap (·.payload)

/-- All bytes that were taken. -/
def taken (h : History τ) : List UInt8 := (h.receipts.filter (!·.peek)).flatMap (·.bytes)

/-- A send that returned `code` and left the queue as `q`. -/
def sent (h : History τ) (code : Int) (q : Queue (Nat × τ)) : History τ :=
  { h with
    queue := q
    messages := h.messages ++
      [⟨h.messages.length, code, h.stream.length, q.buf.drop h.queue.buf.length,
        (q.passed.drop h.queue.passed.length).map (·.token.2)⟩] }

/-- A receive that left the queue as `q`. -/
def received (h : History τ) (recvmsg peek : Bool) (bytes : List UInt8)
    (rights : List (Nat × τ)) (q : Queue (Nat × τ)) : History τ :=
  { h with queue := q, receipts := h.receipts ++ [⟨recvmsg, peek, h.taken.length, bytes, rights⟩] }

def step (h : History τ) : Call τ → History τ
  | .sendmsg rights vecs =>
    let (code, q) := h.queue.doSendmsg (rights.map fun right => right.map (h.messages.length, ·)) vecs
    h.sent code q
  | .write data =>
    let (code, q) := h.queue.socketWrite data
    h.sent code q
  | .recvmsg room free lens peek =>
    let (bytes, fdv, q) := h.queue.doRecvmsg room free lens peek
    h.received true peek bytes (fdv.filterMap id) q
  | .read len =>
    let (bytes, q) := h.queue.socketRead len
    h.received false false bytes [] q

end History

def machine (τ : Type) : Machine (History τ) (Call τ) Unit := ⟨fun h c => (h.step c, ())⟩

end NovarisOS.Socket.Rights
