/-
NovarisOS.Http.Get — a download, `kernel/http.c`, from where the request has
been sent.

The connection is what of the server's stream has not been read, and how much
of it has arrived at each coming `tcp_recv`; when nothing more is said of
that, everything has. The server closes at the end, so `tcp_eof` is that
nothing is left.
-/
import NovarisOS.Vfs.Basic

namespace NovarisOS.Http

abbrev HTTP_OK : Int := 0
abbrev HTTP_ERR_HEADERS : Int := -5
abbrev HTTP_ERR_TIMEOUT : Int := -6

/-- `sizeof(head)` and `sizeof(chunk)`. -/
abbrev HEAD_BYTES : Nat := 2048
abbrev CHUNK_BYTES : Nat := 512

abbrev CR : UInt8 := 13
abbrev LF : UInt8 := 10
abbrev SPACE : UInt8 := 32

/-! ## Headers -/

def isDigit (b : UInt8) : Bool := 48 ≤ b && b ≤ 57

/-- The number at the beginning. -/
def number (value : Nat) : Bytes → Nat
  | [] => value
  | b :: rest => if isDigit b then number (u32 (value * 10 + (b.toNat - 48))) rest else value

/-- The status, behind the first blank from the sixth byte on. -/
def statusOf (buf : Bytes) : Nat :=
  number 0 (((buf.drop 5).dropWhile (· ≠ SPACE)).dropWhile (· = SPACE))

/-- The first CRLFCRLF. -/
def findBreak : Bytes → Option Nat
  | [] => none
  | b :: rest =>
    if b = CR ∧ rest.take 3 = [LF, CR, LF] then some 0 else (findBreak rest).map (· + 1)

def toLower (b : UInt8) : UInt8 := if 65 ≤ b ∧ b ≤ 90 then b + 32 else b

/-- "content-length:" -/
def lengthKey : Bytes := [99, 111, 110, 116, 101, 110, 116, 45, 108, 101, 110, 103, 116, 104, 58]

/-- The Content-Length of the block before the break, 0 if there is none. -/
def lengthOf : Bytes → Nat
  | [] => 0
  | b :: rest =>
    if 15 < (b :: rest).length ∧ ((b :: rest).take 15).map toLower = lengthKey then
      number 0 (((b :: rest).drop 15).dropWhile (· = SPACE))
    else lengthOf rest

/-- "HTTP/" -/
def magic : Bytes := [72, 84, 84, 80, 47]

/-- `split_headers`: where the body begins, or 0; the status; the length. -/
def splitHeaders (buf : Bytes) : Nat × Nat × Nat :=
  if buf.length < 12 ∨ buf.take 5 ≠ magic then (0, 0, 0)
  else
    match findBreak buf with
    | some i => (i + 4, statusOf buf, lengthOf (buf.take i))
    | none => (0, statusOf buf, 0)

/-! ## Reading -/

structure Wire where
  stream : Bytes
  arrivals : List Nat

/-- `tcp_recv`. -/
def Wire.recv (w : Wire) (max : Nat) : Bytes × Wire :=
  match w.arrivals with
  | [] => (w.stream.take max, ⟨w.stream.drop max, []⟩)
  | n :: arrivals => (w.stream.take (min n max), ⟨w.stream.drop (min n max), arrivals⟩)

/-- `tcp_eof`. -/
def Wire.eof (w : Wire) : Bool := w.stream = []

/-- How the loop over the headers ends. -/
inductive HeadEnd where
  | found (head : Bytes) (start status length : Nat) (w : Wire)
  | tooLong
  | closed (status : Nat)
  | running

/-- The loop over the headers. -/
def headLoop : Nat → Wire → Bytes → Nat → HeadEnd
  | 0, _, _, _ => .running
  | turns + 1, w, head, status =>
    let (chunk, w) := w.recv CHUNK_BYTES
    if chunk ≠ [] then
      let head := head ++ chunk.take (HEAD_BYTES - head.length)
      let (start, status, length) := splitHeaders head
      if start ≠ 0 then .found head start status length w
      else if HEAD_BYTES ≤ head.length then .tooLong
      else headLoop turns w head status
    else if w.eof then .closed status
    else headLoop turns w head status

/-- The loop over the body: what is stored, and whether the buffer was too
small. A full buffer takes nothing more, so nothing but the end of the
connection or the clock ends the loop then. -/
def bodyLoop (length bodyMax : Nat) : Nat → Wire → Bytes → Bool → Bytes × Bool
  | 0, _, body, truncated => (body, truncated)
  | turns + 1, w, body, truncated =>
    if length ≠ 0 ∧ length ≤ body.length then (body, truncated)
    else if bodyMax ≤ body.length then (body, truncated)
    else
      let (piece, w) := w.recv (bodyMax - body.length)
      if piece ≠ [] then
        let body := body ++ piece
        if bodyMax ≤ body.length then (body, true) else bodyLoop length bodyMax turns w body truncated
      else if w.eof then (body, truncated)
      else bodyLoop length bodyMax turns w body truncated

/-- The return code and what `http_result_t` and the buffer hold. -/
structure Reply where
  code : Int
  status : Nat
  contentLength : Nat
  body : Bytes
  truncated : Bool

/-- Turns that are enough for both loops. -/
def Wire.turns (w : Wire) : Nat := w.arrivals.length + w.stream.length + 1

/-- What follows the loop over the headers. -/
def afterHeaders (bodyMax : Nat) : HeadEnd → Reply
  | .found head start status length w =>
    let extra := head.drop start
    let (body, truncated) := bodyLoop length bodyMax w.turns w (extra.take bodyMax) (bodyMax < extra.length)
    ⟨HTTP_OK, status, length, body, truncated⟩
  | .tooLong => ⟨HTTP_ERR_HEADERS, 0, 0, [], false⟩
  | .closed status => ⟨if status ≠ 0 then HTTP_ERR_HEADERS else HTTP_ERR_TIMEOUT, 0, 0, [], false⟩
  | .running => ⟨HTTP_ERR_TIMEOUT, 0, 0, [], false⟩

/-- `http_get_progress`, from where the request has been sent. -/
def httpGet (stream : Bytes) (bodyMax : Nat) (arrivals : List Nat) : Reply :=
  afterHeaders bodyMax (headLoop (Wire.turns ⟨stream, arrivals⟩) ⟨stream, arrivals⟩ [] 0)

end NovarisOS.Http
