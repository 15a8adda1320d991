/-
NovarisOS.Dns.Resolve — names, replies and the cache of `kernel/dns.c`.

A name is its bytes without the terminator. What is read of a reply is read
under a check that it lies inside (`Checked`), and the loops over it count
down what the source counts up. What is sent is left out but for its name,
and of the network a call sees when it began, whether there is a server and a
free port, the datagrams it receives before its time is up, and when it files
the answer.
-/
import NovarisOS.Lib.Checked
import NovarisOS.Net.Address

namespace NovarisOS.Dns

open Wire Checked
open Net (netParseIp DOT)

abbrev DNS_TYPE_A : Nat := 1
abbrev DNS_CACHE : Nat := 4

/-- `sizeof(dns_header_t)`, the room for a name in a query of 512 bytes, and
what the name field of an entry holds without its terminator. -/
abbrev HEADER_BYTES : Nat := 12
abbrev NAME_ROOM : Nat := 496
abbrev NAME_BYTES : Nat := 63

/-! ## Names -/

/-- One label after the other; what is written, and whether all was. Each
takes a byte of the name at least. -/
def encodeLabels (max : Nat) : Nat → Bytes → Bytes → Bytes × Bool
  | 0, _, out => (out, false)
  | fuel + 1, name, out =>
    if name = [] then
      if max < out.length + 1 then (out, false) else (out ++ [0], true)
    else
      let label := name.takeWhile (· ≠ DOT)
      if label.length = 0 ∨ 63 < label.length then (out, false)
      else if max ≤ out.length + label.length + 1 then (out, false)
      else
        let rest := name.drop label.length
        encodeLabels max fuel (if rest.head? = some DOT then rest.tail else rest)
          (out ++ UInt8.ofNat label.length :: label)

def encodeName (name : Bytes) (max : Nat) : Bytes × Bool := encodeLabels max (name.length + 1) name []

/-- One byte of a name that is stepped over: where the name ends, or where
its next label begins. -/
def nameByte (msg : Bytes) (off : Nat) : Except Stop (Nat ⊕ Nat) :=
  if off < msg.length then do
    let b ← byteAt msg off
    if b &&& 0xC0 = 0xC0 then .ok (.inl (if off + 2 ≤ msg.length then off + 2 else msg.length))
    else if b = 0 then .ok (.inl (off + 1))
    else .ok (.inr (off + 1 + b))
  else .ok (.inl msg.length)

/-- `skip_name`, with the jumps that are left. -/
def skipName (msg : Bytes) : Nat → Nat → Except Stop Nat
  | 0, off => do
    let step ← nameByte msg off
    match step with
    | .inl p => .ok p
    | .inr _ => .ok msg.length
  | left + 1, off => do
    let step ← nameByte msg off
    match step with
    | .inl p => .ok p
    | .inr off => skipName msg left off

/-! ## Replies -/

/-- The loop over the questions. -/
def skipQuestions (msg : Bytes) : Nat → Nat → Except Stop Nat
  | 0, p => .ok p
  | questions + 1, p =>
    if p < msg.length then do
      let p ← skipName msg 128 p
      skipQuestions msg questions (p + 4)
    else .ok p

/-- The loop over the answers: the first address. -/
def findAddress (msg : Bytes) : Nat → Nat → Except Stop (Option Nat)
  | 0, _ => .ok none
  | answers + 1, p =>
    if p + 10 ≤ msg.length then do
      let p ← skipName msg 128 p
      if p + 10 > msg.length then .ok none
      else do
        let type ← wordAt msg p
        let rdlen ← wordAt msg (p + 8)
        if p + 10 + rdlen > msg.length then .ok none
        else if type = DNS_TYPE_A ∧ rdlen = 4 then do
          let ip ← dwordAt msg (p + 10)
          .ok (some ip)
        else findAddress msg answers (p + 10 + rdlen)
    else .ok none

/-- A datagram that may be the reply: nothing if it is passed over, and else
what it ends the wait with. -/
def readReply (id : Nat) (msg : Bytes) : Except Stop (Option (Option Nat)) :=
  if msg.length < HEADER_BYTES then .ok none
  else do
    let replyId ← wordAt msg 0
    if replyId ≠ id then .ok none
    else do
      let flags ← wordAt msg 2
      if flags &&& 0x000F ≠ 0 then .ok (some none)
      else do
        let questions ← wordAt msg 4
        let answers ← wordAt msg 6
        let p ← skipQuestions msg questions HEADER_BYTES
        let found ← findAddress msg answers p
        .ok (some found)

/-- The loop that waits. -/
def awaitReply (id : Nat) : List Bytes → Except Stop (Option Nat)
  | [] => .ok none
  | msg :: replies => do
    let r ← readReply id msg
    match r with
    | none => awaitReply id replies
    | some found => .ok found

/-! ## The cache -/

/-- `dns_entry_t`. -/
structure Entry where
  name : Bytes
  ip : Nat
  stamp : Nat
  valid : Bool

abbrev Cache := Nat → Entry

def Cache.empty : Cache := fun _ => ⟨[], 0, 0, false⟩

/-- The entry that the name is found in. -/
def Cache.find (c : Cache) (name : Bytes) : Option Nat :=
  (List.range DNS_CACHE).find? fun i => (c i).valid && (c i).name = name

/-- The slot that goes out: the first that is not valid, behind the first
slot, or else the oldest. -/
def Cache.oldest (c : Cache) (slot : Nat) : List Nat → Nat
  | [] => slot
  | i :: rest => if !(c i).valid then i else c.oldest (if (c i).stamp < (c slot).stamp then i else slot) rest

/-- The answer of a name is filed, under as much of it as the field holds. -/
def Cache.file (c : Cache) (name : Bytes) (ip stamp : Nat) : Cache :=
  Function.update c (c.oldest 0 [1, 2, 3]) ⟨name.take NAME_BYTES, ip, stamp, true⟩

/-- What a call sees of the network. -/
structure View where
  now : Nat
  server : Nat
  bound : Bool
  replies : List Bytes
  filed : Nat

/-- The address, and where it is from. -/
inductive Answer where
  | typed (ip : Nat)
  | cached (ip : Nat)
  | replied (ip : Nat)
  | failed
  deriving DecidableEq

def dnsResolve (c : Cache) (v : View) (name : Bytes) : Except Stop (Answer × Cache) :=
  match netParseIp name with
  | some ip => .ok (.typed ip, c)
  | none =>
    match c.find name with
    | some i => .ok (.cached (c i).ip, c)
    | none =>
      if v.server = 0 then .ok (.failed, c)
      else if !(encodeName name NAME_ROOM).2 then .ok (.failed, c)
      else if !v.bound then .ok (.failed, c)
      else do
        let found ← awaitReply (0x4E00 + v.now % 256) v.replies
        match found with
        | none => .ok (.failed, c)
        | some ip => .ok (.replied ip, c.file name ip v.filed)

end NovarisOS.Dns
