/-
NovarisOS.Dhcp.Client — the DHCP client, `kernel/dhcp.c`, from the wire to
the configuration.

`mask`, `gw`, `dns` and `server` are variables of `dhcp_configure` that every
call of `parse` writes into, so they are passed along. What arrives is a list
of events: a datagram for port 68 with the address it came from, or the end of
a wait.
-/
import NovarisOS.Lib.Wire

namespace NovarisOS.Dhcp

open Wire

abbrev BOOTREPLY : Nat := 2
abbrev DHCP_OFFER : Nat := 2
abbrev DHCP_ACK : Nat := 5
abbrev DHCP_MAGIC : Nat := 0x63825363

abbrev OPT_SUBNET_MASK : Nat := 1
abbrev OPT_ROUTER : Nat := 3
abbrev OPT_DNS : Nat := 6
abbrev OPT_MESSAGE_TYPE : Nat := 53
abbrev OPT_SERVER_ID : Nat := 54
abbrev OPT_END : Nat := 255

/-- `sizeof(dhcp_message_t) - sizeof(m->options)`, and the options. -/
abbrev HEADER_BYTES : Nat := 240
abbrev OPTIONS_BYTES : Nat := 312

def yiaddr (m : Bytes) : Nat := be32 m 16

/-! ## Options -/

/-- The options of a message in order, each with its code. The walk ends at
`OPT_END`, at the end, and at an option that is longer than what is left. -/
def walk : Nat → Bytes → List (Nat × Bytes)
  | 0, _ => []
  | _ + 1, [] => []
  | fuel + 1, code :: rest =>
    if code.toNat = OPT_END then []
    else if code.toNat = 0 then walk fuel rest
    else
      match rest with
      | [] => []
      | olen :: rest =>
        if rest.length < olen.toNat then []
        else (code.toNat, rest.take olen.toNat) :: walk fuel (rest.drop olen.toNat)

/-- The options within the bytes that arrived. Each step of the walk takes a
byte at least. -/
def options (m : Bytes) : List (Nat × Bytes) :=
  let field := (m.drop HEADER_BYTES).take OPTIONS_BYTES
  walk field.length field

/-- The variables that `parse` writes. -/
structure Vars where
  type : Nat
  mask : Nat
  gw : Nat
  dns : Nat
  server : Nat

/-- One option. -/
def Vars.set (v : Vars) (option : Nat × Bytes) : Vars :=
  let (code, value) := option
  if code = OPT_MESSAGE_TYPE then (if 1 ≤ value.length then { v with type := be8 value 0 } else v)
  else if code = OPT_SUBNET_MASK then (if 4 ≤ value.length then { v with mask := be32 value 0 } else v)
  else if code = OPT_ROUTER then (if 4 ≤ value.length then { v with gw := be32 value 0 } else v)
  else if code = OPT_DNS then (if 4 ≤ value.length then { v with dns := be32 value 0 } else v)
  else if code = OPT_SERVER_ID then (if 4 ≤ value.length then { v with server := be32 value 0 } else v)
  else v

/-- The message is a reply to this transaction. -/
def isReply (xid : Nat) (m : Bytes) : Bool :=
  HEADER_BYTES + 4 ≤ m.length && be8 m 0 = BOOTREPLY && be32 m 236 = DHCP_MAGIC && be32 m 4 = xid

def parse (xid : Nat) (m : Bytes) (v : Vars) : Bool × Vars :=
  if !isReply xid m then (false, v)
  else
    let v := (options m).foldl Vars.set { v with type := 0 }
    (v.type ≠ 0, v)

/-! ## Waiting -/

inductive Event where
  | datagram (srcIp : Nat) (data : Bytes)
  | deadline

/-- A message that was heard, with the address it came from. -/
structure Message where
  srcIp : Nat
  data : Bytes

/-- The variables, and what was heard so far. -/
structure Client where
  vars : Vars
  heard : List Message

def waitFor (xid want : Nat) (c : Client) : List Event → Option Message × Client × List Event
  | [] => (none, c, [])
  | .deadline :: events => (none, c, events)
  | .datagram srcIp data :: events =>
    let (ok, vars) := parse xid data { c.vars with type := 0 }
    let c := ⟨vars, c.heard ++ [⟨srcIp, data⟩]⟩
    if !ok then waitFor xid want c events
    else if vars.type ≠ want then waitFor xid want c events
    else (some ⟨srcIp, data⟩, c, events)

/-! ## Configuring -/

/-- What is installed, and what it was taken from. -/
structure Lease where
  ip : Nat
  mask : Nat
  gw : Nat
  dns : Nat
  offer : Message
  ack : Message
  /-- Everything that was heard before the ACK. -/
  before : List Message

/-- A mask that nobody gave is a /24. -/
def defaultMask (mask : Nat) : Nat := if mask = 0 then 0xFFFFFF00 else mask

/-- The attempts that are left. -/
def attempts (xid : Nat) : Nat → Client → List Event → Option Lease
  | 0, _, _ => none
  | n + 1, c, events =>
    match waitFor xid DHCP_OFFER c events with
    | (none, c, events) => attempts xid n c events
    | (some offer, c, events) =>
      if yiaddr offer.data = 0 then attempts xid n c events
      else
        match waitFor xid DHCP_ACK c events with
        | (none, c, events) => attempts xid n c events
        | (some ack, c, events) =>
          if yiaddr ack.data = 0 then attempts xid n c events
          else
            some { ip := yiaddr ack.data, mask := defaultMask c.vars.mask, gw := c.vars.gw, dns := c.vars.dns
                   offer := offer, ack := ack, before := c.heard.dropLast }

/-- `dhcp_configure`, once the port is bound. -/
def dhcpConfigure (xid : Nat) (events : List Event) : Option Lease :=
  attempts xid 3 ⟨⟨0, 0, 0, 0, 0⟩, []⟩ events

end NovarisOS.Dhcp
