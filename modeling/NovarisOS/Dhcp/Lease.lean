/-
NovarisOS.Dhcp.Lease — whose lease it is.

The mask, the router and the DNS server that are installed are the last ones
that any message of the transaction gave: `parse` writes the variables before
anyone asks what kind of message it is, and nothing clears them. So the lease
is one server's exactly when, for each of the three that the ACK leaves out,
what was heard last is what the answered OFFER of the same server said:
`Lease.Unmixed`.
-/
import NovarisOS.Dhcp.Client

namespace NovarisOS.Dhcp

open Wire

/-- The three options that are installed. -/
inductive Item where
  | mask
  | router
  | dns

namespace Item

def code : Item → Nat
  | .mask => OPT_SUBNET_MASK
  | .router => OPT_ROUTER
  | .dns => OPT_DNS

/-- What is installed for the value of a variable. -/
def finish : Item → Nat → Nat
  | .mask, value => defaultMask value
  | _, value => value

end Item

def Vars.get (v : Vars) : Item → Nat
  | .mask => v.mask
  | .router => v.gw
  | .dns => v.dns

def Lease.get (l : Lease) : Item → Nat
  | .mask => l.mask
  | .router => l.gw
  | .dns => l.dns

/-! ## What a message says -/

/-- What a list of options gives for the item: the last that is long enough. -/
def given (item : Item) : List (Nat × Bytes) → Option Nat
  | [] => none
  | o :: options => (given item options).or (if o.1 = item.code ∧ 4 ≤ o.2.length then some (be32 o.2 0) else none)

/-- What a message of the transaction gives for the item. -/
def tells (xid : Nat) (item : Item) (m : Message) : Option Nat :=
  if isReply xid m.data then given item (options m.data) else none

/-- The last that was heard. -/
def lastTold (xid : Nat) (item : Item) : List Message → Option Nat
  | [] => none
  | m :: heard => (lastTold xid item heard).or (tells xid item m)

/-- The kind of a message: the type it gives, 0 when it is no reply. -/
def kind (xid : Nat) (m : Message) : Nat := (parse xid m.data ⟨0, 0, 0, 0, 0⟩).2.type

def messages (events : List Event) : List Message :=
  events.filterMap fun
    | .datagram srcIp data => some ⟨srcIp, data⟩
    | .deadline => none

namespace Lease

/-- What the lease's own server said of the item: in the ACK, or else in the
OFFER if it is of the same server. -/
def own (l : Lease) (xid : Nat) (item : Item) : Option Nat :=
  (tells xid item l.ack).or (if l.offer.srcIp = l.ack.srcIp then tells xid item l.offer else none)

/-- The lease is one server's. -/
def SingleServer (l : Lease) (xid : Nat) : Prop :=
  l.ip = yiaddr l.ack.data ∧ ∀ item, l.get item = item.finish ((l.own xid item).getD 0)

/-- Of what the ACK leaves out, the last that was heard is what the OFFER of
its server said, or nothing if it said nothing. -/
def Unmixed (l : Lease) (xid : Nat) : Prop :=
  ∀ item : Item, tells xid item l.ack = none →
    item.finish ((lastTold xid item l.before).getD 0) = item.finish ((l.own xid item).getD 0)

instance (l : Lease) (xid : Nat) : Decidable (l.Unmixed xid) :=
  decidable_of_iff (∀ item ∈ [Item.mask, .router, .dns], tells xid item l.ack = none →
      item.finish ((lastTold xid item l.before).getD 0) = item.finish ((l.own xid item).getD 0)) (by
    refine ⟨fun h item => h item ?_, fun h item _ => h item⟩
    cases item <;> simp)

/-- The OFFER and the ACK are messages of their kind with an address, and all
that was heard before the ACK arrived before it. -/
structure Taken (l : Lease) (xid : Nat) (events : List Event) : Prop where
  arrived : l.before ++ [l.ack] <+: messages events
  offered : l.offer ∈ l.before
  offer : kind xid l.offer = DHCP_OFFER ∧ yiaddr l.offer.data ≠ 0
  ack : kind xid l.ack = DHCP_ACK ∧ yiaddr l.ack.data ≠ 0

end Lease

/-! ## Parsing -/

theorem get_set (v : Vars) (o : Nat × Bytes) (item : Item) :
    (v.set o).get item = if o.1 = item.code ∧ 4 ≤ o.2.length then be32 o.2 0 else v.get item := by
  obtain ⟨code, value⟩ := o
  simp only [Vars.set]
  by_cases htype : code = OPT_MESSAGE_TYPE
  · subst htype
    cases item <;> simp [Item.code, Vars.get] <;> split <;> rfl
  · rw [if_neg htype]
    by_cases hmask : code = OPT_SUBNET_MASK
    · subst hmask
      cases item <;> simp [Item.code, Vars.get] <;> split <;> rfl
    · rw [if_neg hmask]
      by_cases hgw : code = OPT_ROUTER
      · subst hgw
        cases item <;> simp [Item.code, Vars.get] <;> split <;> rfl
      · rw [if_neg hgw]
        by_cases hdns : code = OPT_DNS
        · subst hdns
          cases item <;> simp [Item.code, Vars.get] <;> split <;> rfl
        · rw [if_neg hdns]
          have hcode : ¬ (code = item.code ∧ 4 ≤ value.length) := by
            rintro ⟨hc, -⟩
            cases item with
            | mask => exact hmask hc
            | router => exact hgw hc
            | dns => exact hdns hc
          rw [if_neg hcode]
          by_cases hserver : code = OPT_SERVER_ID
          · rw [if_pos hserver]
            cases item <;> simp [Vars.get] <;> split <;> rfl
          · rw [if_neg hserver]

theorem get_foldl (item : Item) (options : List (Nat × Bytes)) : ∀ v : Vars,
    (options.foldl Vars.set v).get item = (given item options).getD (v.get item) := by
  induction options with
  | nil => exact fun _ => rfl
  | cons o options ih =>
    intro v
    rw [List.foldl_cons, ih, get_set, given]
    cases given item options with
    | some value => rfl
    | none =>
      rw [Option.none_or]
      split <;> rfl

theorem get_parse (xid : Nat) (m : Message) (v : Vars) (item : Item) :
    ((parse xid m.data v).2).get item = (tells xid item m).getD (v.get item) := by
  unfold parse tells
  cases isReply xid m.data with
  | false => rfl
  | true =>
    simp only [Bool.not_true, Bool.false_eq_true, if_false, if_true]
    rw [get_foldl]
    cases item <;> rfl

theorem type_set {v v' : Vars} (h : v.type = v'.type) (o : Nat × Bytes) : (v.set o).type = (v'.set o).type := by
  simp only [Vars.set]
  repeat' split
  all_goals first | exact h | rfl

theorem type_foldl (options : List (Nat × Bytes)) : ∀ {v v' : Vars}, v.type = v'.type →
    (options.foldl Vars.set v).type = (options.foldl Vars.set v').type := by
  induction options with
  | nil => exact fun h => h
  | cons o options ih => exact fun h => ih (type_set h o)

theorem type_parse (xid : Nat) (m : Message) (v : Vars) :
    ((parse xid m.data { v with type := 0 }).2).type = kind xid m := by
  unfold kind parse
  cases isReply xid m.data with
  | false => rfl
  | true => exact type_foldl _ rfl

theorem lastTold_append (xid : Nat) (item : Item) (heard : List Message) (m : Message) :
    lastTold xid item (heard ++ [m]) = (tells xid item m).or (lastTold xid item heard) := by
  induction heard with
  | nil =>
    simp [lastTold]
  | cons x heard ih =>
    rw [List.cons_append, lastTold, lastTold, ih, Option.or_assoc]

/-! ## Waiting -/

/-- The variables are what was heard last. -/
def Client.Told (xid : Nat) (c : Client) : Prop :=
  ∀ item, c.vars.get item = (lastTold xid item c.heard).getD 0

theorem Client.Told.hear {xid : Nat} {c : Client} (h : c.Told xid) (m : Message) :
    Client.Told xid ⟨(parse xid m.data { c.vars with type := 0 }).2, c.heard ++ [m]⟩ := by
  intro item
  show ((parse xid m.data { c.vars with type := 0 }).2).get item = _
  have hvars : ({ c.vars with type := 0 } : Vars).get item = c.vars.get item := by cases item <;> rfl
  rw [get_parse, lastTold_append, hvars, h item]
  cases tells xid item m <;> rfl

/-- What a wait does: it hears messages, and the last of them, if it returns
one, is of the kind that was wanted. -/
structure Waited (xid want : Nat) (c : Client) (events : List Event) (r : Option Message × Client × List Event) :
    Prop where
  told : c.Told xid → r.2.1.Told xid
  heard : ∃ new, r.2.1.heard = c.heard ++ new ∧ messages events = new ++ messages r.2.2
  answer : ∀ m ∈ r.1, kind xid m = want ∧ ∃ new, r.2.1.heard = c.heard ++ new ++ [m]

theorem waitFor_spec (xid want : Nat) (events : List Event) : ∀ c : Client,
    Waited xid want c events (waitFor xid want c events) := by
  induction events with
  | nil => exact fun c => ⟨id, ⟨[], by simp [waitFor], rfl⟩, nofun⟩
  | cons e events ih =>
    intro c
    cases e with
    | deadline => exact ⟨id, ⟨[], by simp [waitFor], rfl⟩, nofun⟩
    | datagram srcIp data =>
      have hkind := type_parse xid ⟨srcIp, data⟩ c.vars
      have htold := fun (h : c.Told xid) => h.hear ⟨srcIp, data⟩
      simp only [waitFor]
      generalize parse xid data { c.vars with type := 0 } = r at hkind htold ⊢
      obtain ⟨ok, vars⟩ := r
      -- a message that is not wanted is heard and the wait goes on
      have hmore : Waited xid want c (.datagram srcIp data :: events)
          (waitFor xid want ⟨vars, c.heard ++ [⟨srcIp, data⟩]⟩ events) := by
        obtain ⟨htold', ⟨new, hnew, hmessages⟩, hanswer⟩ := ih ⟨vars, c.heard ++ [⟨srcIp, data⟩]⟩
        refine ⟨fun h => htold' (htold h), ⟨⟨srcIp, data⟩ :: new, ?_, ?_⟩, fun m hm => ?_⟩
        · rw [hnew, List.append_assoc]
          rfl
        · show ⟨srcIp, data⟩ :: messages events = _
          rw [hmessages]
          rfl
        · obtain ⟨hk, new', hnew'⟩ := hanswer m hm
          refine ⟨hk, ⟨srcIp, data⟩ :: new', ?_⟩
          rw [hnew', List.append_assoc]
          simp
      split
      · exact hmore
      · split
        · exact hmore
        · rename_i htype
          have htype : vars.type = want := by simpa using htype
          refine ⟨htold, ⟨[⟨srcIp, data⟩], rfl, rfl⟩, fun m hm => ?_⟩
          cases hm
          exact ⟨hkind.symm.trans htype, [], by simp⟩

/-! ## Configuring -/

/-- What is known of a lease that was taken from a client and the events to
come. -/
structure Leased (xid : Nat) (c : Client) (events : List Event) (l : Lease) : Prop where
  ip : l.ip = yiaddr l.ack.data
  items : ∀ item : Item, l.get item = item.finish ((lastTold xid item (l.before ++ [l.ack])).getD 0)
  arrived : ∃ new rest, l.before = c.heard ++ new ∧ l.offer ∈ l.before ∧ messages events = new ++ [l.ack] ++ rest
  offer : kind xid l.offer = DHCP_OFFER ∧ yiaddr l.offer.data ≠ 0
  ack : kind xid l.ack = DHCP_ACK ∧ yiaddr l.ack.data ≠ 0

theorem Leased.after {xid want : Nat} {c : Client} {events : List Event}
    {r : Option Message × Client × List Event} (hw : Waited xid want c events r) {l : Lease}
    (h : Leased xid r.2.1 r.2.2 l) : Leased xid c events l := by
  obtain ⟨new, hnew, hmessages⟩ := hw.heard
  obtain ⟨new', rest, hbefore, hoffer, hrest⟩ := h.arrived
  refine ⟨h.ip, h.items, ⟨new ++ new', rest, ?_, hoffer, ?_⟩, h.offer, h.ack⟩
  · rw [hbefore, hnew, List.append_assoc]
  · rw [hmessages, hrest]
    simp

theorem attempts_spec (xid : Nat) (n : Nat) : ∀ (c : Client) (events : List Event) (l : Lease), c.Told xid →
    attempts xid n c events = some l → Leased xid c events l := by
  induction n with
  | zero => exact fun c events l _ h => nomatch h
  | succ n ih =>
    intro c events l htold h
    rw [attempts] at h
    have hoffer := waitFor_spec xid DHCP_OFFER events c
    generalize waitFor xid DHCP_OFFER c events = r at hoffer h
    obtain ⟨offer, c₁, events₁⟩ := r
    have htold₁ := hoffer.told htold
    cases offer with
    | none => exact Leased.after hoffer (ih c₁ events₁ l htold₁ h)
    | some offer =>
      simp only at h
      split at h
      · exact Leased.after hoffer (ih c₁ events₁ l htold₁ h)
      · rename_i hoffered
        have hack := waitFor_spec xid DHCP_ACK events₁ c₁
        generalize waitFor xid DHCP_ACK c₁ events₁ = r at hack h
        obtain ⟨ack, c₂, events₂⟩ := r
        have htold₂ := hack.told htold₁
        cases ack with
        | none => exact Leased.after hoffer (Leased.after hack (ih c₂ events₂ l htold₂ h))
        | some ack =>
          simp only at h
          split at h
          · exact Leased.after hoffer (Leased.after hack (ih c₂ events₂ l htold₂ h))
          · rename_i hacked
            cases h
            obtain ⟨hokind, onew, hoheard⟩ := hoffer.answer offer rfl
            obtain ⟨hakind, anew, haheard⟩ := hack.answer ack rfl
            obtain ⟨new, hnew, hmessages⟩ := hack.heard
            have hbefore : c₂.heard.dropLast = c₁.heard ++ anew := by
              rw [haheard, List.dropLast_concat]
            have hnew : new = anew ++ [ack] := by
              rw [haheard, List.append_assoc] at hnew
              exact (List.append_cancel_left hnew).symm
            refine Leased.after hoffer ⟨rfl, fun item => ?_, ⟨anew, messages events₂, hbefore, ?_, ?_⟩,
              ⟨hokind, hoffered⟩, ⟨hakind, hacked⟩⟩
            · have hheard : c₂.heard.dropLast ++ [ack] = c₂.heard := by rw [hbefore, haheard]
              show _ = item.finish ((lastTold xid item (c₂.heard.dropLast ++ [ack])).getD 0)
              rw [hheard, ← htold₂ item]
              cases item <;> rfl
            · show offer ∈ c₂.heard.dropLast
              rw [hbefore, hoheard]
              simp
            · rw [hmessages, hnew]

/-! ## One server -/

/-- **The lease is one server's exactly when nobody else was heard last.** -/
theorem lease_single_server_iff (xid : Nat) (events : List Event) (l : Lease)
    (h : dhcpConfigure xid events = some l) :
    l.Taken xid events ∧ (l.SingleServer xid ↔ l.Unmixed xid) := by
  have hleased := attempts_spec xid 3 ⟨⟨0, 0, 0, 0, 0⟩, []⟩ events l (fun item => (by cases item <;> rfl)) h
  obtain ⟨new, rest, hbefore, hoffer, hmessages⟩ := hleased.arrived
  refine ⟨⟨⟨rest, ?_⟩, hoffer, hleased.offer, hleased.ack⟩, ?_⟩
  · rw [hmessages, hbefore]
    rfl
  -- what the ACK tells is what was heard last, and what it leaves out is older
  have hitem : ∀ item : Item, l.get item = item.finish ((l.own xid item).getD 0) ↔
      (tells xid item l.ack = none →
        item.finish ((lastTold xid item l.before).getD 0) = item.finish ((l.own xid item).getD 0)) := by
    intro item
    rw [hleased.items, lastTold_append, Lease.own]
    cases tells xid item l.ack with
    | some value => simp
    | none => simp
  constructor
  · exact fun hsingle item => (hitem item).mp (hsingle.2 item)
  · exact fun hunmixed => ⟨hleased.ip, fun item => (hitem item).mpr (hunmixed item)⟩

/-- A reply with an address, a type and more options. -/
def reply (xid ip type : Nat) (more : Bytes) : Bytes :=
  let word (n : Nat) : Bytes := [(n / 0x1000000).toUInt8, (n / 0x10000).toUInt8, (n / 0x100).toUInt8, n.toUInt8]
  [2, 1, 6, 0] ++ word xid ++ List.replicate 8 0 ++ word ip ++ List.replicate 216 0 ++ word DHCP_MAGIC ++
    [53, 1, type.toUInt8] ++ more ++ [255]

/-- Two servers: 10.0.0.1 offers and acknowledges, with a router only in its
OFFER, and 10.0.0.2 offers another router in between. -/
def twoServers (last : List Event) : List Event :=
  [.datagram 0x0A000001 (reply 0x4E560000 0x0A000064 DHCP_OFFER [3, 4, 10, 0, 0, 1])] ++ last ++
    [.datagram 0x0A000001 (reply 0x4E560000 0x0A000064 DHCP_ACK [6, 4, 10, 0, 0, 1])]

set_option maxRecDepth 20000

theorem lease_single_server_alone :
    ∃ l, dhcpConfigure 0x4E560000 (twoServers []) = some l ∧ l.gw = 0x0A000001 ∧ l.SingleServer 0x4E560000 := by
  obtain ⟨l, hl⟩ := Option.isSome_iff_exists.mp
    (show (dhcpConfigure 0x4E560000 (twoServers [])).isSome by decide)
  have hall : (dhcpConfigure 0x4E560000 (twoServers [])).all
      (fun l => l.gw = 0x0A000001 ∧ l.Unmixed 0x4E560000) = true := by decide
  rw [hl] at hall
  simp only [Option.all_some, decide_eq_true_eq] at hall
  exact ⟨l, hl, hall.1, (lease_single_server_iff _ _ l hl).2.mpr hall.2⟩

/-- The router is that of a server whose offer nobody took. -/
theorem lease_of_two_servers :
    ∃ l, dhcpConfigure 0x4E560000 (twoServers
        [.datagram 0x0A000002 (reply 0x4E560000 0x0A0000C8 DHCP_OFFER [3, 4, 10, 0, 0, 2])]) = some l ∧
      l.ack.srcIp = 0x0A000001 ∧ l.offer.srcIp = 0x0A000001 ∧ l.gw = 0x0A000002 ∧ ¬ l.SingleServer 0x4E560000 := by
  obtain ⟨l, hl⟩ := Option.isSome_iff_exists.mp
    (show (dhcpConfigure 0x4E560000 (twoServers
      [.datagram 0x0A000002 (reply 0x4E560000 0x0A0000C8 DHCP_OFFER [3, 4, 10, 0, 0, 2])])).isSome by decide)
  have hall : (dhcpConfigure 0x4E560000 (twoServers
      [.datagram 0x0A000002 (reply 0x4E560000 0x0A0000C8 DHCP_OFFER [3, 4, 10, 0, 0, 2])])).all
      (fun l => l.ack.srcIp = 0x0A000001 ∧ l.offer.srcIp = 0x0A000001 ∧ l.gw = 0x0A000002 ∧
        (l.own 0x4E560000 .router).getD 0 = 0x0A000001) = true := by decide
  rw [hl] at hall
  simp only [Option.all_some, decide_eq_true_eq] at hall
  obtain ⟨hack, hoffer, hgw, hown⟩ := hall
  refine ⟨l, hl, hack, hoffer, hgw, fun hsingle => ?_⟩
  have hrouter : l.gw = (l.own 0x4E560000 .router).getD 0 := hsingle.2 .router
  rw [hgw, hown] at hrouter
  exact absurd hrouter (by decide)

end NovarisOS.Dhcp
