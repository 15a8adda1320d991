/-
NovarisOS.Tcp.Handles — whose connection a handle names.

A handle is the index of a slot, and a slot has one connection after another.
Two things are followed beside the table: how many connections each slot has
had, and the handles that `tcp_connect` and `tcp_accept` returned and that
were not yet passed to `tcp_close`, each with the number of the connection it
was returned for.
-/
import NovarisOS.Tcp.Stack

namespace NovarisOS.Tcp

namespace Stack

/-- The connection that the call returns the handle of again. -/
def accepts (t : Stack) : Call → Option Nat
  | .accept port => t.firstSlot fun c => c.inUse && !c.accepted && c.localPort = port && c.state = .established
  | _ => none

end Stack

structure Owners where
  stack : Stack
  /-- How many connections each slot has had. -/
  born : Nat → Nat
  /-- The handles that are held, and which connection each was returned for. -/
  held : List (Nat × Nat)

namespace Owners

/-- The connections counted after the call: one more where a free slot came
into use. -/
def count (o : Owners) (t : Stack) (i : Nat) : Nat :=
  if (o.stack.conns i).inUse = false ∧ (t.conns i).inUse = true then o.born i + 1 else o.born i

def step (o : Owners) (c : Call) : Owners × Int :=
  let (handle, t) := o.stack.call c
  ({ stack := t
     born := o.count t
     held :=
       match c with
       | .close handle _ => o.held.eraseP fun p => p.1 = handle
       | _ => if 0 ≤ handle then o.held ++ [(handle.toNat, o.count t handle.toNat)] else o.held }, handle)

/-- Nobody has a handle. -/
def init : Owners := ⟨Stack.init, fun _ => 0, []⟩

structure Named (o : Owners) : Prop where
  own : ∀ p ∈ o.held, ∀ c, o.stack.handleConn p.1 = some c → o.born p.1 = p.2
  apart : (o.held.map Prod.fst).Nodup

/-- The slot that is taken, and the connection that is returned, is nobody's. -/
def Unclaimed (o : Owners) (c : Call) : Prop :=
  ∀ i, o.stack.takes c = some i ∨ o.stack.accepts c = some i → i ∉ o.held.map Prod.fst

instance (o : Owners) (c : Call) : Decidable (o.Unclaimed c) :=
  decidable_of_iff (∀ i ∈ (o.stack.takes c).toList ++ (o.stack.accepts c).toList, i ∉ o.held.map Prod.fst) (by
    simp only [List.mem_append, Option.mem_toList, Unclaimed])

end Owners

def owners : Machine Owners Call Int := ⟨Owners.step⟩

/-! ## Which slot comes into use -/

namespace Stack

variable {t : Stack}

theorem takes_of_opened {c : Call} {j : Nat} (hno : (t.conns j).inUse = false)
    (hyes : (((t.call c).2).conns j).inUse = true) : t.takes c = some j := by
  have hin : (t.conns j).inUse ≠ true := by simp [hno]
  have hslot := t.slot_call c j
  generalize ((t.call c).2).conns j = c' at hslot hyes
  cases hslot with
  | same => exact absurd hyes hin
  | event e hused => exact absurd hused hin
  | accepted hused => exact absurd hused hin
  | opened htakes _ _ => exact htakes

theorem call_handle {c : Call} (h : 0 ≤ (t.call c).1) :
    t.takes c = some (t.call c).1.toNat ∨ t.accepts c = some (t.call c).1.toNat := by
  have hone : ¬ (0 : Int) ≤ -1 := by decide
  have htwo : ¬ (0 : Int) ≤ -2 := by decide
  cases c with
  | connect configured now destIp destPort =>
    have h : 0 ≤ (t.connect configured now destIp destPort).1 := h
    show t.takes _ = some (t.connect configured now destIp destPort).1.toNat ∨ _
    left
    unfold connect at h ⊢
    cases configured with
    | false => exact absurd h hone
    | true =>
      cases hfree : t.freeSlot with
      | none =>
        rw [hfree] at h
        exact absurd h htwo
      | some i => exact hfree
  | accept port =>
    have h : 0 ≤ (t.accept port).1 := h
    show _ ∨ t.accepts _ = some (t.accept port).1.toNat
    right
    unfold accept at h ⊢
    cases hfound : t.firstSlot fun c => c.inUse && !c.accepted && c.localPort = port && c.state = .established with
    | none =>
      rw [hfound] at h
      exact absurd h hone
    | some i => exact hfound
  | listen _ => exact absurd h hone
  | unlisten _ => exact absurd h hone
  | segment _ _ _ => exact absurd h hone
  | tick _ _ => exact absurd h hone
  | send _ _ _ _ => exact absurd h hone
  | recv _ _ => exact absurd h hone
  | close _ _ => exact absurd h hone

theorem handleConn_some {h : Nat} {c : Conn} (hc : t.handleConn h = some c) :
    h < TCP_MAX_CONNECTIONS ∧ (t.conns h).inUse = true := by
  unfold handleConn at hc
  split at hc
  · rename_i hin
    exact hin
  · cases hc

end Stack

/-! ## What every call keeps -/

namespace Owners.Named

variable {o : Owners}

theorem own_call (h : o.Named) {c : Call} (hu : o.Unclaimed c) {p : Nat × Nat} (hp : p ∈ o.held)
    {conn : Conn} (hc : ((o.stack.call c).2).handleConn p.1 = some conn) :
    o.count (o.stack.call c).2 p.1 = p.2 := by
  obtain ⟨hlt, hin⟩ := Stack.handleConn_some hc
  unfold Owners.count
  cases hold : (o.stack.conns p.1).inUse with
  | false =>
    have htaken := Stack.takes_of_opened hold hin
    exact absurd (List.mem_map_of_mem hp) (hu p.1 (Or.inl htaken))
  | true =>
    rw [if_neg (by simp)]
    exact h.own p hp (o.stack.conns p.1) (by rw [Stack.handleConn, if_pos ⟨hlt, hold⟩])

theorem step (h : o.Named) {c : Call} (hu : o.Unclaimed c) : (owners.step o c).1.Named := by
  have hown := fun p hp conn hc => @own_call o h c hu p hp conn hc
  have hhandle := @Stack.call_handle o.stack c
  show (o.step c).1.Named
  unfold Owners.step
  generalize hr : o.stack.call c = r at hown hhandle
  obtain ⟨handle, t⟩ := r
  have hgrow : Named ⟨t, o.count t,
      if 0 ≤ handle then o.held ++ [(handle.toNat, o.count t handle.toNat)] else o.held⟩ := by
    split
    · rename_i hpos
      have hnew := hu handle.toNat (hhandle hpos)
      refine ⟨fun p hp conn hc => ?_, ?_⟩
      · rcases List.mem_append.mp hp with hp | hp
        · exact hown p hp conn hc
        · rw [List.mem_singleton] at hp
          rw [hp]
      · rw [List.map_append, List.map_singleton]
        refine List.nodup_append.mpr ⟨h.apart, by simp, ?_⟩
        intro x hx y hy hxy
        rw [List.mem_singleton] at hy
        rw [hxy, hy] at hx
        exact hnew hx
    · exact ⟨hown, h.apart⟩
  have hdrop : ∀ closed : Nat, Named ⟨t, o.count t, o.held.eraseP fun p => p.1 = closed⟩ := by
    intro closed
    exact ⟨fun p hp conn hc => hown p (List.mem_of_mem_eraseP hp) conn hc,
      (List.eraseP_sublist.map Prod.fst).nodup h.apart⟩
  cases c with
  | close closed now => exact hdrop closed
  | connect _ _ _ _ => exact hgrow
  | accept _ => exact hgrow
  | listen _ => exact hgrow
  | unlisten _ => exact hgrow
  | segment _ _ _ => exact hgrow
  | tick _ _ => exact hgrow
  | send _ _ _ _ => exact hgrow
  | recv _ _ => exact hgrow

end Owners.Named

/-! ## Every run -/

/-- **A handle keeps naming its connection.** -/
theorem handle_keeps_naming (calls : List Call) (hg : owners.Guarded Owners.Unclaimed Owners.init calls) :
    (owners.run Owners.init calls).Named :=
  owners.invariant_of_step (fun (o : Owners) _ (h : o.Named) hu => h.step hu) calls Owners.init
    ⟨fun _ hp => (by cases hp), List.nodup_nil⟩ hg

/-- A connection dialled, reset and released by the clock. -/
def dialledAndReset : List Call :=
  [.listen 80, .connect true 0 0x0A000202 7,
    .segment 1 0x0A000202 ⟨7, 49152, 0, 0, TCP_RST, [], by decide, by decide⟩, .tick 2 fun _ => true]

/-- A client's SYN. -/
def clientSyn : Call := .segment 3 0x0A000203 ⟨1234, 80, 100, 0, TCP_SYN, [], by decide, by decide⟩

theorem handle_keeps_naming_closed :
    (owners.run Owners.init (dialledAndReset ++ [.close 0 3, clientSyn])).Named ∧
      (((owners.run Owners.init (dialledAndReset ++ [.close 0 3, clientSyn])).stack.handleConn 0).map
        Conn.remoteIp) = some 0x0A000203 := by
  exact ⟨handle_keeps_naming _ (by decide), by decide⟩

/-- The owner of the dialled connection has its handle still, and the handle
names the client's. -/
theorem handle_renamed :
    (owners.run Owners.init (dialledAndReset ++ [clientSyn])).held = [(0, 1)] ∧
      ((owners.run Owners.init (dialledAndReset ++ [clientSyn])).stack.handleConn 0).map Conn.remoteIp =
        some 0x0A000203 ∧
      ¬ (owners.run Owners.init (dialledAndReset ++ [clientSyn])).Named := by
  refine ⟨by decide, by decide, fun h => ?_⟩
  have hfound : ((owners.run Owners.init (dialledAndReset ++ [clientSyn])).stack.handleConn 0).isSome := by
    decide
  obtain ⟨c, hc⟩ := Option.isSome_iff_exists.mp hfound
  have hfirst := h.own (0, 1) (by decide) c hc
  exact absurd hfirst (by decide)

end NovarisOS.Tcp
