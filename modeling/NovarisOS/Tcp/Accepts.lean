/-
NovarisOS.Tcp.Accepts — whom `tcp_accept` returns.

Beside the table a record is kept of every connection there has been: whether
a client opened it, on which port, whether its handshake completed, whether
it was reset, and how often `tcp_accept` returned it. `Record.Settled` is
what is wanted of a connection that is gone.
-/
import NovarisOS.Tcp.Handles

namespace NovarisOS.Tcp

open Function (update update_of_ne update_self)

/-- What is remembered of a connection. -/
structure Record where
  passive : Bool
  port : Nat
  completed : Bool
  reset : Bool
  returned : Nat

namespace Record

/-- No connection yet. -/
def none : Record := ⟨false, 0, false, false, 0⟩

/-- The connection is in the queue: whoever opened it waits to be accepted. -/
def Waits (r : Record) : Prop :=
  r.passive = true ∧ r.completed = true ∧ r.reset = false ∧ r.returned = 0

instance (r : Record) : Decidable r.Waits := inferInstanceAs (Decidable (_ ∧ _))

/-- A segment arrives for the connection. -/
def heard (r : Record) (c : Conn) (now : Nat) (s : Segment) : Record :=
  { r with
    reset := r.reset || rst s.flags
    completed := r.completed || (c.state = .synReceived && (c.receive now s).state = .established) }

/-- Returned at most once, and never when it was dialled. -/
structure Settled (r : Record) : Prop where
  once : r.returned ≤ 1
  dialled : r.passive = false → r.returned = 0

end Record

structure Log where
  stack : Stack
  /-- The connections whose slot has another connection since. -/
  past : List Record
  /-- The last connection of each slot. -/
  last : Nat → Record

namespace Log

def init : Log := ⟨Stack.init, [], fun _ => .none⟩

/-- Whether the call is one of a client's. -/
def isSegment : Call → Bool
  | .segment _ _ _ => true
  | _ => false

/-- The record of a slot after the call. -/
def note (o : Log) (c : Call) (j : Nat) : Record :=
  if o.stack.takes c = some j then
    ⟨isSegment c, (((o.stack.call c).2).conns j).localPort, false, false, 0⟩
  else
    match c with
    | .segment now srcIp s =>
      if o.stack.findConn srcIp s.srcPort s.destPort = some j then (o.last j).heard (o.stack.conns j) now s
      else o.last j
    | .accept port =>
      if o.stack.accepts (.accept port) = some j then { o.last j with returned := (o.last j).returned + 1 }
      else o.last j
    | _ => o.last j

def step (o : Log) (c : Call) : Log × Int :=
  ({ stack := (o.stack.call c).2
     past := ((o.stack.takes c).map o.last).toList ++ o.past
     last := o.note c }, (o.stack.call c).1)

/-- Every connection there has been. -/
def records (o : Log) : List Record := o.past ++ (List.range TCP_MAX_CONNECTIONS).map o.last

/-- The FIN is the next byte that is expected, or one before it. -/
def finTaken (c : Conn) (s : Segment) : Bool :=
  fin s.flags && seqLe s.seq ((c.retire s).takeData s).rcvNext

/-- No dialled port that a connection of the same peer has; nothing dialled
in the queue; no FIN, and no call through the handle, of a connection that
waits to be accepted. -/
def Fair (o : Log) : Call → Prop
  | .connect configured _ destIp destPort =>
      configured = true → o.stack.freeSlot.isSome → o.stack.findConn destIp destPort o.stack.nextPort = .none
  | .accept port => ∀ i ∈ o.stack.accepts (.accept port), (o.last i).passive = true
  | .segment _ srcIp s => ∀ i ∈ o.stack.findConn srcIp s.srcPort s.destPort,
      (o.last i).Waits → rst s.flags = false → finTaken (o.stack.conns i) s = false
  | .send handle _ _ _ => ¬ (o.last handle).Waits
  | .close handle _ => ¬ (o.last handle).Waits
  | _ => True

instance (o : Log) : (c : Call) → Decidable (o.Fair c)
  | .connect _ _ _ _ => inferInstanceAs (Decidable (_ → _ → _))
  | .accept _ => inferInstanceAs (Decidable (∀ i ∈ _, _))
  | .segment _ _ _ => inferInstanceAs (Decidable (∀ i ∈ _, _ → _ → _))
  | .send _ _ _ _ => inferInstanceAs (Decidable (¬ _))
  | .close _ _ => inferInstanceAs (Decidable (¬ _))
  | .listen _ => inferInstanceAs (Decidable True)
  | .unlisten _ => inferInstanceAs (Decidable True)
  | .tick _ _ => inferInstanceAs (Decidable True)
  | .recv _ _ => inferInstanceAs (Decidable True)

end Log

def logged : Machine Log Call Int := ⟨Log.step⟩

theorem Stack.freeSlot_of_takes {t : Stack} {c : Call} {i : Nat} (h : t.takes c = some i) :
    t.freeSlot = some i := by
  cases c with
  | connect configured _ _ _ =>
    cases configured with
    | false => cases h
    | true => exact h
  | segment now srcIp s =>
    simp only [takes] at h
    split at h
    · exact h
    · cases h
  | _ => cases h

/-! ## Whose connection it is -/

/-- The same peer and port, if it is in use at all. -/
structure Peer (c c' : Conn) : Prop where
  remoteIp : c'.remoteIp = c.remoteIp
  remotePort : c'.remotePort = c.remotePort
  localPort : c'.localPort = c.localPort
  inUse : c'.inUse = true → c.inUse = true

/-- The peer, the port and whether it was accepted: what no event changes. -/
structure Whose (c c' : Conn) : Prop extends Peer c c' where
  accepted : c'.accepted = c.accepted

namespace Whose

theorem refl (c : Conn) : Whose c c := ⟨⟨rfl, rfl, rfl, id⟩, rfl⟩

theorem trans {c c' c'' : Conn} (h : Whose c c') (h' : Whose c' c'') : Whose c c'' where
  remoteIp := h'.remoteIp.trans h.remoteIp
  remotePort := h'.remotePort.trans h.remotePort
  localPort := h'.localPort.trans h.localPort
  accepted := h'.accepted.trans h.accepted
  inUse := h.inUse ∘ h'.inUse

theorem setState {c c' : Conn} (h : Whose c c') (st : State) : Whose c { c' with state := st } :=
  ⟨⟨h.remoteIp, h.remotePort, h.localPort, h.inUse⟩, h.accepted⟩

theorem sendTracked (c : Conn) (now flags : Nat) (data : List UInt8) :
    Whose c (c.sendTracked now flags data) := by
  obtain ⟨window, hw⟩ := c.sendTracked_eq now flags data
  rw [hw]
  exact ⟨⟨rfl, rfl, rfl, id⟩, rfl⟩

theorem retire (c : Conn) (s : Segment) : Whose c (c.retire s) := by
  cases c.retire_cases s with
  | ignored _ h => rw [h]; exact .refl c
  | partly _ h => rw [h]; exact ⟨⟨rfl, rfl, rfl, id⟩, rfl⟩
  | wholly _ h => rw [h]; exact ⟨⟨rfl, rfl, rfl, id⟩, rfl⟩

theorem takeData (c : Conn) (s : Segment) : Whose c (c.takeData s) := by
  have hcase := c.takeData_cases s
  generalize c.takeData s = c' at hcase
  cases hcase with
  | taken _ _ _ =>
    obtain ⟨mem, head, hpush⟩ := c.recvPush_eq s.data
    rw [hpush]
    exact ⟨⟨rfl, rfl, rfl, id⟩, rfl⟩
  | dropped b _ => exact ⟨⟨rfl, rfl, rfl, id⟩, rfl⟩

theorem takeFin (c : Conn) (now : Nat) (s : Segment) : Whose c (c.takeFin now s) := by
  have hcase := c.takeFin_cases now s
  generalize c.takeFin now s = c' at hcase
  cases hcase with
  | finished t _ _ => exact ⟨⟨rfl, rfl, rfl, id⟩, rfl⟩
  | acked _ _ _ _ => exact ⟨⟨rfl, rfl, rfl, id⟩, rfl⟩
  | none _ => exact .refl c

theorem receive (c : Conn) (now : Nat) (s : Segment) : Whose c (c.receive now s) := by
  have hretire := retire c s
  have hcase := c.receive_cases now s
  generalize c.receive now s = c' at hcase
  cases hcase with
  | reset _ => exact ⟨⟨rfl, rfl, rfl, id⟩, rfl⟩
  | accepted _ _ _ =>
    exact ⟨⟨hretire.remoteIp, hretire.remotePort, hretire.localPort, hretire.inUse⟩, hretire.accepted⟩
  | connected _ _ _ _ =>
    exact ⟨⟨hretire.remoteIp, hretire.remotePort, hretire.localPort, hretire.inUse⟩, hretire.accepted⟩
  | data _ _ => exact (hretire.trans (takeData _ s)).trans (takeFin _ now s)
  | lastAcked _ _ _ => exact hretire.setState _
  | other _ _ => exact hretire

theorem recvInto (c : Conn) (max : Nat) : Whose c (c.recvInto max).2 := by
  obtain ⟨tail, h⟩ := c.recvLoop_eq max []
  unfold Conn.recvInto
  rcases hl : c.recvLoop max [] with ⟨out, c'⟩
  rw [hl] at h
  simp only at h ⊢
  subst h
  split <;> exact ⟨⟨rfl, rfl, rfl, id⟩, rfl⟩

theorem tick (c : Conn) (now : Nat) (ok : Bool) : Whose c (c.tick now ok) := by
  unfold Conn.tick
  split
  · exact ⟨⟨rfl, rfl, rfl, nofun⟩, rfl⟩
  · have hack : Whose c (c.tickAck ok) := by
      obtain ⟨window, hw⟩ := c.advertise_eq
      unfold Conn.tickAck
      rw [hw]
      split <;> exact ⟨⟨rfl, rfl, rfl, id⟩, rfl⟩
    refine hack.trans ?_
    generalize c.tickAck ok = c'
    obtain ⟨window, hw⟩ := c'.advertise_eq
    unfold Conn.tickResend
    rw [hw]
    split
    · exact .refl c'
    · split
      · exact .refl c'
      · split <;> exact ⟨⟨rfl, rfl, rfl, id⟩, rfl⟩

theorem after (c : Conn) (e : Event) : Whose c (c.after e) := by
  cases e with
  | segment now s => exact receive c now s
  | send now ok data =>
    show Whose c (c.send now ok data).2
    have hcase := c.send_cases now ok data
    generalize c.send now ok data = r at hcase
    cases hcase with
    | refused r _ _ => exact .refl c
    | sent _ _ _ => exact sendTracked c _ _ _
  | recv max => exact recvInto c max
  | close now =>
    show Whose c (c.close now)
    have hcase := c.close_cases now
    generalize c.close now = c' at hcase
    cases hcase with
    | fin st _ => exact (sendTracked c _ _ _).setState st
    | dropped _ _ => exact ⟨⟨rfl, rfl, rfl, nofun⟩, rfl⟩
  | tick now ok => exact tick c now ok

end Whose

/-! ## A connection in the queue stays there -/

/-- Established, with nothing in flight. -/
structure Conn.Idle (c : Conn) : Prop where
  inUse : c.inUse = true
  state : c.state = .established
  pending : c.pending = []
  pendingFlags : c.pendingFlags = 0

namespace Conn.Idle

variable {c : Conn}

theorem kept {c' : Conn} (h : c.Idle) (hk : Kept c c') : c'.Idle :=
  ⟨hk.inUse.trans h.inUse, hk.state.trans h.state, hk.pending.trans h.pending,
    hk.pendingFlags.trans h.pendingFlags⟩

theorem tick (h : c.Idle) (now : Nat) (ok : Bool) : (c.tick now ok).Idle := by
  have hcase := c.tick_cases now ok
  generalize c.tick now ok = c' at hcase
  cases hcase with
  | released hover => simp [h.state] at hover
  | gaveUp hflight _ _ _ => exact absurd ⟨h.pending, h.pendingFlags⟩ hflight
  | kept _ hk => exact h.kept hk

theorem retire (h : c.Idle) (s : Segment) : (c.retire s).Idle := by
  cases c.retire_cases s with
  | ignored _ heq => rw [heq]; exact h
  | partly _ heq => rw [heq]; exact ⟨h.inUse, h.state, h.pending, h.pendingFlags⟩
  | wholly _ heq => rw [heq]; exact ⟨h.inUse, h.state, rfl, rfl⟩

theorem takeData (h : c.Idle) (s : Segment) : (c.takeData s).Idle := by
  have hcase := c.takeData_cases s
  generalize c.takeData s = c' at hcase
  cases hcase with
  | taken _ _ _ =>
    obtain ⟨mem, head, hpush⟩ := c.recvPush_eq s.data
    rw [hpush]
    exact ⟨h.inUse, h.state, h.pending, h.pendingFlags⟩
  | dropped b _ => exact ⟨h.inUse, h.state, h.pending, h.pendingFlags⟩

theorem receive (h : c.Idle) (now : Nat) {s : Segment} (hrst : rst s.flags = false)
    (hfin : Log.finTaken c s = false) : (c.receive now s).Idle := by
  have hdata := (h.retire s).takeData s
  have hcase := c.receive_cases now s
  generalize c.receive now s = c' at hcase
  cases hcase with
  | reset h' => exact absurd (hrst.symm.trans h') (by decide)
  | accepted _ hst _ => exact absurd (hst.symm.trans h.state) (by decide)
  | connected _ hst _ _ => exact absurd (hst.symm.trans h.state) (by decide)
  | data _ _ =>
    unfold Log.finTaken at hfin
    have hcase := ((c.retire s).takeData s).takeFin_cases now s
    generalize ((c.retire s).takeData s).takeFin now s = c' at hcase
    cases hcase with
    | finished t h1 h2 => simp [h1, h2] at hfin
    | acked _ _ hst _ => exact absurd (hst.symm.trans hdata.state) (by decide)
    | none _ => exact hdata
  | lastAcked _ hst _ => exact absurd (hst.symm.trans h.state) (by decide)
  | other _ hst => exact absurd (Or.inl h.state) hst

end Conn.Idle

theorem Conn.receive_completes {c : Conn} (hin : c.inUse = true) (hst : c.state = .synReceived) {now : Nat}
    {s : Segment} (hnew : (c.receive now s).state = .established) : (c.receive now s).Idle := by
  have hretire := c.retire_retired s
  have hcase := c.receive_cases now s
  generalize c.receive now s = c' at hcase hnew
  cases hcase with
  | reset _ => cases hnew
  | accepted _ _ _ => exact ⟨hretire.inUse.trans hin, rfl, rfl, rfl⟩
  | connected _ h' _ _ => exact absurd (h'.symm.trans hst) (by decide)
  | data _ h' => simp [hst, State.Open] at h'
  | lastAcked _ h' _ => exact absurd (h'.symm.trans hst) (by decide)
  | other _ _ => exact absurd (hnew.symm.trans (hretire.state.trans hst)) (by decide)

/-! ## A slot and its record -/

structure Tidy (c : Conn) (r : Record) : Prop where
  settled : r.Settled
  port : c.inUse = true → r.port = c.localPort
  accepted : c.inUse = true → c.accepted = decide (r.returned = 1)
  waits : r.Waits → c.Idle

namespace Tidy

variable {c : Conn} {r : Record}

theorem event (h : Tidy c r) {c' : Conn} (hw : Whose c c') (hidle : r.Waits → c'.Idle) : Tidy c' r where
  settled := h.settled
  port := fun hin => (h.port (hw.inUse hin)).trans hw.localPort.symm
  accepted := fun hin => hw.accepted.trans (h.accepted (hw.inUse hin))
  waits := hidle

theorem heard (h : Tidy c r) (hin : c.inUse = true) {now : Nat} {s : Segment}
    (hfair : r.Waits → rst s.flags = false → Log.finTaken c s = false) :
    Tidy (c.receive now s) (r.heard c now s) where
  settled := ⟨h.settled.once, h.settled.dialled⟩
  port := fun hin => (h.port ((Whose.receive c now s).inUse hin)).trans (Whose.receive c now s).localPort.symm
  accepted := fun hin => (Whose.receive c now s).accepted.trans (h.accepted ((Whose.receive c now s).inUse hin))
  waits := by
    rintro ⟨hpassive, hcomp, hreset, hret⟩
    have hreset : r.reset = false ∧ rst s.flags = false := by simpa [Record.heard] using hreset
    have hcomp : r.completed = true ∨ (c.state = .synReceived ∧ (c.receive now s).state = .established) := by
      simpa [Record.heard] using hcomp
    rcases hcomp with hold | ⟨hst, hnew⟩
    · have hwaits : r.Waits := ⟨hpassive, hold, hreset.1, hret⟩
      exact (h.waits hwaits).receive now hreset.2 (hfair hwaits hreset.2)
    · exact Conn.receive_completes hin hst hnew

theorem accept (h : Tidy c r) (hin : c.inUse = true) (hnot : c.accepted = false) (hpassive : r.passive = true) :
    Tidy { c with accepted := true } { r with returned := r.returned + 1 } := by
  have hret : r.returned ≠ 1 := by
    have hacc := h.accepted hin
    rw [hnot] at hacc
    simpa using hacc.symm
  have honce := h.settled.once
  have hzero : r.returned = 0 := by omega
  refine ⟨⟨?_, ?_⟩, h.port, ?_, ?_⟩
  · show r.returned + 1 ≤ 1
    omega
  · intro hno
    exact absurd (hno.symm.trans hpassive) (by decide)
  · intro _
    simp [hzero]
  · rintro ⟨_, _, _, hret'⟩
    cases hret'

theorem fresh (b : Bool) (hacc : c.accepted = false) : Tidy c ⟨b, c.localPort, false, false, 0⟩ where
  settled := ⟨Nat.zero_le 1, fun _ => rfl⟩
  port := fun _ => rfl
  accepted := fun _ => hacc
  waits := fun hw => nomatch hw.2.1

theorem free (h : Tidy c r) (hno : c.inUse = false) : ¬ r.Waits :=
  fun hw => absurd ((h.waits hw).inUse.symm.trans hno) (by decide)

end Tidy

namespace Log

/-- The slots are tidy, what is past is settled, and no two connections in
use have the same peer and port. -/
structure Ok (o : Log) : Prop where
  tidy : ∀ j, Tidy (o.stack.conns j) (o.last j)
  past : ∀ r ∈ o.past, r.Settled ∧ ¬ r.Waits
  slots : ∀ j, (o.stack.conns j).inUse = true → j < TCP_MAX_CONNECTIONS
  apart : ∀ i j, (o.stack.conns i).inUse = true → (o.stack.conns j).inUse = true →
    (o.stack.conns i).remoteIp = (o.stack.conns j).remoteIp →
    (o.stack.conns i).remotePort = (o.stack.conns j).remotePort →
    (o.stack.conns i).localPort = (o.stack.conns j).localPort → i = j

variable {o : Log}

variable {port : Nat}

theorem findConn_none (h : o.Ok) {ip own : Nat} (hnone : o.stack.findConn ip port own = none) {j : Nat}
    (hin : (o.stack.conns j).inUse = true) (hip : (o.stack.conns j).remoteIp = ip)
    (hport : (o.stack.conns j).remotePort = port) : (o.stack.conns j).localPort ≠ own := by
  intro hown
  unfold Stack.findConn Stack.firstSlot at hnone
  rw [List.find?_eq_none] at hnone
  have hj := hnone j (List.mem_range.mpr (h.slots j hin))
  simp [hin, hip, hport, hown] at hj

/-! ## Each call -/

/-- What a call can do to a slot and its record. -/
inductive Turn (o : Log) (c : Call) (j : Nat) : Conn → Record → Prop where
  | kept {c' : Conn} {r : Record} : o.stack.takes c ≠ some j → Peer (o.stack.conns j) c' → Tidy c' r →
      Turn o c j c' r
  | fresh {c' : Conn} (b : Bool) : o.stack.takes c = some j → c'.accepted = false →
      o.stack.findConn c'.remoteIp c'.remotePort c'.localPort = none →
      Turn o c j c' ⟨b, c'.localPort, false, false, 0⟩

variable {c : Call}

theorem Turn.same (h : o.Ok) {j : Nat} (hno : o.stack.takes c ≠ some j) :
    Turn o c j (o.stack.conns j) (o.last j) :=
  .kept hno ⟨rfl, rfl, rfl, id⟩ (h.tidy j)

theorem Turn.set {i : Nat} {c' : Conn} {r : Nat → Record} (hi : Turn o c i c' (r i))
    (hother : ∀ j, j ≠ i → Turn o c j (o.stack.conns j) (r j)) (j : Nat) :
    Turn o c j ((o.stack.set i c').conns j) (r j) := by
  show Turn o c j (update o.stack.conns i c' j) (r j)
  by_cases hj : j = i
  · subst hj
    rw [update_self]
    exact hi
  · rw [update_of_ne hj]
    exact hother j hj

theorem turn_through (h : o.Ok) (htakes : o.stack.takes c = none) (handle : Nat) (e : Event)
    (hidle : (o.last handle).Waits → ((o.stack.conns handle).after e).Idle) (j : Nat) :
    Turn o c j ((o.stack.through handle e).conns j) (o.last j) := by
  have hno : ∀ j, o.stack.takes c ≠ some j := fun j => by simp [htakes]
  have hw := Whose.after (o.stack.conns handle) e
  unfold Stack.through Stack.handleConn
  split
  · rename_i conn hconn
    split at hconn
    · cases hconn
      exact Turn.set (.kept (hno handle) hw.toPeer ((h.tidy handle).event hw hidle))
        (fun j _ => Turn.same h (hno j)) j
    · cases hconn
  · exact Turn.same h (hno j)

theorem turn_tick (h : o.Ok) (now : Nat) (ok : Nat → Bool) (j : Nat) :
    Turn o (.tick now ok) j ((o.stack.tick now ok).conns j) (o.last j) := by
  have hno : o.stack.takes (.tick now ok) ≠ some j := nofun
  have hw := Whose.tick (o.stack.conns j) now (ok j)
  show Turn o _ j (if j < TCP_MAX_CONNECTIONS ∧ (o.stack.conns j).inUse then _ else _) _
  split
  · exact .kept hno hw.toPeer ((h.tidy j).event hw fun hwaits => ((h.tidy j).waits hwaits).tick now (ok j))
  · exact Turn.same h hno

theorem turn_accept (h : o.Ok) (hf : o.Fair (.accept port)) (j : Nat) :
    Turn o (.accept port) j ((o.stack.accept port).2.conns j) (o.note (.accept port) j) := by
  have hno : ∀ j, o.stack.takes (.accept port) ≠ some j := fun j => nofun
  have hother : ∀ {i j : Nat}, o.stack.accepts (.accept port) = some i → j ≠ i →
      o.note (.accept port) j = o.last j := by
    intro i j hi hj
    unfold note
    rw [if_neg (hno j)]
    exact if_neg (fun hj' => hj (Option.some.inj (hj'.symm.trans hi)))
  unfold Stack.accept
  split
  · rename_i i hi
    obtain ⟨-, hfound⟩ := Stack.firstSlot_some hi
    simp only [Bool.and_eq_true, Bool.not_eq_true', decide_eq_true_eq] at hfound
    have haccepts : o.stack.accepts (.accept port) = some i := hi
    have hnote : o.note (.accept port) i = { o.last i with returned := (o.last i).returned + 1 } := by
      unfold note
      rw [if_neg (hno i)]
      exact if_pos haccepts
    refine Turn.set ?_ (fun j hj => ?_) j
    · rw [hnote]
      exact .kept (hno i) ⟨rfl, rfl, rfl, id⟩
        ((h.tidy i).accept hfound.1.1.1 hfound.1.1.2 (hf i haccepts))
    · rw [hother haccepts hj]
      exact Turn.same h (hno j)
  · rename_i hnone
    have haccepts : o.stack.accepts (.accept port) = none := hnone
    have hnote : o.note (.accept port) j = o.last j := by
      unfold note
      rw [if_neg (hno j)]
      exact if_neg (by simp [haccepts])
    rw [hnote]
    exact Turn.same h (hno j)

theorem turn_open (h : o.Ok) {i : Nat} (htakes : o.stack.takes c = some i) {conn : Conn}
    (hconn : ((o.stack.call c).2).conns i = conn) (hacc : conn.accepted = false)
    (hnone : o.stack.findConn conn.remoteIp conn.remotePort conn.localPort = none)
    (hother : ∀ j, j ≠ i → o.note c j = o.last j) (j : Nat) :
    Turn o c j ((o.stack.set i conn).conns j) (o.note c j) := by
  refine Turn.set ?_ (fun j hj => ?_) j
  · have hnote : o.note c i = ⟨isSegment c, conn.localPort, false, false, 0⟩ := by
      unfold note
      rw [if_pos htakes, hconn]
    rw [hnote]
    exact .fresh _ htakes hacc hnone
  · rw [hother j hj]
    exact Turn.same h (fun hj' => hj (Option.some.inj (hj'.symm.trans htakes)))

theorem turn_receive (h : o.Ok) {now srcIp : Nat} {s : Segment} (hf : o.Fair (.segment now srcIp s)) (j : Nat) :
    Turn o (.segment now srcIp s) j ((o.stack.receive now srcIp s).conns j) (o.note (.segment now srcIp s) j) := by
  have hnote : ∀ j, o.stack.takes (.segment now srcIp s) ≠ some j →
      o.stack.findConn srcIp s.srcPort s.destPort ≠ some j → o.note (.segment now srcIp s) j = o.last j := by
    intro j htakes hfind
    unfold note
    rw [if_neg htakes]
    exact if_neg hfind
  cases hfind : o.stack.findConn srcIp s.srcPort s.destPort with
  | some i =>
    have hno : ∀ j, o.stack.takes (.segment now srcIp s) ≠ some j := by
      intro j
      simp [Stack.takes, hfind]
    have hreceive : o.stack.receive now srcIp s = o.stack.set i ((o.stack.conns i).receive now s) := by
      unfold Stack.receive
      rw [hfind]
    have hheard : o.note (.segment now srcIp s) i = (o.last i).heard (o.stack.conns i) now s := by
      unfold note
      rw [if_neg (hno i)]
      exact if_pos hfind
    obtain ⟨-, hfound⟩ := Stack.firstSlot_some hfind
    simp only [Bool.and_eq_true] at hfound
    rw [hreceive]
    refine Turn.set ?_ (fun j hj => ?_) j
    · rw [hheard]
      exact .kept (hno i) (Whose.receive _ now s).toPeer ((h.tidy i).heard hfound.1.1.1 (hf i hfind))
    · rw [hnote j (hno j) (by rw [hfind]; exact fun hj' => hj (Option.some.inj hj').symm)]
      exact Turn.same h (hno j)
  | none =>
    have hnone : ∀ j, o.stack.findConn srcIp s.srcPort s.destPort ≠ some j := by
      intro j
      simp [hfind]
    cases htakes : o.stack.takes (.segment now srcIp s) with
    | none =>
      have hreceive : (o.stack.receive now srcIp s) = o.stack := by
        unfold Stack.receive
        rw [hfind]
        simp only
        split
        · rename_i hsyn
          simp only [Bool.and_eq_true] at hsyn
          simp only [Stack.takes, hfind, hsyn, Option.isNone_none, Bool.and_self, if_true] at htakes
          rw [Stack.acceptSyn, htakes]
        · rfl
      have hno : o.stack.takes (.segment now srcIp s) ≠ some j := by simp [htakes]
      rw [hreceive, hnote j hno (hnone j)]
      exact Turn.same h hno
    | some i =>
      have hreceive : o.stack.receive now srcIp s =
          o.stack.set i (Conn.answered now srcIp s.srcPort s.destPort s.seq) := by
        simp only [Stack.takes] at htakes
        split at htakes
        · rename_i hsyn
          simp only [hfind, Option.isNone_none, Bool.true_and, Bool.and_eq_true] at hsyn
          unfold Stack.receive
          rw [hfind]
          simp only [hsyn, Bool.and_self, if_true]
          rw [Stack.acceptSyn, htakes]
        · cases htakes
      have hconn : ((o.stack.call (.segment now srcIp s)).2).conns i =
          Conn.answered now srcIp s.srcPort s.destPort s.seq := by
        show (o.stack.receive now srcIp s).conns i = _
        rw [hreceive]
        exact update_self _ _ _
      have hw : Whose _ (Conn.answered now srcIp s.srcPort s.destPort s.seq) := Whose.sendTracked _ _ _ _
      rw [hreceive]
      refine turn_open h htakes hconn hw.accepted ?_ (fun j hj => ?_) j
      · rw [hw.remoteIp, hw.remotePort, hw.localPort]
        exact hfind
      · exact hnote j (fun hj' => hj (Option.some.inj (hj'.symm.trans htakes))) (hnone j)

theorem turn_connect (h : o.Ok) {configured : Bool} {now destIp destPort : Nat}
    (hf : o.Fair (.connect configured now destIp destPort)) (j : Nat) :
    Turn o (.connect configured now destIp destPort) j
      ((o.stack.connect configured now destIp destPort).2.conns j)
      (o.note (.connect configured now destIp destPort) j) := by
  have hnote : ∀ j, o.stack.takes (.connect configured now destIp destPort) ≠ some j →
      o.note (.connect configured now destIp destPort) j = o.last j := by
    intro j htakes
    unfold note
    rw [if_neg htakes]
  have hleft : o.stack.takes (.connect configured now destIp destPort) = none →
      Turn o (.connect configured now destIp destPort) j (o.stack.conns j)
        (o.note (.connect configured now destIp destPort) j) := by
    intro htakes
    have hno : o.stack.takes (.connect configured now destIp destPort) ≠ some j := by simp [htakes]
    rw [hnote j hno]
    exact Turn.same h hno
  cases hconf : configured with
  | false =>
    subst hconf
    exact hleft rfl
  | true =>
    subst hconf
    cases hfree : o.stack.freeSlot with
    | none =>
      have hsame : (o.stack.connect true now destIp destPort).2 = o.stack := by
        unfold Stack.connect
        rw [hfree]
        rfl
      rw [hsame]
      exact hleft hfree
    | some i =>
      have hw : Whose _ (Conn.opened now destIp destPort o.stack.nextPort) := Whose.sendTracked _ _ _ _
      have hconns : (o.stack.connect true now destIp destPort).2.conns =
          (o.stack.set i (Conn.opened now destIp destPort o.stack.nextPort)).conns := by
        unfold Stack.connect
        rw [hfree]
        rfl
      have hconn : ((o.stack.call (.connect true now destIp destPort)).2).conns i =
          Conn.opened now destIp destPort o.stack.nextPort := by
        show (o.stack.connect true now destIp destPort).2.conns i = _
        rw [hconns]
        exact update_self _ _ _
      have htakes : o.stack.takes (.connect true now destIp destPort) = some i := hfree
      rw [hconns]
      refine turn_open h htakes hconn hw.accepted ?_ (fun j hj => ?_) j
      · rw [hw.remoteIp, hw.remotePort, hw.localPort]
        exact hf rfl (by rw [hfree]; rfl)
      · exact hnote j (fun hj' => hj (Option.some.inj (hj'.symm.trans htakes)))

theorem turn (h : o.Ok) (hf : o.Fair c) (j : Nat) :
    Turn o c j (((o.stack.call c).2).conns j) (o.note c j) := by
  cases c with
  | connect configured now destIp destPort => exact turn_connect h hf j
  | accept port => exact turn_accept h hf j
  | listen port =>
    show Turn o _ j ((o.stack.listen port).2.conns j) (o.last j)
    rw [Stack.conns_listen]
    exact Turn.same h nofun
  | unlisten port => exact Turn.same h nofun
  | segment now srcIp s => exact turn_receive h hf j
  | tick now ok => exact turn_tick h now ok j
  | send handle now ok data => exact turn_through h rfl handle _ (fun hw => absurd hw hf) j
  | recv handle max =>
    exact turn_through h rfl handle _ (fun hw => ((h.tidy handle).waits hw).kept (Conn.recvInto_kept _ max)) j
  | close handle now => exact turn_through h rfl handle _ (fun hw => absurd hw hf) j

theorem slots_call (h : o.Ok) (c : Call) (j : Nat) (hin : (((o.stack.call c).2).conns j).inUse = true) :
    j < TCP_MAX_CONNECTIONS := by
  cases hold : (o.stack.conns j).inUse with
  | true => exact h.slots j hold
  | false =>
    have htakes := Stack.takes_of_opened hold hin
    exact (Stack.firstSlot_some (Stack.freeSlot_of_takes htakes)).1

theorem apart_call (h : o.Ok) (hf : o.Fair c) (i j : Nat)
    (hi : (((o.stack.call c).2).conns i).inUse = true) (hj : (((o.stack.call c).2).conns j).inUse = true)
    (hip : (((o.stack.call c).2).conns i).remoteIp = (((o.stack.call c).2).conns j).remoteIp)
    (hport : (((o.stack.call c).2).conns i).remotePort = (((o.stack.call c).2).conns j).remotePort)
    (hown : (((o.stack.call c).2).conns i).localPort = (((o.stack.call c).2).conns j).localPort) : i = j := by
  have hturni := turn h hf i
  have hturnj := turn h hf j
  generalize ((o.stack.call c).2).conns i = ci at *
  generalize ((o.stack.call c).2).conns j = cj at *
  generalize o.note c i = ri at hturni
  generalize o.note c j = rj at hturnj
  cases hturni with
  | kept _ hpi _ =>
    cases hturnj with
    | kept _ hpj _ =>
      exact h.apart i j (hpi.inUse hi) (hpj.inUse hj) (hpi.remoteIp.symm.trans (hip.trans hpj.remoteIp))
        (hpi.remotePort.symm.trans (hport.trans hpj.remotePort))
        (hpi.localPort.symm.trans (hown.trans hpj.localPort))
    | fresh b _ _ hnone =>
      exact absurd (hpi.localPort.symm.trans hown) (findConn_none h hnone (hpi.inUse hi)
        (hpi.remoteIp.symm.trans hip) (hpi.remotePort.symm.trans hport))
  | fresh b hti _ hnone =>
    cases hturnj with
    | kept _ hpj _ =>
      exact absurd (hpj.localPort.symm.trans hown.symm) (findConn_none h hnone (hpj.inUse hj)
        (hpj.remoteIp.symm.trans hip.symm) (hpj.remotePort.symm.trans hport.symm))
    | fresh b' htj _ _ => exact Option.some.inj (hti.symm.trans htj)

theorem tidy_call (h : o.Ok) (hf : o.Fair c) (j : Nat) :
    Tidy (((o.stack.call c).2).conns j) (o.note c j) := by
  have hturn := turn h hf j
  generalize ((o.stack.call c).2).conns j = c' at hturn
  generalize o.note c j = r at hturn
  cases hturn with
  | kept _ _ htidy => exact htidy
  | fresh b _ hacc _ => exact Tidy.fresh b hacc

theorem past_call (h : o.Ok) (c : Call) :
    ∀ r ∈ ((o.stack.takes c).map o.last).toList ++ o.past, r.Settled ∧ ¬ r.Waits := by
  intro r hr
  rcases List.mem_append.mp hr with hnew | hold
  · rw [Option.mem_toList, Option.map_eq_some_iff] at hnew
    obtain ⟨i, hi, hlast⟩ := hnew
    obtain ⟨-, hfree⟩ := Stack.firstSlot_some (Stack.freeSlot_of_takes hi)
    rw [← hlast]
    exact ⟨(h.tidy i).settled, (h.tidy i).free (by simpa using hfree)⟩
  · exact h.past r hold

theorem Ok.step (h : o.Ok) (hf : o.Fair c) : (logged.step o c).1.Ok where
  tidy := tidy_call h hf
  past := past_call h c
  slots := slots_call h c
  apart := apart_call h hf

theorem ok_init : init.Ok where
  tidy := fun _ => ⟨⟨Nat.zero_le 1, fun _ => rfl⟩, nofun, nofun, fun hw => nomatch hw.1⟩
  past := nofun
  slots := nofun
  apart := nofun

/-! ## Accepting until nobody waits -/

/-- What `tcp_accept` looks for. -/
def Queued (port : Nat) (c : Conn) : Prop :=
  c.inUse = true ∧ c.accepted = false ∧ c.localPort = port ∧ c.state = .established

/-- The first slots have nobody for the port in them. -/
def Drained (o : Log) (port k : Nat) : Prop := ∀ j < k, ¬ Queued port (o.stack.conns j)

theorem Drained.accept {k : Nat} (h : o.Drained port k) (hk : k < TCP_MAX_CONNECTIONS) :
    (logged.step o (.accept port)).1.Drained port (k + 1) := by
  intro j hj
  show ¬ Queued port ((o.stack.accept port).2.conns j)
  unfold Stack.accept
  split
  · rename_i i hi
    obtain ⟨hfound, -, hbefore⟩ := List.find?_range_eq_some.mp hi
    show ¬ Queued port (update o.stack.conns i _ j)
    by_cases hji : j = i
    · subst hji
      rw [update_self]
      exact fun hq => nomatch hq.2.1
    · rw [update_of_ne hji]
      rintro ⟨hin, hacc, hport, hst⟩
      rcases Nat.lt_or_ge j k with hlt | hge
      · exact h j hlt ⟨hin, hacc, hport, hst⟩
      · have hik : k ≤ i := by
          by_contra hlt
          simp only [Bool.and_eq_true, Bool.not_eq_true', decide_eq_true_eq] at hfound
          exact h i (by omega) ⟨hfound.1.1.1, hfound.1.1.2, hfound.1.2, hfound.2⟩
        have hfree := hbefore j (by omega)
        simp [hin, hacc, hport, hst] at hfree
  · rename_i hnone
    show ¬ Queued port (o.stack.conns j)
    rintro ⟨hin, hacc, hport, hst⟩
    unfold Stack.firstSlot at hnone
    rw [List.find?_eq_none] at hnone
    have hfree := hnone j (List.mem_range.mpr (by omega))
    simp [hin, hacc, hport, hst] at hfree

theorem Drained.accepts {port : Nat} (n : Nat) : ∀ (o : Log) (k : Nat), o.Drained port k →
    k + n ≤ TCP_MAX_CONNECTIONS → (logged.run o (List.replicate n (.accept port))).Drained port (k + n) := by
  induction n with
  | zero => exact fun o k h _ => h
  | succ n ih =>
    intro o k h hk
    rw [show k + (n + 1) = k + 1 + n by omega]
    exact ih _ (k + 1) (h.accept (by omega)) (by omega)

end Log

/-! ## Every connection -/

/-- **Whoever connects is accepted, once.** -/
theorem accept_exactly_once (calls : List Call) (port : Nat)
    (hg : logged.Guarded Log.Fair Log.init (calls ++ List.replicate TCP_MAX_CONNECTIONS (.accept port))) :
    let o := logged.run Log.init (calls ++ List.replicate TCP_MAX_CONNECTIONS (.accept port))
    (∀ r ∈ o.records, r.returned ≤ 1 ∧ (r.passive = false → r.returned = 0) ∧
      (r.port = port → r.passive = true → r.completed = true → r.reset = false → r.returned = 1)) ∧
    ∀ i j, (o.stack.conns i).inUse = true → (o.stack.conns j).inUse = true →
      (o.stack.conns i).remoteIp = (o.stack.conns j).remoteIp →
      (o.stack.conns i).remotePort = (o.stack.conns j).remotePort →
      (o.stack.conns i).localPort = (o.stack.conns j).localPort → i = j := by
  have hok := logged.invariant_of_step (fun (o : Log) _ (h : o.Ok) hf => h.step hf) _ Log.init Log.ok_init hg
  have hdrained : (logged.run Log.init
      (calls ++ List.replicate TCP_MAX_CONNECTIONS (.accept port))).Drained port TCP_MAX_CONNECTIONS := by
    rw [logged.run_append]
    have hall := @Log.Drained.accepts port TCP_MAX_CONNECTIONS (logged.run Log.init calls) 0
      (fun j hj => (by omega)) (Nat.le_refl _)
    rwa [Nat.zero_add] at hall
  intro o
  have hnobody : ∀ r ∈ o.records, r.Settled ∧ (r.port = port → ¬ r.Waits) := by
    intro r hr
    rcases List.mem_append.mp hr with hpast | hlast
    · exact ⟨(hok.past r hpast).1, fun _ => (hok.past r hpast).2⟩
    · obtain ⟨j, hj, rfl⟩ := List.mem_map.mp hlast
      refine ⟨(hok.tidy j).settled, fun hport hw => ?_⟩
      have hidle := (hok.tidy j).waits hw
      have hacc := (hok.tidy j).accepted hidle.inUse
      rw [hw.2.2.2] at hacc
      exact hdrained j (List.mem_range.mp hj)
        ⟨hidle.inUse, hacc, ((hok.tidy j).port hidle.inUse).symm.trans hport, hidle.state⟩
  refine ⟨fun r hr => ⟨(hnobody r hr).1.once, (hnobody r hr).1.dialled, ?_⟩, hok.apart⟩
  intro hport hpassive hcomp hreset
  have honce := (hnobody r hr).1.once
  by_contra hne
  exact (hnobody r hr).2 hport ⟨hpassive, hcomp, hreset, by omega⟩

theorem clientSeq_lt : 100 < 0x100000000 := by decide

theorem clientNext_lt : 101 < 0x100000000 := by decide

theorem noAck_lt : 0 < 0x100000000 := by decide

theorem serverNext_lt : 0x4E560001 < 0x100000000 := by decide

/-- The segments of a client's handshake with port 80. -/
def handshake : List Call :=
  [.listen 80, .segment 0 0x0A000203 ⟨1234, 80, 100, 0, TCP_SYN, [], clientSeq_lt, noAck_lt⟩,
    .segment 1 0x0A000203 ⟨1234, 80, 101, 0x4E560001, TCP_ACK, [], clientNext_lt, serverNext_lt⟩]

/-- Its FIN, before anyone accepts it. -/
def clientFin : Call :=
  .segment 2 0x0A000203 ⟨1234, 80, 101, 0x4E560001, TCP_ACK ||| TCP_FIN, [], clientNext_lt, serverNext_lt⟩

theorem accept_exactly_once_handshake :
    ((logged.run Log.init (handshake ++ List.replicate TCP_MAX_CONNECTIONS (.accept 80))).last 0).passive = true ∧
      ((logged.run Log.init (handshake ++ List.replicate TCP_MAX_CONNECTIONS (.accept 80))).last 0).returned = 1 := by
  refine ⟨by decide, ?_⟩
  obtain ⟨hall, -⟩ := accept_exactly_once handshake 80 (by decide)
  refine (hall _ (List.mem_append_right _ (List.mem_map_of_mem (List.mem_range.mpr (by decide))))).2.2 ?_ ?_ ?_ ?_
  · decide
  · decide
  · decide
  · decide

/-- A client finishes before it is accepted and is never returned; a dialled
connection is returned by `tcp_accept`; and a dialled connection has the
peer and the port of a client's. -/
theorem accept_inexact :
    (∃ r ∈ (logged.run Log.init (handshake ++ [clientFin] ++
        List.replicate TCP_MAX_CONNECTIONS (.accept 80))).records,
      r.port = 80 ∧ r.passive = true ∧ r.completed = true ∧ r.reset = false ∧ r.returned = 0) ∧
    (∃ r ∈ (logged.run Log.init [.listen 49152, .connect true 0 0x0A000202 7,
        .segment 1 0x0A000202 ⟨7, 49152, 500, 0x4E560001, TCP_SYN ||| TCP_ACK, [], by decide, by decide⟩,
        .accept 49152]).records,
      r.passive = false ∧ r.returned = 1) ∧
    ∃ o, o = logged.run Log.init [.listen 49152,
        .segment 0 0x0A000202 ⟨7, 49152, 100, 0, TCP_SYN, [], by decide, by decide⟩,
        .connect true 1 0x0A000202 7] ∧
      (o.stack.conns 0).inUse = true ∧ (o.stack.conns 1).inUse = true ∧
      (o.stack.conns 0).remoteIp = (o.stack.conns 1).remoteIp ∧
      (o.stack.conns 0).remotePort = (o.stack.conns 1).remotePort ∧
      (o.stack.conns 0).localPort = (o.stack.conns 1).localPort := by
  refine ⟨?_, ?_, ?_⟩
  · decide
  · decide
  · exact ⟨_, rfl, by decide, by decide, by decide, by decide, by decide⟩

end NovarisOS.Tcp
