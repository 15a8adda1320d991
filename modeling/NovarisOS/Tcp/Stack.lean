/-
NovarisOS.Tcp.Stack — the table of connections of `kernel/tcp.c`.

Four slots, the next ephemeral port and the ports something listens on. A
handle is the index of a slot. A segment reaches `receive` when its header
has a possible length and its checksum is right; what the resets say that
answer the others does not come back.
-/
import NovarisOS.Tcp.ConnTheorems

namespace NovarisOS.Tcp

open Function (update update_of_ne update_self)

abbrev TCP_MAX_CONNECTIONS : Nat := 4
abbrev TCP_MAX_LISTEN : Nat := 4

structure Stack where
  conns : Nat → Conn
  nextPort : Nat
  listening : Nat → Nat

/-- The tables as they are before the first call. -/
def Stack.init : Stack := ⟨fun _ => Conn.zero, 49152, fun _ => 0⟩

namespace Stack

/-- The first slot that passes the test. -/
def firstSlot (t : Stack) (p : Conn → Bool) : Option Nat :=
  (List.range TCP_MAX_CONNECTIONS).find? fun i => p (t.conns i)

def set (t : Stack) (i : Nat) (c : Conn) : Stack := { t with conns := update t.conns i c }

def findConn (t : Stack) (remoteIp remotePort localPort : Nat) : Option Nat :=
  t.firstSlot fun c => c.inUse && c.remoteIp = remoteIp && c.remotePort = remotePort && c.localPort = localPort

def isListening (t : Stack) (port : Nat) : Bool :=
  (List.range TCP_MAX_LISTEN).any fun i => t.listening i = port

/-- A slot that is not in use. -/
def freeSlot (t : Stack) : Option Nat := t.firstSlot fun c => !c.inUse

def acceptSyn (t : Stack) (now srcIp srcPort destPort theirSeq : Nat) : Stack :=
  match t.freeSlot with
  | some i => t.set i (Conn.answered now srcIp srcPort destPort theirSeq)
  | none => t

/-- `tcp_receive`. -/
def receive (t : Stack) (now srcIp : Nat) (s : Segment) : Stack :=
  match t.findConn srcIp s.srcPort s.destPort with
  | some i => t.set i ((t.conns i).receive now s)
  | none =>
    if syn s.flags && !ack s.flags && t.isListening s.destPort then
      t.acceptSyn now srcIp s.srcPort s.destPort s.seq
    else t

/-- `tcp_connect`. -/
def connect (t : Stack) (configured : Bool) (now destIp destPort : Nat) : Int × Stack :=
  if !configured then (-1, t)
  else
    match t.freeSlot with
    | some i =>
      let next := (t.nextPort + 1) % 0x10000
      (i, { t.set i (Conn.opened now destIp destPort t.nextPort) with
            nextPort := if next < 49152 then 49152 else next })
    | none => (-2, t)

def handleConn (t : Stack) (handle : Nat) : Option Conn :=
  if handle < TCP_MAX_CONNECTIONS ∧ (t.conns handle).inUse then some (t.conns handle) else none

/-- A call through a handle. -/
def through (t : Stack) (handle : Nat) (e : Event) : Stack :=
  match t.handleConn handle with
  | some c => t.set handle (c.after e)
  | none => t

/-- `tcp_tick`: every slot that is in use. -/
def tick (t : Stack) (now : Nat) (ok : Nat → Bool) : Stack :=
  { t with
    conns := fun i =>
      if i < TCP_MAX_CONNECTIONS ∧ (t.conns i).inUse then (t.conns i).tick now (ok i) else t.conns i }

/-- `tcp_accept`. -/
def accept (t : Stack) (port : Nat) : Int × Stack :=
  match t.firstSlot fun c => c.inUse && !c.accepted && c.localPort = port && c.state = .established with
  | some i => (i, t.set i { t.conns i with accepted := true })
  | none => (-1, t)

/-- `tcp_listen`. -/
def listen (t : Stack) (port : Nat) : Int × Stack :=
  if port = 0 then (-1, t)
  else if t.isListening port then (0, t)
  else
    match (List.range TCP_MAX_LISTEN).find? fun i => t.listening i = 0 with
    | some i => (0, { t with listening := update t.listening i port })
    | none => (-1, t)

def unlisten (t : Stack) (port : Nat) : Stack :=
  { t with listening := fun i => if t.listening i = port then 0 else t.listening i }

end Stack

/-! ## The calls -/

inductive Call where
  | connect (configured : Bool) (now destIp destPort : Nat)
  | accept (port : Nat)
  | listen (port : Nat)
  | unlisten (port : Nat)
  | segment (now srcIp : Nat) (s : Segment)
  | tick (now : Nat) (ok : Nat → Bool)
  | send (handle now : Nat) (ok : Bool) (data : List UInt8)
  | recv (handle max : Nat)
  | close (handle now : Nat)

/-- The handle that the call returns, and the table after it. -/
def Stack.call (t : Stack) : Call → Int × Stack
  | .connect configured now destIp destPort => t.connect configured now destIp destPort
  | .accept port => t.accept port
  | .listen port => (-1, (t.listen port).2)
  | .unlisten port => (-1, t.unlisten port)
  | .segment now srcIp s => (-1, t.receive now srcIp s)
  | .tick now ok => (-1, t.tick now ok)
  | .send handle now ok data => (-1, t.through handle (.send now ok data))
  | .recv handle max => (-1, t.through handle (.recv max))
  | .close handle now => (-1, t.through handle (.close now))

/-! ## What becomes of a slot -/

namespace Stack

/-- The free slot that the call takes. -/
def takes (t : Stack) : Call → Option Nat
  | .connect configured _ _ _ => if configured then t.freeSlot else none
  | .segment _ srcIp s =>
    if (t.findConn srcIp s.srcPort s.destPort).isNone && syn s.flags && !ack s.flags && t.isListening s.destPort
    then t.freeSlot else none
  | _ => none

end Stack

/-- What a call can do to a slot. -/
inductive Slot (t : Stack) (call : Call) (j : Nat) : Conn → Prop where
  | same : Slot t call j (t.conns j)
  | event (e : Event) : (t.conns j).inUse = true → Slot t call j ((t.conns j).after e)
  | accepted : (t.conns j).inUse = true → Slot t call j { t.conns j with accepted := true }
  | opened {c : Conn} : t.takes call = some j → (t.conns j).inUse = false → c.inUse = true → Slot t call j c

namespace Stack

variable {t : Stack} {call : Call}

theorem firstSlot_some {p : Conn → Bool} {i : Nat} (h : t.firstSlot p = some i) :
    i < TCP_MAX_CONNECTIONS ∧ p (t.conns i) = true := by
  have hfound := @List.find?_some _ (fun i => p (t.conns i)) i (List.range TCP_MAX_CONNECTIONS) h
  exact ⟨List.mem_range.mp (List.mem_of_find?_eq_some h), hfound⟩

theorem slot_set {i : Nat} {c : Conn} (h : Slot t call i c) (j : Nat) :
    Slot t call j ((t.set i c).conns j) := by
  show Slot t call j (update t.conns i c j)
  by_cases hj : j = i
  · subst hj
    rw [update_self]
    exact h
  · rw [update_of_ne hj]
    exact .same

theorem slot_open {i : Nat} {c : Conn} (htakes : t.takes call = t.freeSlot) (h : t.freeSlot = some i)
    (hc : c.inUse = true) (j : Nat) : Slot t call j ((t.set i c).conns j) := by
  obtain ⟨-, hfree⟩ := firstSlot_some h
  exact slot_set (.opened (htakes.trans h) (by simpa using hfree) hc) j

theorem inUse_sendTracked (c : Conn) (now flags : Nat) (data : List UInt8) :
    (c.sendTracked now flags data).inUse = c.inUse := by
  obtain ⟨window, hw⟩ := c.sendTracked_eq now flags data
  rw [hw]

theorem slot_receive (t : Stack) (now srcIp : Nat) (s : Segment) (j : Nat) :
    Slot t (.segment now srcIp s) j ((t.receive now srcIp s).conns j) := by
  unfold receive
  split
  · rename_i i hi
    obtain ⟨-, hfound⟩ := firstSlot_some hi
    simp only [Bool.and_eq_true] at hfound
    exact slot_set (.event (.segment now s) hfound.1.1.1) j
  · rename_i hnone
    split
    · rename_i hsyn
      have htakes : t.takes (.segment now srcIp s) = t.freeSlot := by
        simp [takes, hnone, hsyn]
      unfold acceptSyn
      split
      · rename_i i hi
        exact slot_open htakes hi (inUse_sendTracked _ _ _ _) j
      · exact .same
    · exact .same

theorem slot_through (t : Stack) (handle : Nat) (e : Event) (j : Nat) :
    Slot t call j ((t.through handle e).conns j) := by
  unfold through handleConn
  split
  · rename_i c hc
    split at hc
    · rename_i hin
      cases hc
      exact slot_set (.event e hin.2) j
    · cases hc
  · exact .same

theorem slot_tick (t : Stack) (now : Nat) (ok : Nat → Bool) (j : Nat) :
    Slot t call j ((t.tick now ok).conns j) := by
  show Slot t call j (if j < TCP_MAX_CONNECTIONS ∧ (t.conns j).inUse then _ else _)
  split
  · rename_i hin
    exact .event (.tick now (ok j)) hin.2
  · exact .same

theorem slot_connect (t : Stack) (configured : Bool) (now destIp destPort : Nat) (j : Nat) :
    Slot t (.connect configured now destIp destPort) j ((t.connect configured now destIp destPort).2.conns j) := by
  unfold connect
  split
  · exact .same
  · rename_i hconf
    have htakes : t.takes (.connect configured now destIp destPort) = t.freeSlot := by
      simp only [Bool.not_eq_true', Bool.not_eq_false] at hconf
      simp [takes, hconf]
    split
    · rename_i i hi
      exact slot_open htakes hi (inUse_sendTracked _ _ _ _) j
    · exact .same

theorem slot_accept (t : Stack) (port : Nat) (j : Nat) : Slot t call j ((t.accept port).2.conns j) := by
  unfold accept
  split
  · rename_i i hi
    obtain ⟨-, hfound⟩ := firstSlot_some hi
    simp only [Bool.and_eq_true] at hfound
    exact slot_set (.accepted hfound.1.1.1) j
  · exact .same

theorem conns_listen (t : Stack) (port : Nat) : (t.listen port).2.conns = t.conns := by
  unfold listen
  split
  · rfl
  · split
    · rfl
    · split <;> rfl

theorem slot_call (t : Stack) (c : Call) (j : Nat) : Slot t c j ((t.call c).2.conns j) := by
  cases c with
  | connect configured now destIp destPort => exact slot_connect t configured now destIp destPort j
  | accept port => exact slot_accept t port j
  | listen port =>
    show Slot t _ j ((t.listen port).2.conns j)
    rw [conns_listen]
    exact .same
  | unlisten port => exact .same
  | segment now srcIp s => exact slot_receive t now srcIp s j
  | tick now ok => exact slot_tick t now ok j
  | send handle now ok data => exact slot_through t handle _ j
  | recv handle max => exact slot_through t handle _ j
  | close handle now => exact slot_through t handle _ j

end Stack

end NovarisOS.Tcp
