/-
NovarisOS.Input64.Queues — the two input devices: `kernel/input64.c`.

An event is one unit here: `input64_read` copies whole events. A body is the
fields of an event that are not its time. A byte of the stream is a number
below 256. `unread` is what is in a queue; a push into a full one is dropped.
-/
import Mathlib.Data.Nat.Bitwise
import NovarisOS.Lib.Ring

namespace NovarisOS.Input64

open Function (update update_of_ne update_self)

abbrev QUEUE_MAX : Nat := 256
abbrev EVENT_BYTES : Nat := 24
abbrev EV64_SYN : Nat := 0
abbrev EV64_KEY : Nat := 1
abbrev EV64_REL : Nat := 2
abbrev REL64_X : Nat := 0
abbrev REL64_Y : Nat := 1
abbrev BTN64_LEFT : Nat := 0x110
abbrev BTN64_RIGHT : Nat := 0x111
abbrev BTN64_MIDDLE : Nat := 0x112
abbrev SYN64_REPORT : Nat := 0
abbrev SC_LSHIFT : Nat := 0x2A
abbrev SC_RSHIFT : Nat := 0x36
abbrev SC_CTRL : Nat := 0x1D
abbrev SC_ALT : Nat := 0x38

/-- A bit of `modifiers`: `INPUT64_MOD_SHIFT`, `INPUT64_MOD_CTRL`,
`INPUT64_MOD_ALT`. -/
inductive Modifier where
  | shift
  | ctrl
  | alt
  deriving DecidableEq, Repr

/-- The number of the bit. -/
def Modifier.bit : Modifier → Nat
  | shift => 0
  | ctrl => 1
  | alt => 2

/-- `input64_event_t` without its time. -/
structure Body where
  type : Nat
  code : Nat
  value : Int
  deriving DecidableEq, Repr

/-- `input64_event_t`. -/
structure Event extends Body where
  tvSec : Nat
  tvUsec : Nat
  deriving DecidableEq, Repr

/-- `queue_t`. -/
structure Queue where
  ev : Nat → Event
  head : Nat
  tail : Nat
  dropped : Nat

/-- The two devices: `INPUT64_KBD` and `INPUT64_MOUSE`. -/
inductive Device where
  | kbd
  | mouse
  deriving DecidableEq, Repr

/-- The variables of the file. -/
structure Input where
  queues : Device → Queue
  modifiers : Nat
  eventSeq : Nat
  kbdExtended : Bool
  mousePacket : Nat → Nat
  mouseIndex : Nat
  mouseButtons : Nat

/-! ## Feeding -/

def push (s : Input) (dev : Device) (b : Body) : Input :=
  let q := s.queues dev
  let next := (q.head + 1) % QUEUE_MAX
  if next = q.tail then
    { s with queues := update s.queues dev { q with dropped := q.dropped + 1 } }
  else
    let e : Event := { b with tvSec := s.eventSeq / 1000000, tvUsec := s.eventSeq % 1000000 }
    { s with
      queues := update s.queues dev { q with ev := update q.ev q.head e, head := next }
      eventSeq := s.eventSeq + 1 }

/-- What `sync_report` pushes. -/
def syn : Body := ⟨EV64_SYN, SYN64_REPORT, 0⟩

def syncReport (s : Input) (dev : Device) : Input := push s dev syn

/-- The modifier whose bit a scancode sets. -/
def modifierOf (code : Nat) : Option Modifier :=
  if code = SC_LSHIFT ∨ code = SC_RSHIFT then some .shift
  else if code = SC_CTRL then some .ctrl
  else if code = SC_ALT then some .alt
  else none

/-- `modifiers` with the bit set or cleared. -/
def setModifier (modifiers : Nat) (m : Option Modifier) (released : Bool) : Nat :=
  match m with
  | none => modifiers
  | some m => if released then modifiers &&& (0xFFFFFFFF ^^^ 2 ^ m.bit) else modifiers ||| 2 ^ m.bit

def input64FeedScancode (s : Input) (byte : Nat) : Input :=
  if byte = 0xE0 then { s with kbdExtended := true }
  else
    let released := 0x80 ≤ byte
    let code := byte % 0x80
    let s := { s with kbdExtended := false, modifiers := setModifier s.modifiers (modifierOf code) released }
    let s := push s .kbd ⟨EV64_KEY, code, if released then 0 else 1⟩
    syncReport s .kbd

/-- A first byte of a packet. -/
def firstByte (byte : Nat) : Bool := byte &&& 0x08 ≠ 0 && byte &&& 0xC0 = 0

/-- A movement: nine bits, with the sign in the flags. -/
def movement (low flags sign : Nat) : Int := if flags &&& sign ≠ 0 then (low : Int) - 0x100 else low

/-- The third byte of a packet has come. -/
def mouseReport (s : Input) : Input :=
  let flags := s.mousePacket 0
  let dx := movement (s.mousePacket 1) flags 0x10
  let dy := movement (s.mousePacket 2) flags 0x20
  let now := flags &&& 0x07
  let changed := now ^^^ s.mouseButtons
  let s := if changed &&& 0x01 ≠ 0 then
    push s .mouse ⟨EV64_KEY, BTN64_LEFT, if now &&& 0x01 ≠ 0 then 1 else 0⟩ else s
  let s := if changed &&& 0x02 ≠ 0 then
    push s .mouse ⟨EV64_KEY, BTN64_RIGHT, if now &&& 0x02 ≠ 0 then 1 else 0⟩ else s
  let s := if changed &&& 0x04 ≠ 0 then
    push s .mouse ⟨EV64_KEY, BTN64_MIDDLE, if now &&& 0x04 ≠ 0 then 1 else 0⟩ else s
  let s := { s with mouseButtons := now }
  let s := if dx ≠ 0 then push s .mouse ⟨EV64_REL, REL64_X, dx⟩ else s
  let s := if dy ≠ 0 then push s .mouse ⟨EV64_REL, REL64_Y, -dy⟩ else s
  if changed ≠ 0 ∨ dx ≠ 0 ∨ dy ≠ 0 then syncReport s .mouse else s

def input64FeedMouseByte (s : Input) (byte : Nat) : Input :=
  if s.mouseIndex = 0 ∧ !firstByte byte then s
  else
    let s := { s with
      mousePacket := update s.mousePacket s.mouseIndex byte
      mouseIndex := s.mouseIndex + 1 }
    if s.mouseIndex < 3 then s else mouseReport { s with mouseIndex := 0 }

/-! ## Reading -/

/-- The loop of `input64_read`, with room for `n` more events. -/
def readLoop : (n : Nat) → Queue → List Event × Queue
  | 0, q => ([], q)
  | n + 1, q =>
    if q.tail = q.head then ([], q)
    else
      let (rest, q') := readLoop n { q with tail := (q.tail + 1) % QUEUE_MAX }
      (q.ev q.tail :: rest, q')

/-- The device of a number. -/
def deviceOf (device : Int) : Option Device :=
  if device = 0 then some .kbd else if device = 1 then some .mouse else none

/-- `input64_read`: the events copied to `buf`. -/
def input64Read (s : Input) (device : Int) (buf len : Nat) : List Event × Input :=
  match deviceOf device with
  | none => ([], s)
  | some dev =>
    if buf = 0 then ([], s)
    else
      let (events, q) := readLoop (len / EVENT_BYTES) (s.queues dev)
      (events, { s with queues := update s.queues dev q })

/-- `input64_queued`. -/
def queued (q : Queue) : Nat := (q.head + QUEUE_MAX - q.tail) % QUEUE_MAX

/-- `input64_reset`: the events in the rings stay where they are. -/
def input64Reset (s : Input) : Input :=
  { s with
    queues := fun dev => { s.queues dev with head := 0, tail := 0, dropped := 0 }
    modifiers := 0, kbdExtended := false, mouseIndex := 0, mouseButtons := 0 }

/-! ## What is in a queue -/

/-- The events that have not been read, oldest first. -/
def unread (q : Queue) : List Event := RingBuffer.contents QUEUE_MAX q.ev q.tail (queued q)

/-- Both ends are places of the ring. -/
structure Queue.Sound (q : Queue) : Prop where
  head : q.head < QUEUE_MAX
  tail : q.tail < QUEUE_MAX

variable {q : Queue} {s : Input} {dev dev' : Device}

theorem queued_lt (q : Queue) : queued q < QUEUE_MAX := Nat.mod_lt _ (by decide)

theorem length_unread (q : Queue) : (unread q).length = queued q := RingBuffer.length_contents _ _ _ _

theorem Queue.Sound.head_eq (h : q.Sound) : (q.tail + queued q) % QUEUE_MAX = q.head := by
  have h₁ := h.head
  have h₂ := h.tail
  simp only [queued, QUEUE_MAX] at *
  omega

theorem unread_put (h : q.Sound) (hroom : queued q + 1 < QUEUE_MAX) (e : Event) :
    unread { q with ev := update q.ev q.head e, head := (q.head + 1) % QUEUE_MAX } = unread q ++ [e] := by
  have hq : queued { q with ev := update q.ev q.head e, head := (q.head + 1) % QUEUE_MAX } = queued q + 1 := by
    have h₂ := h.tail
    simp only [queued, QUEUE_MAX] at *
    omega
  rw [unread, hq, RingBuffer.contents_add, unread]
  congr 1
  · refine RingBuffer.contents_congr fun i hi => update_of_ne ?_ _ _
    have := RingBuffer.place_ne (n := QUEUE_MAX) q.tail hi Nat.zero_lt_one (by omega)
    rwa [Nat.add_zero, h.head_eq] at this
  · simp only [RingBuffer.contents, List.range_one, List.map_singleton, Nat.add_zero]
    rw [h.head_eq, Nat.mod_eq_of_lt h.head, update_self]

theorem queued_full (h : q.Sound) : (q.head + 1) % QUEUE_MAX = q.tail ↔ queued q + 1 = QUEUE_MAX := by
  have h₂ := h.tail
  simp only [queued, QUEUE_MAX] at *
  omega

/-- The bodies of the events of a device that have not been read. -/
def Input.bodies (s : Input) (dev : Device) : List Body := (unread (s.queues dev)).map (·.toBody)

/-- The room in a queue. -/
def Input.room (s : Input) (dev : Device) : Nat := QUEUE_MAX - 1 - queued (s.queues dev)

def Input.Sound (s : Input) : Prop := ∀ dev, (s.queues dev).Sound

theorem length_bodies (s : Input) (dev : Device) : (s.bodies dev).length = queued (s.queues dev) := by
  rw [Input.bodies, List.length_map, length_unread]

theorem push_sound (h : s.Sound) (dev : Device) (b : Body) : (push s dev b).Sound := by
  intro dev'
  unfold push
  simp only
  split <;> by_cases hd : dev' = dev
  · subst hd
    simp only [update_self]
    exact ⟨(h dev').head, (h dev').tail⟩
  · simp only [update_of_ne hd]
    exact h dev'
  · subst hd
    simp only [update_self]
    exact ⟨Nat.mod_lt _ (by decide), (h dev').tail⟩
  · simp only [update_of_ne hd]
    exact h dev'

theorem bodies_push (h : s.Sound) (dev : Device) (b : Body) :
    (push s dev b).bodies dev = s.bodies dev ++ [b].take (s.room dev) := by
  have hlt := queued_lt (s.queues dev)
  unfold push
  simp only
  split
  · rename_i hfull
    have hroom : s.room dev = 0 := by
      have := (queued_full (h dev)).1 hfull
      rw [Input.room]
      omega
    simp only [hroom, List.take_zero, List.append_nil, Input.bodies, update_self]
    rfl
  · rename_i hfull
    have hne := mt (queued_full (h dev)).2 hfull
    have hroom : s.room dev = s.room dev - 1 + 1 := by
      simp only [Input.room]
      omega
    rw [hroom, List.take_succ_cons, List.take_nil]
    simp only [Input.bodies, update_self, unread_put (h dev) (by omega), List.map_append, List.map_singleton]

theorem bodies_push_of_ne (hd : dev' ≠ dev) (b : Body) : (push s dev b).bodies dev' = s.bodies dev' := by
  unfold push
  simp only
  split <;> simp only [Input.bodies, update_of_ne hd]

theorem room_push (h : s.Sound) (dev : Device) (b : Body) : (push s dev b).room dev = s.room dev - 1 := by
  have hlen := congrArg List.length (bodies_push h dev b)
  rw [length_bodies, List.length_append, length_bodies, List.length_take, List.length_singleton] at hlen
  simp only [Input.room] at *
  omega

theorem readLoop_eq (h : q.Sound) (n : Nat) :
    (readLoop n q).1 ++ unread (readLoop n q).2 = unread q ∧ (readLoop n q).2.Sound := by
  induction n generalizing q with
  | zero => exact ⟨rfl, h⟩
  | succ n ih =>
    rw [readLoop]
    split
    · exact ⟨rfl, h⟩
    · rename_i hne
      have hnext : Queue.Sound { q with tail := (q.tail + 1) % QUEUE_MAX } := ⟨h.head, Nat.mod_lt _ (by decide)⟩
      obtain ⟨heq, hsound⟩ := ih hnext
      refine ⟨?_, hsound⟩
      have hq : queued q = 1 + queued { q with tail := (q.tail + 1) % QUEUE_MAX } := by
        have h₁ := h.head
        have h₂ := h.tail
        simp only [queued, QUEUE_MAX] at *
        omega
      have hfirst : unread q = q.ev q.tail :: unread { q with tail := (q.tail + 1) % QUEUE_MAX } := by
        rw [unread, hq, RingBuffer.contents_add]
        simp only [RingBuffer.contents, List.range_one, List.map_singleton, Nat.add_zero, List.singleton_append]
        rw [Nat.mod_eq_of_lt h.tail]
        rfl
      rw [hfirst, List.cons_append]
      exact congrArg _ heq

end NovarisOS.Input64
