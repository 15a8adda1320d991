/-
NovarisOS.Tcp.Receiver — what the peer sent is what is read.

The peer has a stream `S`, and its segments are slices of it, each with the
sequence number of the place it was cut from, in any order and any number of
times (`Conforms`). A `Receiver` keeps what `tcp_recv` has returned so far.
-/
import NovarisOS.Tcp.ConnTheorems
import NovarisOS.Lib.Ring

namespace NovarisOS.Tcp

open RingBuffer (contents)

/-! ## The ring -/

namespace Conn

/-- How many bytes wait to be read. -/
def recvCount (c : Conn) : Nat := (c.recvHead + TCP_RECV_BUFFER - c.recvTail) % TCP_RECV_BUFFER

/-- The bytes that wait to be read. -/
def held (c : Conn) : List UInt8 := contents TCP_RECV_BUFFER c.recv c.recvTail c.recvCount

/-- The two ends of the ring are places in it. -/
structure RingOk (c : Conn) : Prop where
  head : c.recvHead < TCP_RECV_BUFFER
  tail : c.recvTail < TCP_RECV_BUFFER

variable {c : Conn}

@[simp] theorem length_held (c : Conn) : c.held.length = c.recvCount := RingBuffer.length_contents ..

theorem recvFree_eq (h : c.RingOk) : c.recvFree = TCP_RECV_BUFFER - 1 - c.recvCount := by
  have htail := h.tail
  simp only [recvFree, recvCount, seqSub, wrap32, TCP_RECV_BUFFER] at *
  omega

theorem recvHead_eq (h : c.RingOk) : c.recvHead = (c.recvTail + c.recvCount) % TCP_RECV_BUFFER := by
  have hhead := h.head
  have htail := h.tail
  simp only [recvCount, TCP_RECV_BUFFER] at *
  omega

theorem recvCount_eq_zero (h : c.RingOk) : c.recvCount = 0 ↔ c.recvTail = c.recvHead := by
  have hhead := h.head
  have htail := h.tail
  simp only [recvCount, TCP_RECV_BUFFER] at *
  omega

theorem held_push (h : c.RingOk) (b : UInt8) (hroom : 0 < c.recvFree) :
    let c' := { c with
      recv := Function.update c.recv c.recvHead b, recvHead := (c.recvHead + 1) % TCP_RECV_BUFFER }
    c'.RingOk ∧ c'.recvCount = c.recvCount + 1 ∧ c'.held = c.held ++ [b] := by
  have hhead := h.head
  have htail := h.tail
  have hplace := recvHead_eq h
  rw [recvFree_eq h] at hroom
  intro c'
  have hok : c'.RingOk := ⟨Nat.mod_lt _ (by decide), htail⟩
  have hcount : c'.recvCount = c.recvCount + 1 := by
    show ((c.recvHead + 1) % TCP_RECV_BUFFER + TCP_RECV_BUFFER - c.recvTail) % TCP_RECV_BUFFER = _
    simp only [recvCount, TCP_RECV_BUFFER] at *
    omega
  refine ⟨hok, hcount, ?_⟩
  show contents TCP_RECV_BUFFER (Function.update c.recv c.recvHead b) c.recvTail c'.recvCount = _
  rw [hcount, RingBuffer.contents_add, held, ← hplace]
  congr 1
  · have hfits : c.recvCount + 1 ≤ TCP_RECV_BUFFER := by omega
    refine RingBuffer.contents_write c.recv hfits fun p hp => ?_
    exact Function.update_of_ne (by omega) _ _
  · rw [contents, List.range_one, List.map_singleton, Nat.add_zero, Nat.mod_eq_of_lt hhead, Function.update_self]

theorem recvPush_held (data : List UInt8) : ∀ {c : Conn}, c.RingOk → data.length ≤ c.recvFree →
    (c.recvPush data).RingOk ∧ (c.recvPush data).held = c.held ++ data := by
  induction data with
  | nil =>
    intro c h _
    exact ⟨h, (List.append_nil _).symm⟩
  | cons b data ih =>
    intro c h hroom
    rw [List.length_cons] at hroom
    obtain ⟨hok, hcount, hheld⟩ := held_push h b (by omega)
    have hnext : (c.recvHead + 1) % TCP_RECV_BUFFER ≠ c.recvTail := by
      simp only [recvCount, TCP_RECV_BUFFER] at *
      omega
    rw [recvPush, if_neg hnext]
    obtain ⟨hok', hheld'⟩ := ih hok (by
      rw [recvFree_eq hok, hcount]
      rw [recvFree_eq h] at hroom
      omega)
    exact ⟨hok', by rw [hheld', hheld, List.append_assoc, List.singleton_append]⟩

theorem held_pop (h : c.RingOk) (hsome : c.recvTail ≠ c.recvHead) :
    let c' := { c with recvTail := (c.recvTail + 1) % TCP_RECV_BUFFER }
    c'.RingOk ∧ c.held = c.recv c.recvTail :: c'.held := by
  have hhead := h.head
  have htail := h.tail
  intro c'
  have hcount : c.recvCount = 1 + c'.recvCount := by
    show _ = 1 + (c.recvHead + TCP_RECV_BUFFER - (c.recvTail + 1) % TCP_RECV_BUFFER) % TCP_RECV_BUFFER
    simp only [recvCount, TCP_RECV_BUFFER] at *
    omega
  refine ⟨⟨hhead, Nat.mod_lt _ (by decide)⟩, ?_⟩
  rw [held, hcount, RingBuffer.contents_add, contents, List.range_one, List.map_singleton, Nat.add_zero,
    Nat.mod_eq_of_lt htail]
  rfl

theorem recvLoop_spec (max : Nat) : ∀ {c : Conn} (out : List UInt8), c.RingOk →
    ∃ tail, c.recvLoop max out = (out ++ c.held.take max, { c with recvTail := tail }) ∧
      { c with recvTail := tail }.RingOk ∧ { c with recvTail := tail }.held = c.held.drop max := by
  induction max with
  | zero =>
    intro c out h
    exact ⟨c.recvTail, by rw [recvLoop, List.take_zero, List.append_nil], h, rfl⟩
  | succ max ih =>
    intro c out h
    rw [recvLoop]
    split
    · rename_i hsome
      obtain ⟨hok, hheld⟩ := held_pop h hsome
      obtain ⟨tail, hloop, hok', hheld'⟩ := ih (out ++ [c.recv c.recvTail]) hok
      refine ⟨tail, ?_, hok', ?_⟩
      · rw [hloop, hheld, List.take_succ_cons, List.append_assoc, List.singleton_append]
      · rw [hheld, List.drop_succ_cons]
        exact hheld'
    · rename_i hnone
      have hempty : c.held = [] := by
        have hcount := (recvCount_eq_zero h).mpr (by simpa using hnone)
        rw [held, hcount, RingBuffer.contents_zero]
      exact ⟨c.recvTail, by rw [hempty, List.take_nil, List.append_nil], h, by rw [hempty, List.drop_nil]⟩

theorem recvInto_held (h : c.RingOk) (max : Nat) :
    (c.recvInto max).2.RingOk ∧ (c.recvInto max).1 ++ (c.recvInto max).2.held = c.held := by
  obtain ⟨tail, hloop, hok, hheld⟩ := recvLoop_spec max [] h
  unfold recvInto
  rw [hloop]
  simp only [List.nil_append]
  split
  · exact ⟨⟨hok.head, hok.tail⟩, by
      show _ ++ Conn.held { c with recvTail := tail } = _
      rw [hheld, List.take_append_drop]⟩
  · exact ⟨hok, by rw [hheld, List.take_append_drop]⟩

end Conn

/-! ## Streams -/

structure Receiver where
  conn : Conn
  /-- What `tcp_recv` has returned so far. -/
  returned : List UInt8

/-- What the event returns to the reader. -/
def Conn.reads (c : Conn) : Event → List UInt8
  | .recv max => (c.recvInto max).1
  | _ => []

namespace Receiver

def step (r : Receiver) (e : Event) : Receiver × Unit :=
  if r.conn.inUse then (⟨r.conn.after e, r.returned ++ r.conn.reads e⟩, ()) else (r, ())

/-- `tcp_eof`, of the handle. -/
def eof (r : Receiver) : Bool := if r.conn.inUse then r.conn.eof else true

/-- How much of the stream has arrived. -/
def count (r : Receiver) : Nat := r.returned.length + r.conn.recvCount

/-- What has arrived is the beginning of the stream, and the end is told
when it is there. -/
structure Faithful (stream : List UInt8) (r : Receiver) : Prop where
  beginning : r.returned ++ r.conn.held <+: stream
  ending : r.eof = true → r.returned = stream

/-- A connection just established: nothing has arrived, and the stream
begins at `base`. -/
structure Starts (base : Nat) (r : Receiver) : Prop where
  inUse : r.conn.inUse = true
  state : r.conn.state = .established
  rcvNext : r.conn.rcvNext = wrap32 base
  ring : r.conn.RingOk
  empty : r.conn.recvTail = r.conn.recvHead
  unfinished : r.conn.peerFinished = false
  returned : r.returned = []

end Receiver

def receivers : Machine Receiver Event Unit := ⟨Receiver.step⟩

/-- The segment is the slice of the stream that begins at `start`, with the FIN
only at the end. The place is less than half the number space away from what
has arrived. -/
structure Conforms (stream : List UInt8) (base count : Nat) (s : Segment) (start : Nat) : Prop where
  slice : s.data <+: stream.drop start
  inside : start + s.data.length ≤ stream.length
  seq : s.seq = wrap32 (base + start)
  near : start < count + 0x80000000 ∧ count < start + 0x80000000
  fin : fin s.flags = true → start + s.data.length = stream.length

/-- The FIN comes with its data, with none that is missing, or too early to
be taken. -/
def Whole (count free : Nat) (s : Segment) (start : Nat) : Prop :=
  fin s.flags = true →
    start + s.data.length ≤ count ∨ count < start ∨ (start = count ∧ s.data.length ≤ free)

/-- Every segment is the peer's and whole, and the slot is not given up. -/
def Receiver.Sound (stream : List UInt8) (base : Nat) (r : Receiver) : Event → Prop
  | .segment _ s => rst s.flags = false → r.conn.state.Open →
      ∃ start, Conforms stream base r.count s start ∧ Whole r.count r.conn.recvFree s start
  | .tick now _ => ¬ (r.conn.state = .closed ∨ (r.conn.state = .timeWait ∧ now ≥ r.conn.timeWaitUntil))
  | .close _ => r.conn.state = .established ∨ r.conn.state = .closeWait
  | _ => True

/-! ## What is not received -/

/-- The receiving side is left alone. -/
structure SameRing (c c' : Conn) : Prop where
  recv : c'.recv = c.recv
  recvHead : c'.recvHead = c.recvHead
  recvTail : c'.recvTail = c.recvTail
  rcvNext : c'.rcvNext = c.rcvNext
  peerFinished : c'.peerFinished = c.peerFinished

namespace SameRing

variable {c c' c'' : Conn}

theorem refl (c : Conn) : SameRing c c := ⟨rfl, rfl, rfl, rfl, rfl⟩

theorem trans (h : SameRing c c') (h' : SameRing c' c'') : SameRing c c'' where
  recv := h'.recv.trans h.recv
  recvHead := h'.recvHead.trans h.recvHead
  recvTail := h'.recvTail.trans h.recvTail
  rcvNext := h'.rcvNext.trans h.rcvNext
  peerFinished := h'.peerFinished.trans h.peerFinished

theorem recvCount (h : SameRing c c') : c'.recvCount = c.recvCount := by
  rw [Conn.recvCount, h.recvHead, h.recvTail, Conn.recvCount]

theorem held (h : SameRing c c') : c'.held = c.held := by
  rw [Conn.held, h.recvCount, h.recv, h.recvTail, Conn.held]

theorem ringOk (h : SameRing c c') (hok : c.RingOk) : c'.RingOk :=
  ⟨by rw [h.recvHead]; exact hok.head, by rw [h.recvTail]; exact hok.tail⟩

theorem recvFree (h : SameRing c c') : c'.recvFree = c.recvFree := by
  rw [Conn.recvFree, h.recvHead, h.recvTail, Conn.recvFree]

end SameRing

namespace Conn

theorem retire_ring (c : Conn) (s : Segment) : SameRing c (c.retire s) :=
  have h := c.retire_retired s
  ⟨h.recv, h.recvHead, h.recvTail, h.rcvNext, h.peerFinished⟩

theorem advertise_ring (c : Conn) : SameRing c c.advertise := by
  obtain ⟨window, hw⟩ := c.advertise_eq
  rw [hw]
  exact ⟨rfl, rfl, rfl, rfl, rfl⟩

theorem sendTracked_ring (c : Conn) (now flags : Nat) (data : List UInt8) :
    SameRing c (c.sendTracked now flags data) := by
  obtain ⟨window, hw⟩ := c.sendTracked_eq now flags data
  rw [hw]
  exact ⟨rfl, rfl, rfl, rfl, rfl⟩

theorem send_ring (c : Conn) (now : Nat) (ok : Bool) (data : List UInt8) :
    SameRing c (c.send now ok data).2 ∧ (c.send now ok data).2.inUse = c.inUse ∧
      (c.send now ok data).2.state = c.state := by
  have hcase := c.send_cases now ok data
  generalize c.send now ok data = r at hcase
  cases hcase with
  | refused _ _ _ => exact ⟨.refl c, rfl, rfl⟩
  | sent _ _ _ =>
    refine ⟨c.sendTracked_ring now _ _, ?_⟩
    obtain ⟨window, hw⟩ := c.sendTracked_eq now (TCP_ACK ||| TCP_PSH) (data.take TCP_MSS)
    show (c.sendTracked now _ _).inUse = _ ∧ (c.sendTracked now _ _).state = _
    rw [hw]
    exact ⟨rfl, rfl⟩

theorem tickAck_ring (c : Conn) (ok : Bool) : SameRing c (c.tickAck ok) := by
  unfold tickAck
  split
  · have h := c.advertise_ring
    generalize c.advertise = c' at h
    exact ⟨h.recv, h.recvHead, h.recvTail, h.rcvNext, h.peerFinished⟩
  · exact .refl c

theorem tickResend_ring (c : Conn) (now : Nat) : SameRing c (c.tickResend now) := by
  unfold tickResend
  have h := c.advertise_ring
  generalize c.advertise = c' at h
  split
  · exact .refl c
  · split
    · exact .refl c
    · split
      · exact ⟨rfl, rfl, rfl, rfl, rfl⟩
      · exact ⟨h.recv, h.recvHead, h.recvTail, h.rcvNext, h.peerFinished⟩

theorem tick_ring (c : Conn) (now : Nat) (ok : Bool) : SameRing c (c.tick now ok) := by
  unfold tick
  split
  · exact ⟨rfl, rfl, rfl, rfl, rfl⟩
  · exact (c.tickAck_ring ok).trans ((c.tickAck ok).tickResend_ring now)

end Conn

/-! ## What every step keeps -/

structure Receiver.Ok (stream : List UInt8) (base : Nat) (r : Receiver) : Prop where
  inUse : r.conn.inUse = true
  ring : r.conn.RingOk
  arrived : r.returned ++ r.conn.held <+: stream
  next : r.conn.peerFinished = false → r.conn.rcvNext = wrap32 (base + r.count)
  finished : r.conn.peerFinished = true → r.count = stream.length
  going : r.conn.state.Open → r.conn.peerFinished = false
  past : r.conn.state ≠ .synSent ∧ r.conn.state ≠ .synReceived

namespace Receiver.Ok

variable {stream : List UInt8} {base : Nat} {r : Receiver}

theorem length_arrived (r : Receiver) : (r.returned ++ r.conn.held).length = r.count := by
  rw [List.length_append, Conn.length_held, Receiver.count]

theorem start (h : r.Starts base) : r.Ok stream base := by
  have hcount : r.conn.recvCount = 0 := (Conn.recvCount_eq_zero h.ring).mpr h.empty
  refine ⟨h.inUse, h.ring, ?_, fun _ => ?_, fun hfin => ?_, fun _ => h.unfinished, ?_⟩
  · rw [h.returned, Conn.held, hcount]
    exact List.nil_prefix
  · rw [Receiver.count, h.returned, hcount]
    exact h.rcvNext
  · rw [h.unfinished] at hfin
    cases hfin
  · rw [h.state]
    exact ⟨by decide, by decide⟩

theorem faithful (h : r.Ok stream base) : Receiver.Faithful stream r := by
  refine ⟨h.arrived, fun heof => ?_⟩
  rw [Receiver.eof, if_pos h.inUse, Conn.eof] at heof
  simp only [Bool.and_eq_true, decide_eq_true_eq] at heof
  have hcount := (Conn.recvCount_eq_zero h.ring).mpr heof.2
  have hall := h.finished heof.1
  have harrived := h.arrived
  rw [Conn.held, hcount, RingBuffer.contents_zero, List.append_nil] at harrived
  rw [Receiver.count, hcount, Nat.add_zero] at hall
  exact harrived.eq_of_length hall

theorem frame (h : r.Ok stream base) {c' : Conn} (hr : SameRing r.conn c') (hin : c'.inUse = true)
    (hopen : c'.state.Open → r.conn.state.Open) (hpast : c'.state ≠ .synSent ∧ c'.state ≠ .synReceived) :
    Receiver.Ok stream base ⟨c', r.returned⟩ := by
  have hcount : Receiver.count ⟨c', r.returned⟩ = r.count := by
    show _ + c'.recvCount = _
    rw [hr.recvCount]
    rfl
  refine ⟨hin, hr.ringOk h.ring, ?_, ?_, ?_, ?_, hpast⟩
  · show _ ++ c'.held <+: _
    rw [hr.held]
    exact h.arrived
  · show c'.peerFinished = _ → c'.rcvNext = _
    rw [hcount, hr.peerFinished, hr.rcvNext]
    exact h.next
  · show c'.peerFinished = _ → _
    rw [hcount, hr.peerFinished]
    exact h.finished
  · show c'.state.Open → c'.peerFinished = _
    rw [hr.peerFinished]
    exact fun ho => h.going (hopen ho)

theorem count_le (h : r.Ok stream base) : r.count ≤ stream.length := by
  rw [← length_arrived]
  exact h.arrived.length_le

theorem recv (h : r.Ok stream base) (max : Nat) :
    Receiver.Ok stream base ⟨(r.conn.recvInto max).2, r.returned ++ (r.conn.recvInto max).1⟩ := by
  obtain ⟨hring, hheld⟩ := Conn.recvInto_held h.ring max
  have hk := r.conn.recvInto_kept max
  generalize (r.conn.recvInto max).1 = out at hheld
  generalize (r.conn.recvInto max).2 = c' at hring hheld hk
  have hsame : (r.returned ++ out) ++ c'.held = r.returned ++ r.conn.held := by
    rw [List.append_assoc, hheld]
  have hcount : Receiver.count ⟨c', r.returned ++ out⟩ = r.count := by
    rw [← length_arrived, ← length_arrived]
    exact congrArg List.length hsame
  refine ⟨hk.inUse.trans h.inUse, hring, ?_, ?_, ?_, ?_, ?_⟩
  · show (r.returned ++ out) ++ c'.held <+: _
    rw [hsame]
    exact h.arrived
  · show c'.peerFinished = _ → c'.rcvNext = _
    rw [hcount, hk.peerFinished, hk.rcvNext]
    exact h.next
  · show c'.peerFinished = _ → _
    rw [hcount, hk.peerFinished]
    exact h.finished
  · show c'.state.Open → c'.peerFinished = _
    rw [hk.state, hk.peerFinished]
    exact h.going
  · show c'.state ≠ _ ∧ c'.state ≠ _
    rw [hk.state]
    exact h.past

theorem send (h : r.Ok stream base) (now : Nat) (ok : Bool) (data : List UInt8) :
    Receiver.Ok stream base ⟨(r.conn.send now ok data).2, r.returned⟩ := by
  obtain ⟨hr, hin, hst⟩ := r.conn.send_ring now ok data
  exact h.frame hr (hin.trans h.inUse) (by rw [hst]; exact id) (by rw [hst]; exact h.past)

variable {now : Nat} {s : Segment}

theorem close (h : r.Ok stream base) (hs : r.Sound stream base (.close now)) :
    Receiver.Ok stream base ⟨r.conn.close now, r.returned⟩ := by
  have hcase := r.conn.close_cases now
  have hs : r.conn.state = .established ∨ r.conn.state = .closeWait := hs
  generalize r.conn.close now = c' at hcase
  cases hcase with
  | fin st hst =>
    obtain ⟨window, hw⟩ := r.conn.sendTracked_eq now (TCP_ACK ||| TCP_FIN) []
    rw [hw]
    refine h.frame ⟨rfl, rfl, rfl, rfl, rfl⟩ h.inUse ?_ ?_
    · show st.Open → _
      rcases hst with ⟨hst, -⟩ | ⟨-, rfl⟩
      · exact fun _ => Or.inl hst
      · rintro (hs | hs | hs) <;> cases hs
    · show st ≠ _ ∧ st ≠ _
      rcases hst with ⟨-, rfl⟩ | ⟨-, rfl⟩ <;> exact ⟨by decide, by decide⟩
  | dropped hest hwait => exact absurd hs (by simp [hest, hwait])

theorem tick (h : r.Ok stream base) {ok : Bool} (hs : r.Sound stream base (.tick now ok)) :
    Receiver.Ok stream base ⟨r.conn.tick now ok, r.returned⟩ := by
  have hr := r.conn.tick_ring now ok
  have hcase := r.conn.tick_cases now ok
  generalize r.conn.tick now ok = c' at hr hcase
  cases hcase with
  | released hover => exact absurd hover hs
  | gaveUp _ _ _ hk =>
    have hst : c'.state = .closed := hk.state
    refine h.frame hr (hk.inUse.trans h.inUse) ?_ ?_
    · rw [hst]
      rintro (hs | hs | hs) <;> cases hs
    · rw [hst]
      exact ⟨by decide, by decide⟩
  | kept _ hk =>
    exact h.frame hr (hk.inUse.trans h.inUse) (by rw [hk.state]; exact id) (by rw [hk.state]; exact h.past)

theorem prefix_extend {α : Type} {l₁ l₂ l : List α} (h₁ : l₁ <+: l) (h₂ : l₂ <+: l.drop l₁.length) :
    l₁ ++ l₂ <+: l := by
  obtain ⟨rest, rfl⟩ := h₁
  rw [List.drop_left] at h₂
  exact (List.prefix_append_right_inj l₁).mpr h₂

/-- What the data of a segment does: all of it is the next, or none is taken.
In both cases the FIN is taken only where nothing is missing. -/
theorem data (h : r.Ok stream base) {start : Nat} (hst : r.conn.state.Open)
    (hc : Conforms stream base r.count s start) (hw : Whole r.count r.conn.recvFree s start) :
    Receiver.Ok stream base ⟨r.conn.takeData s, r.returned⟩ ∧
      (fin s.flags = true → seqLe s.seq (r.conn.takeData s).rcvNext = true →
        Receiver.count ⟨r.conn.takeData s, r.returned⟩ = stream.length) := by
  have hnext := h.next (h.going hst)
  have hle := h.count_le
  obtain ⟨hslice, hinside, hseq, hnear, hfin⟩ := hc
  have hcase := r.conn.takeData_cases s
  generalize r.conn.takeData s = c' at hcase
  cases hcase with
  | taken hdata hin hroom =>
    have hstart : start = r.count := by
      rw [hseq, hnext] at hin
      simp only [wrap32] at hin
      omega
    obtain ⟨hring, hheld⟩ := Conn.recvPush_held s.data h.ring hroom
    obtain ⟨mem, head, hpush⟩ := r.conn.recvPush_eq s.data
    have hcount : Receiver.count ⟨r.conn.recvPush s.data, r.returned⟩ = r.count + s.data.length := by
      rw [← length_arrived, ← length_arrived]
      show (r.returned ++ (r.conn.recvPush s.data).held).length = _
      rw [hheld, ← List.append_assoc, List.length_append]
    have hin' : (r.conn.recvPush s.data).inUse = true := by
      rw [hpush]
      exact h.inUse
    have hstate : (r.conn.recvPush s.data).state = r.conn.state := by rw [hpush]
    have hpeer : (r.conn.recvPush s.data).peerFinished = false := by
      rw [hpush]
      exact h.going hst
    generalize r.conn.recvPush s.data = c₁ at *
    have hcount' : Receiver.count ⟨{ c₁ with
        rcvNext := wrap32 (r.conn.rcvNext + s.data.length), ackPending := true }, r.returned⟩ =
      r.count + s.data.length := hcount
    refine ⟨⟨hin', ⟨hring.head, hring.tail⟩, ?_, fun _ => ?_, fun hp => ?_, fun _ => hpeer, ?_⟩, fun hf _ => ?_⟩
    · show r.returned ++ c₁.held <+: _
      rw [hheld, ← List.append_assoc]
      refine prefix_extend h.arrived ?_
      rw [length_arrived, ← hstart]
      exact hslice
    · show wrap32 (r.conn.rcvNext + s.data.length) = _
      rw [hcount', hnext]
      simp only [wrap32]
      omega
    · exact absurd (hp.symm.trans hpeer) (by decide)
    · show c₁.state ≠ _ ∧ c₁.state ≠ _
      rw [hstate]
      exact h.past
    · have hend := hfin hf
      rw [hcount']
      omega
  | dropped b hno =>
    refine ⟨h.frame ⟨rfl, rfl, rfl, rfl, rfl⟩ h.inUse id h.past, fun hf hle' => ?_⟩
    show r.count = stream.length
    have hend := hfin hf
    rcases hw hf with hall | hlate | ⟨hstart, hfits⟩
    · omega
    · -- the segment begins behind what has arrived, so the FIN is not taken
      rw [hseq, hnext, seqLe_iff] at hle'
      simp only [seqSub, wrap32] at hle'
      omega
    · rcases hno with hnil | hno
      · rw [hnil, List.length_nil] at hend
        omega
      · exact absurd ⟨by rw [hseq, hnext, hstart], hfits⟩ hno

theorem fin (h : r.Ok stream base) (hst : r.conn.state.Open)
    (hall : Tcp.fin s.flags = true → seqLe s.seq r.conn.rcvNext = true → r.count = stream.length) :
    Receiver.Ok stream base ⟨r.conn.takeFin now s, r.returned⟩ := by
  have hcase := r.conn.takeFin_cases now s
  generalize r.conn.takeFin now s = c' at hcase
  cases hcase with
  | finished t hf hle =>
    have hclose : ¬ r.conn.state.finished.Open ∧ r.conn.state.finished ≠ .synSent ∧
        r.conn.state.finished ≠ .synReceived := by
      rcases hst with hst | hst | hst <;> simp [hst, State.finished, State.Open]
    exact ⟨h.inUse, ⟨h.ring.head, h.ring.tail⟩, h.arrived, fun hp => (by cases hp), fun _ => hall hf hle,
      fun ho => absurd ho hclose.1, hclose.2⟩
  | acked _ _ _ _ =>
    exact h.frame ⟨rfl, rfl, rfl, rfl, rfl⟩ h.inUse (fun _ => hst) ⟨fun hs => (by cases hs), fun hs => (by cases hs)⟩
  | none _ => exact h

theorem segment (h : r.Ok stream base) (hs : r.Sound stream base (.segment now s)) :
    Receiver.Ok stream base ⟨r.conn.receive now s, r.returned⟩ := by
  have hr := r.conn.retire_ring s
  have hret := r.conn.retire_retired s
  have hin : (r.conn.retire s).inUse = true := hret.inUse.trans h.inUse
  have hcase := r.conn.receive_cases now s
  generalize r.conn.receive now s = c' at hcase
  cases hcase with
  | reset _ =>
    refine h.frame ⟨rfl, rfl, rfl, rfl, rfl⟩ h.inUse ?_ ⟨nofun, nofun⟩
    rintro (hs | hs | hs) <;> cases hs
  | accepted _ hst _ => exact absurd hst h.past.2
  | connected _ hst _ _ => exact absurd hst h.past.1
  | data hrst hst =>
    obtain ⟨start, hc, hw⟩ := hs hrst hst
    have hst₁ : (r.conn.retire s).state.Open := by
      rw [hret.state]
      exact hst
    have hok₁ : Receiver.Ok stream base ⟨r.conn.retire s, r.returned⟩ :=
      h.frame hr hin (by rw [hret.state]; exact id) (by rw [hret.state]; exact h.past)
    have hcount : Receiver.count ⟨r.conn.retire s, r.returned⟩ = r.count := by
      show _ + (r.conn.retire s).recvCount = _
      rw [hr.recvCount]
      rfl
    rw [← hcount] at hc
    rw [← hcount, ← hr.recvFree] at hw
    obtain ⟨hok₂, hall⟩ := hok₁.data hst₁ hc hw
    have ht := (r.conn.retire s).takeData_cases s
    have hst₂ : ((r.conn.retire s).takeData s).state.Open := by
      generalize (r.conn.retire s).takeData s = c₂ at ht
      cases ht with
      | taken _ _ _ =>
        obtain ⟨mem, head, hpush⟩ := (r.conn.retire s).recvPush_eq s.data
        rw [hpush]
        exact hst₁
      | dropped _ _ => exact hst₁
    exact hok₂.fin hst₂ hall
  | lastAcked _ _ _ =>
    refine h.frame ⟨hr.recv, hr.recvHead, hr.recvTail, hr.rcvNext, hr.peerFinished⟩ hin ?_ ⟨nofun, nofun⟩
    rintro (hs | hs | hs) <;> cases hs
  | other _ _ => exact h.frame hr hin (by rw [hret.state]; exact id) (by rw [hret.state]; exact h.past)

theorem step (h : r.Ok stream base) {e : Event} (hs : r.Sound stream base e) :
    (receivers.step r e).1.Ok stream base := by
  show (r.step e).1.Ok stream base
  rw [Receiver.step, if_pos h.inUse]
  have hnone : ∀ {c' : Conn}, Receiver.Ok stream base ⟨c', r.returned⟩ →
      Receiver.Ok stream base ⟨c', r.returned ++ []⟩ := by
    intro c' hc
    rw [List.append_nil]
    exact hc
  cases e with
  | segment now s => exact hnone (h.segment hs)
  | send now ok data => exact hnone (h.send now ok data)
  | recv max => exact h.recv max
  | close now => exact hnone (h.close hs)
  | tick now ok => exact hnone (h.tick hs)

end Receiver.Ok

/-! ## Every run -/

/-- **What has been returned and what waits are the beginning of the stream,
and the end is not told before it is there.** -/
theorem receiver_faithful {stream : List UInt8} {base : Nat} {r : Receiver} (hr : r.Starts base)
    (events : List Event) (hg : receivers.Guarded (Receiver.Sound stream base) r events) :
    Receiver.Faithful stream (receivers.run r events) :=
  (receivers.invariant_of_step (fun (r : Receiver) _ (h : r.Ok stream base) hs => h.step hs) events r
    (Receiver.Ok.start hr) hg).faithful

/-- A client's connection after the handshake. Its stream begins at the last
sequence number. -/
def establishedReceiver : Receiver :=
  ⟨(Conn.answered 0 0x0A000202 1234 80 0xFFFFFFFE).receive 0
    ⟨1234, 80, 0xFFFFFFFF, 0x4E560001, TCP_ACK, [], by decide, by decide⟩, []⟩

/-- Data from the beginning of the client's stream. -/
def firstData (flags : Nat) (data : List UInt8) : Segment :=
  ⟨1234, 80, 0xFFFFFFFF, 0x4E560001, TCP_ACK ||| flags, data, by decide, by decide⟩

/-- The third byte and the end. -/
def lastData : Segment := ⟨1234, 80, 1, 0x4E560001, TCP_ACK ||| TCP_FIN, [3], by decide, by decide⟩

theorem receiver_faithful_wrapped :
    let events := [.segment 1 (firstData 0 [1, 2]), .segment 1 lastData, .recv 10]
    Receiver.Faithful [1, 2, 3] (receivers.run establishedReceiver events) ∧
      (receivers.run establishedReceiver events).returned = [1, 2, 3] ∧
      (receivers.run establishedReceiver events).eof = true :=
  ⟨@receiver_faithful [1, 2, 3] 0xFFFFFFFF establishedReceiver
    ⟨by decide, by decide, by decide, ⟨by decide, by decide⟩,
      by decide, by decide, rfl⟩ _
    ⟨fun _ _ => ⟨0, ⟨by decide, by decide, by decide, by decide, by decide⟩, by unfold Whole; decide⟩,
      fun _ _ => ⟨2, ⟨by decide, by decide, by decide, by decide, by decide⟩,
        by unfold Whole; decide⟩, trivial, trivial⟩,
    by decide, by decide⟩

/-- The first two bytes, and then all three of them with the FIN: the data of
the second segment is dropped and its FIN taken. -/
theorem receiver_unfaithful :
    let events := [.segment 1 (firstData 0 [1, 2]), .segment 1 (firstData TCP_FIN [1, 2, 3]), .recv 10]
    Conforms [1, 2, 3] 0xFFFFFFFF 0 (firstData 0 [1, 2]) 0 ∧
      Conforms [1, 2, 3] 0xFFFFFFFF 2 (firstData TCP_FIN [1, 2, 3]) 0 ∧
      (receivers.run establishedReceiver events).eof = true ∧
      (receivers.run establishedReceiver events).returned = [1, 2] :=
  ⟨⟨by decide, by decide, by decide, by decide, by decide⟩, ⟨by decide, by decide, by decide, by decide, by decide⟩,
    by decide, by decide⟩

end NovarisOS.Tcp
