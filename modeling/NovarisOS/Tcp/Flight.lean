/-
NovarisOS.Tcp.Flight — what has been sent and not acknowledged.

One segment is in flight at a time, and the numbers from the acknowledged one
to the next one are its own (`Conn.Holds`). They are never far apart
(`Conn.Near`), which is what makes the comparison of sequence numbers an
order: with nothing in flight the number half the space away is before and
behind all others (`Conn.Opposite`).
-/
import NovarisOS.Tcp.ConnTheorems

namespace NovarisOS.Tcp

/-- The number acknowledged is half the number space away, with nothing in
flight. -/
def Conn.Opposite (c : Conn) (s : Segment) : Prop :=
  c.sndUnacked = c.sndNext ∧ s.ack = wrap32 (c.sndNext + 0x80000000)

/-- The sequence numbers the pending segment takes. -/
def Conn.flight (c : Conn) : Nat := c.pending.length + Conn.control c.pendingFlags

/-- At most a segment and a FIN are unacknowledged. -/
structure Conn.Near (c : Conn) : Prop where
  next_lt : c.sndNext < 0x100000000
  unacked_lt : c.sndUnacked < 0x100000000
  most : seqSub c.sndNext c.sndUnacked ≤ TCP_MSS + 1

/-- What is unacknowledged is the end of the pending segment. -/
structure Conn.Holds (c : Conn) : Prop where
  span : seqSub c.sndNext c.sndUnacked ≤ c.flight
  small : c.flight ≤ TCP_MSS
  ends : ¬ (c.pending = [] ∧ c.pendingFlags = 0) → wrap32 (c.pendingSeq + c.flight) = c.sndNext

/-- The sending side is left alone. -/
structure Sent (c c' : Conn) : Prop where
  sndNext : c'.sndNext = c.sndNext
  sndUnacked : c'.sndUnacked = c.sndUnacked
  pending : c'.pending = c.pending
  pendingFlags : c'.pendingFlags = c.pendingFlags
  pendingSeq : c'.pendingSeq = c.pendingSeq

theorem Sent.refl (c : Conn) : Sent c c := ⟨rfl, rfl, rfl, rfl, rfl⟩

theorem Sent.trans {c c' c'' : Conn} (h : Sent c c') (h' : Sent c' c'') : Sent c c'' where
  sndNext := h'.sndNext.trans h.sndNext
  sndUnacked := h'.sndUnacked.trans h.sndUnacked
  pending := h'.pending.trans h.pending
  pendingFlags := h'.pendingFlags.trans h.pendingFlags
  pendingSeq := h'.pendingSeq.trans h.pendingSeq

theorem Kept.sent {c c' : Conn} (h : Kept c c') : Sent c c' :=
  ⟨h.sndNext, h.sndUnacked, h.pending, h.pendingFlags, h.pendingSeq⟩

/-- A segment goes out and is kept for the clock. -/
structure Sends (c : Conn) (flags : Nat) (data : List UInt8) (c' : Conn) : Prop where
  sndNext : c'.sndNext = wrap32 (c.sndNext + data.length + Conn.control flags)
  sndUnacked : c'.sndUnacked = c.sndUnacked
  pending : c'.pending = data
  pendingFlags : c'.pendingFlags = flags
  pendingSeq : c'.pendingSeq = c.sndNext

theorem Sends.setState {c c' : Conn} {flags : Nat} {data : List UInt8} (h : Sends c flags data c') (st : State) :
    Sends c flags data { c' with state := st } :=
  ⟨h.sndNext, h.sndUnacked, h.pending, h.pendingFlags, h.pendingSeq⟩

theorem Conn.sendTracked_sends (c : Conn) (now flags : Nat) (data : List UInt8) :
    Sends c flags data (c.sendTracked now flags data) := by
  obtain ⟨window, hw⟩ := c.sendTracked_eq now flags data
  rw [hw]
  exact ⟨rfl, rfl, rfl, rfl, rfl⟩

/-! ## The data -/

/-- What taking the data does, beside the ring. -/
structure Took (c : Conn) (s : Segment) (c' : Conn) : Prop where
  inUse : c'.inUse = c.inUse
  state : c'.state = c.state
  sent : Sent c c'
  peerFinished : c'.peerFinished = c.peerFinished
  rcvNext : c'.rcvNext = c.rcvNext ∨
    (s.seq = c.rcvNext ∧ c'.rcvNext = wrap32 (c.rcvNext + s.data.length))

theorem Conn.takeData_took (c : Conn) (s : Segment) : Took c s (c.takeData s) := by
  have hcase := c.takeData_cases s
  generalize c.takeData s = c' at hcase
  cases hcase with
  | taken _ hseq _ =>
    obtain ⟨mem, head, hpush⟩ := c.recvPush_eq s.data
    rw [hpush]
    exact ⟨rfl, rfl, ⟨rfl, rfl, rfl, rfl, rfl⟩, rfl, Or.inr ⟨hseq, rfl⟩⟩
  | dropped b _ => exact ⟨rfl, rfl, ⟨rfl, rfl, rfl, rfl, rfl⟩, rfl, Or.inl rfl⟩

theorem Conn.takeFin_sent (c : Conn) (now : Nat) (s : Segment) : Sent c (c.takeFin now s) := by
  have hcase := c.takeFin_cases now s
  generalize c.takeFin now s = c' at hcase
  cases hcase with
  | finished _ _ _ => exact ⟨rfl, rfl, rfl, rfl, rfl⟩
  | acked _ _ _ _ => exact ⟨rfl, rfl, rfl, rfl, rfl⟩
  | none _ => exact .refl c

/-! ## Acknowledgements -/

variable {c c' : Conn} {s : Segment}

theorem Conn.Acceptable.between (h : c.Acceptable s) (hnear : c.Near) (hopp : ¬ c.Opposite s) :
    seqSub s.ack c.sndUnacked ≤ seqSub c.sndNext c.sndUnacked ∧
      seqSub c.sndNext s.ack ≤ seqSub c.sndNext c.sndUnacked := by
  obtain ⟨-, hlo, hhi⟩ := h
  have hnext := hnear.next_lt
  have hun := hnear.unacked_lt
  have hs := s.ack_lt
  rw [seqLe_iff] at hlo hhi
  rw [Conn.Opposite] at hopp
  simp only [seqSub, wrap32] at *
  omega

theorem Conn.Acceptable.retire_unacked (h : c.Acceptable s) : (c.retire s).sndUnacked = s.ack := by
  cases c.retire_cases s with
  | ignored hno _ => exact absurd h hno
  | partly _ hc _ => rw [hc]
  | wholly _ hc _ => rw [hc]

namespace Conn.Near

theorem frame (h : c.Near) (hs : Sent c c') : c'.Near :=
  ⟨by rw [hs.sndNext]; exact h.next_lt, by rw [hs.sndUnacked]; exact h.unacked_lt,
    by rw [hs.sndNext, hs.sndUnacked]; exact h.most⟩

theorem span_lt (h : c.Near) : seqSub c.sndNext c.sndUnacked < 0x80000000 :=
  Nat.lt_of_le_of_lt h.most (by decide)

theorem acceptable_next (h : c.Near) (hack : ack s.flags = true) (hs : s.ack = c.sndNext) :
    c.Acceptable s := by
  refine ⟨hack, ?_, by rw [hs]; exact seqLe_self _⟩
  have hmost := h.most
  have hun := h.unacked_lt
  rw [hs, seqLe_iff]
  simp only [seqSub, wrap32, TCP_MSS] at *
  omega

theorem unacked_moves (h : c.Near) (hopp : ack s.flags = true → ¬ c.Opposite s) :
    seqSub (c.retire s).sndUnacked c.sndUnacked ≤ seqSub c.sndNext c.sndUnacked := by
  cases c.retire_cases s with
  | ignored _ hc =>
    rw [hc, seqSub_self]
    exact Nat.zero_le _
  | partly hok hc _ =>
    rw [hc]
    exact (hok.between h (hopp hok.1)).1
  | wholly hok hc _ =>
    rw [hc]
    exact (hok.between h (hopp hok.1)).1

theorem retire (h : c.Near) (hopp : ack s.flags = true → ¬ c.Opposite s) : (c.retire s).Near := by
  cases c.retire_cases s with
  | ignored _ hc =>
    rw [hc]
    exact h
  | partly hok hc _ =>
    rw [hc]
    exact ⟨h.next_lt, s.ack_lt, Nat.le_trans (hok.between h (hopp hok.1)).2 h.most⟩
  | wholly hok hc _ =>
    rw [hc]
    exact ⟨h.next_lt, s.ack_lt, Nat.le_trans (hok.between h (hopp hok.1)).2 h.most⟩

end Conn.Near

/-! ## The pending segment -/

namespace Conn.Holds

theorem frame (h : c.Holds) (hs : Sent c c') : c'.Holds := by
  obtain ⟨hspan, hsmall, hends⟩ := h
  refine ⟨?_, ?_, ?_⟩ <;>
    rw [Conn.flight, hs.pending, hs.pendingFlags] <;> try rw [hs.sndNext]
  · rw [hs.sndUnacked]
    exact hspan
  · exact hsmall
  · rw [hs.pendingSeq]
    exact hends

theorem settled (h : c.Holds) (hnear : c.Near) (hp : c.pending = []) (hf : c.pendingFlags = 0) :
    c.sndUnacked = c.sndNext := by
  have hle := h.span
  have hnext := hnear.next_lt
  have hun := hnear.unacked_lt
  rw [Conn.flight, hp, hf] at hle
  have hle : seqSub c.sndNext c.sndUnacked ≤ 0 := hle
  simp only [seqSub, wrap32] at hle
  omega

theorem of_settled (hun : c.sndUnacked = c.sndNext) (hp : c.pending = []) (hf : c.pendingFlags = 0) :
    c.Holds := by
  refine ⟨?_, ?_, fun hin => absurd ⟨hp, hf⟩ hin⟩
  · rw [hun, seqSub_self]
    exact Nat.zero_le _
  · rw [Conn.flight, hp, hf]
    decide

theorem retire (h : c.Holds) (hnear : c.Near) (hopp : ack s.flags = true → ¬ c.Opposite s) :
    (c.retire s).Holds := by
  cases c.retire_cases s with
  | ignored _ hc =>
    rw [hc]
    exact h
  | partly hok hc _ =>
    rw [hc]
    obtain ⟨-, hle⟩ := hok.between hnear (hopp hok.1)
    exact ⟨Nat.le_trans hle h.span, h.small, h.ends⟩
  | wholly hok hc hall =>
    rw [hc]
    obtain ⟨-, hle⟩ := hok.between hnear (hopp hok.1)
    refine of_settled ?_ rfl rfl
    show s.ack = c.sndNext
    have hzero : seqSub c.sndNext s.ack = 0 := by
      by_cases hin : c.pending = [] ∧ c.pendingFlags = 0
      · -- nothing was in flight, and nothing was unacknowledged
        rw [h.settled hnear hin.1 hin.2, seqSub_self] at hle
        exact Nat.le_zero.mp hle
      · have hend := h.ends hin
        rw [Conn.flight, ← Nat.add_assoc] at hend
        rw [hend, seqLe_iff] at hall
        have hmost := hnear.most
        simp only [TCP_MSS] at hmost
        omega
    have hnext := hnear.next_lt
    have hs := s.ack_lt
    simp only [seqSub, wrap32] at hzero
    omega

theorem of_sends {flags : Nat} {data : List UInt8} (hs : Sends c flags data c') (hnear : c.Near)
    (hun : c.sndUnacked = c.sndNext) (hsmall : data.length + Conn.control flags ≤ TCP_MSS) :
    c'.Holds ∧ c'.Near := by
  have hnext := hnear.next_lt
  have hflight : c'.flight = data.length + Conn.control flags := by
    rw [Conn.flight, hs.pending, hs.pendingFlags]
  have hspan : seqSub c'.sndNext c'.sndUnacked = data.length + Conn.control flags := by
    rw [hs.sndNext, hs.sndUnacked, hun]
    simp only [seqSub, wrap32, TCP_MSS] at *
    omega
  refine ⟨⟨?_, ?_, fun _ => ?_⟩, ⟨?_, ?_, ?_⟩⟩
  · rw [hflight]
    exact Nat.le_of_eq hspan
  · rw [hflight]
    exact hsmall
  · rw [hflight, hs.pendingSeq, hs.sndNext, Nat.add_assoc]
  · rw [hs.sndNext]
    exact wrap32_lt _
  · rw [hs.sndUnacked]
    exact hnear.unacked_lt
  · rw [hspan]
    omega

theorem send (h : c.Holds) (hnear : c.Near) (now : Nat) (ok : Bool) (data : List UInt8) :
    (c.send now ok data).2.Holds ∧ (c.send now ok data).2.Near := by
  have hcase := c.send_cases now ok data
  generalize c.send now ok data = r at hcase
  cases hcase with
  | refused _ _ _ => exact ⟨h, hnear⟩
  | sent _ hp hf =>
    refine of_sends (c.sendTracked_sends now _ _) hnear (h.settled hnear hp hf) ?_
    have hctl : Conn.control (TCP_ACK ||| TCP_PSH) = 0 := by decide
    rw [hctl, List.length_take]
    omega

end Conn.Holds

end NovarisOS.Tcp
