/-
NovarisOS.Tcp.ConnTheorems — what the functions of a connection can do.

Each function of `Tcp.Conn` is said once, as the cases a caller has to
distinguish; the properties of whole runs are derived from the cases and
never unfold the functions again. Most of a connection is left alone by most
of them: `Kept` is everything but the receive ring, the timers and the
window.
-/
import NovarisOS.Tcp.Conn

namespace NovarisOS.Tcp

/-! ## Sequence numbers -/

theorem wrap32_lt (n : Nat) : wrap32 n < 0x100000000 := Nat.mod_lt _ (by decide)

theorem seqSub_self (a : Nat) : seqSub a a = 0 := by
  rw [seqSub, Nat.add_sub_cancel_left]
  rfl

theorem seqLe_self (a : Nat) : seqLe a a = true := by
  rw [seqLe, seqSub_self]
  rfl

theorem seqLe_iff {a b : Nat} : seqLe a b = true ↔ seqSub a b = 0 ∨ 0x80000000 ≤ seqSub a b := by
  rw [seqLe]
  simp

/-! ## What is left alone -/

/-- All but the receive ring, the timers and the window. -/
structure Kept (c c' : Conn) : Prop where
  inUse : c'.inUse = c.inUse
  state : c'.state = c.state
  sndNext : c'.sndNext = c.sndNext
  sndUnacked : c'.sndUnacked = c.sndUnacked
  rcvNext : c'.rcvNext = c.rcvNext
  pending : c'.pending = c.pending
  pendingFlags : c'.pendingFlags = c.pendingFlags
  pendingSeq : c'.pendingSeq = c.pendingSeq
  peerFinished : c'.peerFinished = c.peerFinished

theorem Kept.refl (c : Conn) : Kept c c := ⟨rfl, rfl, rfl, rfl, rfl, rfl, rfl, rfl, rfl⟩

theorem Conn.recvPush_eq (data : List UInt8) : ∀ c : Conn,
    ∃ mem head, c.recvPush data = { c with recv := mem, recvHead := head } := by
  induction data with
  | nil => exact fun c => ⟨c.recv, c.recvHead, rfl⟩
  | cons b data ih =>
    intro c
    rw [recvPush]
    split
    · exact ⟨c.recv, c.recvHead, rfl⟩
    · obtain ⟨mem, head, h⟩ := ih { c with
        recv := Function.update c.recv c.recvHead b
        recvHead := (c.recvHead + 1) % TCP_RECV_BUFFER }
      exact ⟨mem, head, h⟩

theorem Conn.recvLoop_eq (max : Nat) : ∀ (c : Conn) (out : List UInt8),
    ∃ tail, (c.recvLoop max out).2 = { c with recvTail := tail } := by
  induction max with
  | zero => exact fun c _ => ⟨c.recvTail, rfl⟩
  | succ max ih =>
    intro c out
    rw [recvLoop]
    split
    · obtain ⟨tail, h⟩ := ih { c with recvTail := (c.recvTail + 1) % TCP_RECV_BUFFER }
        (out ++ [c.recv c.recvTail])
      exact ⟨tail, h⟩
    · exact ⟨c.recvTail, rfl⟩

theorem Conn.recvInto_kept (c : Conn) (max : Nat) : Kept c (c.recvInto max).2 := by
  obtain ⟨tail, h⟩ := c.recvLoop_eq max []
  unfold recvInto
  rcases hl : c.recvLoop max [] with ⟨out, c'⟩
  rw [hl] at h
  simp only at h ⊢
  subst h
  split <;> exact ⟨rfl, rfl, rfl, rfl, rfl, rfl, rfl, rfl, rfl⟩

/-! ## The clock -/

/-- What a tick can do. -/
inductive Ticked (c : Conn) (now : Nat) : Conn → Prop where
  | released : (c.state = .closed ∨ (c.state = .timeWait ∧ now ≥ c.timeWaitUntil)) →
      Ticked c now { c with inUse := false }
  | gaveUp {c' : Conn} : ¬ (c.pending = [] ∧ c.pendingFlags = 0) → c.rtoDeadline ≤ now →
      RTO_MAX_TRIES < c.tries + 1 → Kept { c with state := .closed } c' → Ticked c now c'
  | kept {c' : Conn} : ¬ (c.state = .closed ∨ (c.state = .timeWait ∧ now ≥ c.timeWaitUntil)) →
      Kept c c' → Ticked c now c'

theorem Conn.advertise_eq (c : Conn) : ∃ window, c.advertise = { c with lastAdvertised := window } := ⟨_, rfl⟩

theorem Conn.tickAck_kept (c : Conn) (ok : Bool) :
    Kept c (c.tickAck ok) ∧ (c.tickAck ok).rtoDeadline = c.rtoDeadline ∧ (c.tickAck ok).tries = c.tries := by
  obtain ⟨window, hw⟩ := c.advertise_eq
  unfold tickAck
  rw [hw]
  split
  · exact ⟨⟨rfl, rfl, rfl, rfl, rfl, rfl, rfl, rfl, rfl⟩, rfl, rfl⟩
  · exact ⟨.refl c, rfl, rfl⟩

theorem Conn.tickResend_cases (c : Conn) (now : Nat) :
    Kept c (c.tickResend now) ∨ (¬ (c.pending = [] ∧ c.pendingFlags = 0) ∧ c.rtoDeadline ≤ now ∧
      RTO_MAX_TRIES < c.tries + 1 ∧ Kept { c with state := .closed } (c.tickResend now)) := by
  obtain ⟨window, hw⟩ := c.advertise_eq
  unfold tickResend
  rw [hw]
  split
  · exact Or.inl (.refl c)
  · rename_i hflight
    split
    · exact Or.inl (.refl c)
    · rename_i hnow
      split
      · rename_i hover
        exact Or.inr ⟨hflight, Nat.not_lt.mp hnow, hover, ⟨rfl, rfl, rfl, rfl, rfl, rfl, rfl, rfl, rfl⟩⟩
      · exact Or.inl ⟨rfl, rfl, rfl, rfl, rfl, rfl, rfl, rfl, rfl⟩

theorem Kept.trans {c c' c'' : Conn} (h : Kept c c') (h' : Kept c' c'') : Kept c c'' where
  inUse := h'.inUse.trans h.inUse
  state := h'.state.trans h.state
  sndNext := h'.sndNext.trans h.sndNext
  sndUnacked := h'.sndUnacked.trans h.sndUnacked
  rcvNext := h'.rcvNext.trans h.rcvNext
  pending := h'.pending.trans h.pending
  pendingFlags := h'.pendingFlags.trans h.pendingFlags
  pendingSeq := h'.pendingSeq.trans h.pendingSeq
  peerFinished := h'.peerFinished.trans h.peerFinished

theorem Kept.setState {c c' : Conn} (h : Kept c c') (st : State) :
    Kept { c with state := st } { c' with state := st } :=
  ⟨h.inUse, rfl, h.sndNext, h.sndUnacked, h.rcvNext, h.pending, h.pendingFlags, h.pendingSeq,
    h.peerFinished⟩

theorem Conn.tick_cases (c : Conn) (now : Nat) (ok : Bool) : Ticked c now (c.tick now ok) := by
  unfold tick
  split
  · rename_i hover
    exact .released hover
  · rename_i hlive
    obtain ⟨hkept, hdeadline, htries⟩ := c.tickAck_kept ok
    rcases (c.tickAck ok).tickResend_cases now with hsame | ⟨hflight, hnow, hover, hclosed⟩
    · exact .kept hlive (hkept.trans hsame)
    · rw [hkept.pending, hkept.pendingFlags] at hflight
      rw [hdeadline] at hnow
      rw [htries] at hover
      exact .gaveUp hflight hnow hover ((hkept.setState .closed).trans hclosed)

/-! ## Sending -/

theorem Conn.sendTracked_eq (c : Conn) (now flags : Nat) (data : List UInt8) :
    ∃ window, c.sendTracked now flags data = { c with
      lastAdvertised := window, pendingSeq := c.sndNext, pendingFlags := flags, pending := data
      sndNext := wrap32 (c.sndNext + data.length + Conn.control flags)
      rtoTicks := RTO_INITIAL_TICKS, rtoDeadline := wrap32 (now + RTO_INITIAL_TICKS), tries := 0 } := by
  unfold sendTracked
  obtain ⟨window, hw⟩ := c.advertise_eq
  rw [hw]
  exact ⟨window, rfl⟩

/-- What `tcp_send` can do. -/
inductive SendCase (c : Conn) (now : Nat) (ok : Bool) (data : List UInt8) : Int × Conn → Prop where
  | refused (r : Int) : (c.state ≠ .established ∨ ¬ (c.pending = [] ∧ c.pendingFlags = 0)) → r ≤ 0 →
      SendCase c now ok data (r, c)
  | sent : c.state = .established → c.pending = [] → c.pendingFlags = 0 →
      SendCase c now ok data (if ok then ((data.take TCP_MSS).length : Int) else 0,
        c.sendTracked now (TCP_ACK ||| TCP_PSH) (data.take TCP_MSS))

theorem Conn.send_cases (c : Conn) (now : Nat) (ok : Bool) (data : List UInt8) :
    SendCase c now ok data (c.send now ok data) := by
  unfold send
  split
  · rename_i hst
    exact .refused _ (Or.inl hst) (by decide)
  · rename_i hst
    split
    · rename_i hflight
      exact .refused _ (Or.inr (by tauto)) (by decide)
    · rename_i hflight
      have hst : c.state = .established := by simpa using hst
      have hflight : c.pending = [] ∧ c.pendingFlags = 0 := by simpa using hflight
      have hcase := @SendCase.sent c now ok data hst hflight.1 hflight.2
      have htake : ∃ take, take = (if data.length < TCP_MSS then data.length else TCP_MSS) ∧
          data.take take = data.take TCP_MSS ∧ take = (data.take TCP_MSS).length := by
        refine ⟨_, rfl, ?_⟩
        split
        · rename_i hshort
          rw [List.take_of_length_le (Nat.le_refl _), List.take_of_length_le (Nat.le_of_lt hshort)]
          exact ⟨rfl, rfl⟩
        · exact ⟨rfl, by rw [List.length_take]; omega⟩
      obtain ⟨take, hif, hdata, hlen⟩ := htake
      simp only
      rw [← hif, hdata, hlen]
      cases ok with
      | false => exact hcase
      | true => exact hcase

/-- What `tcp_close` can do. -/
inductive CloseCase (c : Conn) (now : Nat) : Conn → Prop where
  | fin (st : State) : (c.state = .established ∧ st = .finWait1) ∨ (c.state = .closeWait ∧ st = .lastAck) →
      CloseCase c now { c.sendTracked now (TCP_ACK ||| TCP_FIN) [] with state := st }
  | dropped : c.state ≠ .established → c.state ≠ .closeWait →
      CloseCase c now { c with inUse := false, state := .closed }

theorem Conn.close_cases (c : Conn) (now : Nat) : CloseCase c now (c.close now) := by
  unfold close
  split
  · rename_i hst
    exact .fin _ (Or.inl ⟨hst, rfl⟩)
  · rename_i hest
    split
    · rename_i hst
      exact .fin _ (Or.inr ⟨hst, rfl⟩)
    · rename_i hwait
      exact .dropped hest hwait

/-! ## Segments -/

/-- The acknowledgement is one of something in flight, or of nothing new. -/
def Conn.Acceptable (c : Conn) (s : Segment) : Prop :=
  ack s.flags = true ∧ seqLe c.sndUnacked s.ack = true ∧ seqLe s.ack c.sndNext = true

/-- All but what is unacknowledged and in flight. -/
structure Retired (c c' : Conn) : Prop where
  inUse : c'.inUse = c.inUse
  state : c'.state = c.state
  sndNext : c'.sndNext = c.sndNext
  rcvNext : c'.rcvNext = c.rcvNext
  pendingSeq : c'.pendingSeq = c.pendingSeq
  recv : c'.recv = c.recv
  recvHead : c'.recvHead = c.recvHead
  recvTail : c'.recvTail = c.recvTail
  peerFinished : c'.peerFinished = c.peerFinished

/-- What the test before the switch can do. -/
inductive RetireCase (c : Conn) (s : Segment) (c' : Conn) : Prop where
  | ignored : ¬ c.Acceptable s → c' = c → RetireCase c s c'
  | partly : c.Acceptable s → c' = { c with sndUnacked := s.ack } →
      seqLe (wrap32 (c.pendingSeq + c.pending.length + Conn.control c.pendingFlags)) s.ack = false →
      RetireCase c s c'
  | wholly : c.Acceptable s → c' = { c with sndUnacked := s.ack, pending := [], pendingFlags := 0 } →
      seqLe (wrap32 (c.pendingSeq + c.pending.length + Conn.control c.pendingFlags)) s.ack = true →
      RetireCase c s c'

theorem Conn.retire_cases (c : Conn) (s : Segment) : RetireCase c s (c.retire s) := by
  unfold retire
  split
  · rename_i hok
    simp only [Bool.and_eq_true] at hok
    have hok : c.Acceptable s := ⟨hok.1.1, hok.1.2, hok.2⟩
    simp only
    split
    · rename_i hall
      exact .wholly hok rfl hall
    · rename_i hpart
      exact .partly hok rfl (by simpa using hpart)
  · rename_i hno
    refine .ignored (fun hok => hno ?_) rfl
    simp [hok.1, hok.2.1, hok.2.2]

theorem Conn.retire_retired (c : Conn) (s : Segment) : Retired c (c.retire s) := by
  cases c.retire_cases s with
  | ignored _ h => rw [h]; exact ⟨rfl, rfl, rfl, rfl, rfl, rfl, rfl, rfl, rfl⟩
  | partly _ h => rw [h]; exact ⟨rfl, rfl, rfl, rfl, rfl, rfl, rfl, rfl, rfl⟩
  | wholly _ h => rw [h]; exact ⟨rfl, rfl, rfl, rfl, rfl, rfl, rfl, rfl, rfl⟩

/-- The states in which data is taken. -/
def State.Open (st : State) : Prop := st = .established ∨ st = .finWait1 ∨ st = .finWait2

/-- What a segment can do. -/
inductive Received (c : Conn) (now : Nat) (s : Segment) : Conn → Prop where
  | reset : rst s.flags = true → Received c now s { c with state := .closed }
  | accepted : rst s.flags = false → c.state = .synReceived → ack s.flags = true →
      Received c now s { c.retire s with state := .established, pending := [], pendingFlags := 0 }
  | connected : rst s.flags = false → c.state = .synSent → syn s.flags = true → ack s.flags = true →
      Received c now s { c.retire s with
        rcvNext := wrap32 (s.seq + 1), state := .established, ackPending := true }
  | data : rst s.flags = false → c.state.Open →
      Received c now s (((c.retire s).takeData s).takeFin now s)
  | lastAcked : rst s.flags = false → c.state = .lastAck → ack s.flags = true →
      Received c now s { c.retire s with state := .closed }
  | other : rst s.flags = false → ¬ c.state.Open → Received c now s (c.retire s)

theorem Conn.receive_cases (c : Conn) (now : Nat) (s : Segment) : Received c now s (c.receive now s) := by
  unfold receive
  split
  · rename_i hrst
    exact .reset hrst
  · rename_i hrst
    have hrst : rst s.flags = false := by simpa using hrst
    have hstate := (c.retire_retired s).state
    cases hst : c.state with
    | synReceived =>
      rw [hst] at hstate
      simp only [hstate]
      split
      · rename_i hack
        exact .accepted hrst hst hack
      · exact .other hrst (by simp [hst, State.Open])
    | synSent =>
      rw [hst] at hstate
      simp only [hstate]
      split
      · rename_i hboth
        simp only [Bool.and_eq_true] at hboth
        exact .connected hrst hst hboth.1 hboth.2
      · exact .other hrst (by simp [hst, State.Open])
    | lastAck =>
      rw [hst] at hstate
      simp only [hstate]
      split
      · rename_i hack
        exact .lastAcked hrst hst hack
      · exact .other hrst (by simp [hst, State.Open])
    | established =>
      rw [hst] at hstate
      simp only [hstate]
      exact .data hrst (by simp [hst, State.Open])
    | finWait1 =>
      rw [hst] at hstate
      simp only [hstate]
      exact .data hrst (by simp [hst, State.Open])
    | finWait2 =>
      rw [hst] at hstate
      simp only [hstate]
      exact .data hrst (by simp [hst, State.Open])
    | closed | listen | closing | timeWait | closeWait =>
      rw [hst] at hstate
      simp only [hstate]
      exact .other hrst (by simp [hst, State.Open])

/-- What becomes of the data. -/
inductive DataCase (c : Conn) (s : Segment) : Conn → Prop where
  | taken : s.data ≠ [] → s.seq = c.rcvNext → s.data.length ≤ c.recvFree →
      DataCase c s { c.recvPush s.data with
        rcvNext := wrap32 (c.rcvNext + s.data.length), ackPending := true }
  | dropped (b : Bool) : (s.data = [] ∨ ¬ (s.seq = c.rcvNext ∧ s.data.length ≤ c.recvFree)) →
      DataCase c s { c with ackPending := b }

theorem Conn.takeData_cases (c : Conn) (s : Segment) : DataCase c s (c.takeData s) := by
  unfold takeData
  split
  · rename_i hnil
    exact .dropped c.ackPending (Or.inl hnil)
  · rename_i hdata
    split
    · rename_i hok
      simp only [Bool.and_eq_true, decide_eq_true_eq] at hok
      exact .taken hdata hok.1 hok.2
    · rename_i hno
      simp only [Bool.and_eq_true, decide_eq_true_eq] at hno
      exact .dropped true (Or.inr hno)

/-- The state a FIN of the peer's leads to. -/
def State.finished : State → State
  | .established => .closeWait
  | .finWait1 => .timeWait
  | .finWait2 => .timeWait
  | st => st

/-- What becomes of the FIN. -/
inductive FinCase (c : Conn) (now : Nat) (s : Segment) : Conn → Prop where
  | finished (t : Nat) : fin s.flags = true → seqLe s.seq c.rcvNext = true →
      FinCase c now s { c with
        rcvNext := wrap32 (c.rcvNext + 1), peerFinished := true, ackPending := true
        state := c.state.finished, timeWaitUntil := t }
  | acked : ¬ (fin s.flags = true ∧ seqLe s.seq c.rcvNext = true) → ack s.flags = true →
      c.state = .finWait1 → seqLe c.sndNext s.ack = true → FinCase c now s { c with state := .finWait2 }
  | none : ¬ (fin s.flags = true ∧ seqLe s.seq c.rcvNext = true) → FinCase c now s c

theorem Conn.takeFin_cases (c : Conn) (now : Nat) (s : Segment) : FinCase c now s (c.takeFin now s) := by
  unfold takeFin
  split
  · rename_i hfin
    simp only [Bool.and_eq_true] at hfin
    have hcase := fun t => @FinCase.finished c now s t hfin.1 hfin.2
    cases hst : c.state <;> simp only [hst, State.finished] at hcase ⊢ <;> exact hcase _
  · rename_i hfin
    simp only [Bool.and_eq_true] at hfin
    split
    · rename_i hack
      simp only [Bool.and_eq_true, decide_eq_true_eq] at hack
      exact .acked hfin hack.1.1 hack.1.2 hack.2
    · exact .none hfin

end NovarisOS.Tcp
