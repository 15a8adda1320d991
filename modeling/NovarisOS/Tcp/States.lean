/-
NovarisOS.Tcp.States — which acknowledgement justifies which state.

A connection is followed from its SYN on, with two numbers the kernel does not
keep: its initial sequence number, and the number behind the FIN this side
sent. `Ordered` is what every step keeps to, whatever the segments say, and
`Backed` what a step keeps to exactly when it is `Warranted`.
-/
import NovarisOS.Tcp.Flight

namespace NovarisOS.Tcp

/-- A connection from its SYN on. -/
structure Life where
  conn : Conn
  /-- The initial sequence number. -/
  iss : Nat
  /-- The sequence number behind the FIN, once it was sent. -/
  finEnd : Option Nat

/-- The event sends the FIN. -/
def Conn.sendsFin (c : Conn) : Event → Bool
  | .close _ => c.state = .established || c.state = .closeWait
  | _ => false

/-- An event for a slot that is in use. -/
def Life.step (l : Life) (e : Event) : Life × Unit :=
  if l.conn.inUse then
    ({ l with
       conn := l.conn.after e
       finEnd := if l.conn.sendsFin e then some (l.conn.after e).sndNext else l.finEnd }, ())
  else (l, ())

def lives : Machine Life Event Unit := ⟨Life.step⟩

/-- Where a connection begins: `tcp_connect`, or the SYN of a client. -/
inductive Life.Begins : Life → Prop where
  | active (now destIp destPort localPort : Nat) :
      Begins ⟨Conn.opened now destIp destPort localPort, Conn.isn now, none⟩
  | passive (now srcIp srcPort destPort theirSeq : Nat) :
      Begins ⟨Conn.answered now srcIp srcPort destPort theirSeq, Conn.isn now, none⟩

/-! ## What a step may do -/

/-- The ways `rcv_next` moves: not at all, to behind the peer's SYN, over
data that begins there, and over the peer's FIN, once. -/
inductive RcvMove (c c' : Conn) : Event → Prop where
  | same {e : Event} : c'.rcvNext = c.rcvNext → c'.peerFinished = c.peerFinished → RcvMove c c' e
  | syn {now : Nat} {s : Segment} : c.state = .synSent → syn s.flags = true →
      c'.rcvNext = wrap32 (s.seq + 1) → c'.peerFinished = c.peerFinished → RcvMove c c' (.segment now s)
  | data {now : Nat} {s : Segment} : s.seq = c.rcvNext →
      c'.rcvNext = wrap32 (c.rcvNext + s.data.length) → c'.peerFinished = c.peerFinished →
      RcvMove c c' (.segment now s)
  | fin {now : Nat} {s : Segment} : fin s.flags = true → c.peerFinished = false →
      c'.peerFinished = true → c'.rcvNext = wrap32 (c.rcvNext + 1) → RcvMove c c' (.segment now s)
  | dataFin {now : Nat} {s : Segment} : s.seq = c.rcvNext → fin s.flags = true →
      c.peerFinished = false → c'.peerFinished = true →
      c'.rcvNext = wrap32 (c.rcvNext + s.data.length + 1) → RcvMove c c' (.segment now s)

/-- The event is a segment that acknowledges everything before `q`. -/
def Covers (e : Event) (q : Nat) : Prop :=
  ∃ now s, e = .segment now s ∧ ack s.flags = true ∧ seqLe q s.ack = true

/-- The segment in flight has been sent often enough. -/
def Conn.givesUp (c : Conn) (now : Nat) : Prop :=
  ¬ (c.pending = [] ∧ c.pendingFlags = 0) ∧ c.rtoDeadline ≤ now ∧ RTO_MAX_TRIES < c.tries + 1

/-- FIN_WAIT_1 is left for an acknowledgement of the FIN, and `rcv_next` moves
as it may. -/
structure Ordered (l : Life) (e : Event) (l' : Life) : Prop where
  finAcked : l.conn.state = .finWait1 → l'.conn.state = .finWait2 → ∃ q, l.finEnd = some q ∧ Covers e q
  rcv : RcvMove l.conn l'.conn e

structure Backed (l : Life) (e : Event) (l' : Life) : Prop where
  established : l.conn.state ≠ .established → l'.conn.state = .established →
    ∃ now s, e = .segment now s ∧ ack s.flags = true ∧ s.ack = wrap32 (l.iss + 1)
  lastAcked : l.conn.state = .lastAck → l'.conn.state = .closed → ∃ q, l.finEnd = some q ∧ Covers e q
  /-- What is acknowledged moves forward, and not past what was sent. -/
  unacked : seqSub l'.conn.sndUnacked l.conn.sndUnacked ≤ seqSub l'.conn.sndNext l.conn.sndUnacked ∧
    seqSub l'.conn.sndNext l.conn.sndUnacked < 0x80000000

structure Justified (l : Life) (e : Event) (l' : Life) : Prop extends Ordered l e l', Backed l e l'

/-- What the code does not look at, where it takes an acknowledgement for what
it seems to be; and LAST_ACK is not cut short, by a reset, by the last
retransmission or by a second `tcp_close`. -/
def Warranted (l : Life) (e : Event) : Prop :=
  l.conn.inUse = true →
    match e with
    | .segment _ s =>
      (l.conn.state = .lastAck → rst s.flags = true ∨ ack s.flags = true →
        ack s.flags = true ∧ seqLe l.conn.sndNext s.ack = true) ∧
      (rst s.flags = false → ack s.flags = true →
        ¬ l.conn.Opposite s ∧
        (l.conn.state = .synReceived ∨ (l.conn.state = .synSent ∧ syn s.flags = true) →
          s.ack = wrap32 (l.iss + 1)))
    | .tick now _ => l.conn.state = .lastAck → ¬ l.conn.givesUp now
    | .close _ => l.conn.state ≠ .lastAck
    | _ => True

/-! ## What is in flight -/

/-- Before this side has sent its FIN. -/
def State.Sending (st : State) : Prop :=
  st = .synSent ∨ st = .synReceived ∨ st = .established ∨ st = .closeWait

structure Conn.InFlight (c : Conn) : Prop where
  near : c.Near
  sending : c.state.Sending → c.Holds

namespace Conn.InFlight

variable {c c' : Conn} {s : Segment}

theorem frame (h : c.InFlight) (hs : Sent c c') (hst : c'.state.Sending → c.state.Sending) : c'.InFlight :=
  ⟨h.near.frame hs, fun hsend => (h.sending (hst hsend)).frame hs⟩

theorem retire (h : c.InFlight) (hopp : ack s.flags = true → ¬ c.Opposite s) : (c.retire s).InFlight := by
  refine ⟨h.near.retire hopp, fun hst => ?_⟩
  rw [(c.retire_retired s).state] at hst
  exact (h.sending hst).retire h.near hopp

theorem send (h : c.InFlight) (now : Nat) (ok : Bool) (data : List UInt8) :
    (c.send now ok data).2.InFlight := by
  have hcase := c.send_cases now ok data
  have hholds := fun hh : c.Holds => hh.send h.near now ok data
  generalize c.send now ok data = r at hcase hholds
  cases hcase with
  | refused _ _ _ => exact h
  | sent hst _ _ =>
    obtain ⟨hheld, hnear⟩ := hholds (h.sending (by simp [hst, State.Sending]))
    exact ⟨hnear, fun _ => hheld⟩

theorem fin (h : c.InFlight) (hsend : c.state.Sending) (now : Nat) {st : State} (hst : ¬ st.Sending) :
    { c.sendTracked now (TCP_ACK ||| TCP_FIN) [] with state := st }.InFlight := by
  obtain ⟨hun, hmss, -⟩ := h.sending hsend
  obtain ⟨window, hw⟩ := c.sendTracked_eq now (TCP_ACK ||| TCP_FIN) []
  have hctl : Conn.control (TCP_ACK ||| TCP_FIN) = 1 := by decide
  rw [hw, hctl]
  refine ⟨⟨wrap32_lt _, h.near.unacked_lt, ?_⟩, fun hs => absurd hs hst⟩
  show seqSub (wrap32 (c.sndNext + 0 + 1)) c.sndUnacked ≤ TCP_MSS + 1
  simp only [seqSub, wrap32, TCP_MSS] at *
  omega

end Conn.InFlight

/-! ## Every step -/

/-- What every state satisfies. -/
structure Life.Sound (l : Life) : Prop where
  finSent : l.conn.state = .finWait1 ∨ l.conn.state = .finWait2 ∨ l.conn.state = .lastAck →
    l.finEnd = some l.conn.sndNext
  unfinished : l.conn.state = .synSent ∨ l.conn.state = .synReceived ∨ l.conn.state.Open →
    l.conn.peerFinished = false

namespace Life.Sound

variable {l : Life} {e : Event} {c' : Conn} {q : Option Nat}

/-- A step that finishes neither side. -/
theorem moved (h : l.Sound) (hrcv : RcvMove l.conn c' e) (hpeer : c'.peerFinished = l.conn.peerFinished)
    (hfin : c'.state = .finWait1 ∨ c'.state = .finWait2 ∨ c'.state = .lastAck → q = some c'.sndNext)
    (hopen : c'.state = .synSent ∨ c'.state = .synReceived ∨ c'.state.Open →
      l.conn.state = .synSent ∨ l.conn.state = .synReceived ∨ l.conn.state.Open)
    (hfour : c'.state = .finWait2 → l.conn.state = .finWait2) :
    Life.Sound ⟨c', l.iss, q⟩ ∧ Ordered l e ⟨c', l.iss, q⟩ := by
  refine ⟨⟨hfin, fun hs => hpeer.trans (h.unfinished (hopen hs))⟩, fun hst hst' => ?_, hrcv⟩
  cases hst.symm.trans (hfour hst')

theorem stays (h : l.Sound) (hst : c'.state = l.conn.state) (hnext : c'.sndNext = l.conn.sndNext)
    (hrcv : c'.rcvNext = l.conn.rcvNext) (hpeer : c'.peerFinished = l.conn.peerFinished) :
    Life.Sound ⟨c', l.iss, l.finEnd⟩ ∧ Ordered l e ⟨c', l.iss, l.finEnd⟩ := by
  refine h.moved (.same hrcv hpeer) hpeer ?_ ?_ ?_
  · rw [hst, hnext]
    exact h.finSent
  · rw [hst]
    exact id
  · rw [hst]
    exact id

theorem ends (h : l.Sound) (hst : c'.state = .closed) (hrcv : c'.rcvNext = l.conn.rcvNext)
    (hpeer : c'.peerFinished = l.conn.peerFinished) :
    Life.Sound ⟨c', l.iss, q⟩ ∧ Ordered l e ⟨c', l.iss, q⟩ :=
  h.moved (.same hrcv hpeer) hpeer (by simp [hst]) (by simp [hst, State.Open]) (by simp [hst])

theorem opens (h : l.Sound) (hst : c'.state = .established)
    (hbefore : l.conn.state = .synSent ∨ l.conn.state = .synReceived ∨ l.conn.state.Open)
    (hrcv : RcvMove l.conn c' e) (hpeer : c'.peerFinished = l.conn.peerFinished) :
    Life.Sound ⟨c', l.iss, q⟩ ∧ Ordered l e ⟨c', l.iss, q⟩ :=
  h.moved hrcv hpeer (by simp [hst]) (fun _ => hbefore) (by simp [hst])

variable {now : Nat} {s : Segment}

/-- A segment for a connection that takes data. -/
theorem data (h : l.Sound) (hst : l.conn.state.Open) :
    Life.Sound ⟨((l.conn.retire s).takeData s).takeFin now s, l.iss, l.finEnd⟩ ∧
      Ordered l (.segment now s) ⟨((l.conn.retire s).takeData s).takeFin now s, l.iss, l.finEnd⟩ := by
  have hr := l.conn.retire_retired s
  have hpeer := h.unfinished (Or.inr (Or.inr hst))
  generalize l.conn.retire s = c₁ at hr
  have ht := c₁.takeData_took s
  generalize c₁.takeData s = c₂ at ht
  have hstate : c₂.state = l.conn.state := ht.state.trans hr.state
  have hnext : c₂.sndNext = l.conn.sndNext := ht.sent.sndNext.trans hr.sndNext
  have hclear : c₂.peerFinished = l.conn.peerFinished := ht.peerFinished.trans hr.peerFinished
  have hrcv : c₂.rcvNext = l.conn.rcvNext ∨
      (s.seq = l.conn.rcvNext ∧ c₂.rcvNext = wrap32 (l.conn.rcvNext + s.data.length)) := by
    rw [← hr.rcvNext]
    exact ht.rcvNext
  have hfinSent := h.finSent
  rw [← hstate, ← hnext] at hfinSent
  have hcase := c₂.takeFin_cases now s
  generalize c₂.takeFin now s = c₃ at hcase
  cases hcase with
  | finished t hfin _ =>
    have hclose : c₂.state.finished = .closeWait ∨ c₂.state.finished = .timeWait := by
      rw [hstate]
      rcases hst with hst | hst | hst <;> simp [hst, State.finished]
    refine ⟨⟨?_, ?_⟩, ⟨?_, ?_⟩⟩
    · rcases hclose with hc | hc <;> simp [hc]
    · rcases hclose with hc | hc <;> simp [hc, State.Open]
    · rcases hclose with hc | hc <;> simp [hc]
    · rcases hrcv with hrcv | ⟨hseq, hrcv⟩
      · refine .fin hfin hpeer rfl ?_
        show wrap32 (c₂.rcvNext + 1) = _
        rw [hrcv]
      · refine .dataFin hseq hfin hpeer rfl ?_
        show wrap32 (c₂.rcvNext + 1) = _
        rw [hrcv]
        simp only [wrap32]
        omega
  | acked _ hack hst₂ hcovers =>
    have hend := hfinSent (Or.inl hst₂)
    refine ⟨⟨fun _ => hend, fun _ => hclear.trans hpeer⟩,
      fun _ _ => ⟨c₂.sndNext, hend, now, s, rfl, hack, hcovers⟩, ?_⟩
    exact hrcv.elim (.same · hclear) fun hin => .data hin.1 hin.2 hclear
  | none _ =>
    refine h.moved (hrcv.elim (.same · hclear) fun hin => .data hin.1 hin.2 hclear) hclear hfinSent
      ?_ ?_
    · rw [hstate]
      exact id
    · rw [hstate]
      exact id

theorem segment (h : l.Sound) (now : Nat) (s : Segment) :
    Life.Sound ⟨l.conn.receive now s, l.iss, l.finEnd⟩ ∧
      Ordered l (.segment now s) ⟨l.conn.receive now s, l.iss, l.finEnd⟩ := by
  have hr := l.conn.retire_retired s
  have hcase := l.conn.receive_cases now s
  generalize l.conn.receive now s = c' at hcase
  cases hcase with
  | reset _ => exact h.ends rfl rfl rfl
  | accepted _ hst _ =>
    exact h.opens rfl (Or.inr (Or.inl hst)) (.same hr.rcvNext hr.peerFinished) hr.peerFinished
  | connected _ hst hsyn _ =>
    exact h.opens rfl (Or.inl hst) (.syn hst hsyn rfl hr.peerFinished) hr.peerFinished
  | data _ hst => exact h.data hst
  | lastAcked _ _ _ => exact h.ends rfl hr.rcvNext hr.peerFinished
  | other _ _ => exact h.stays hr.state hr.sndNext hr.rcvNext hr.peerFinished

theorem step (h : l.Sound) (e : Event) : (lives.step l e).1.Sound ∧ Ordered l e (lives.step l e).1 := by
  show (l.step e).1.Sound ∧ Ordered l e (l.step e).1
  unfold Life.step
  split
  · cases e with
    | segment now s => exact h.segment now s
    | recv max =>
      have hk := l.conn.recvInto_kept max
      exact h.stays hk.state hk.sndNext hk.rcvNext hk.peerFinished
    | send now ok data =>
      have hcase := l.conn.send_cases now ok data
      simp only [Conn.after]
      generalize l.conn.send now ok data = r at hcase
      cases hcase with
      | refused _ _ _ => exact h.stays rfl rfl rfl rfl
      | sent hst _ _ =>
        obtain ⟨window, hw⟩ := l.conn.sendTracked_eq now (TCP_ACK ||| TCP_PSH) (data.take TCP_MSS)
        simp only [hw]
        exact h.opens hst (by simp [hst, State.Open]) (.same rfl rfl) rfl
    | close now =>
      have hcase := l.conn.close_cases now
      simp only [Conn.after]
      generalize l.conn.close now = c' at hcase
      cases hcase with
      | fin st hst =>
        obtain ⟨window, hw⟩ := l.conn.sendTracked_eq now (TCP_ACK ||| TCP_FIN) []
        simp only [hw]
        refine h.moved (.same rfl rfl) rfl (fun _ => ?_) ?_ ?_ <;>
          rcases hst with ⟨hst, rfl⟩ | ⟨hst, rfl⟩ <;> simp [hst, Conn.sendsFin, State.Open]
      | dropped _ _ => exact h.ends rfl rfl rfl
    | tick now ok =>
      have hcase := l.conn.tick_cases now ok
      simp only [Conn.after]
      generalize l.conn.tick now ok = c' at hcase
      cases hcase with
      | released _ => exact h.stays rfl rfl rfl rfl
      | gaveUp _ _ _ hk => exact h.ends hk.state hk.rcvNext hk.peerFinished
      | kept _ hk => exact h.stays hk.state hk.sndNext hk.rcvNext hk.peerFinished
  · exact h.stays rfl rfl rfl rfl

theorem begins (h : l.Begins) : l.Sound := by
  cases h with
  | active _ _ _ _ => exact ⟨fun h => (by rcases h with h | h | h <;> cases h), fun _ => rfl⟩
  | passive _ _ _ _ _ => exact ⟨fun h => (by rcases h with h | h | h <;> cases h), fun _ => rfl⟩

end Life.Sound

/-! ## Warranted steps -/

/-- What every state satisfies after warranted steps. -/
structure Life.Sane (l : Life) : Prop where
  flight : l.conn.InFlight
  handshake : l.conn.state = .synSent ∨ l.conn.state = .synReceived → l.conn.sndNext = wrap32 (l.iss + 1)

namespace Life.Sane

variable {l : Life} {e : Event} {c' : Conn} {q : Option Nat} {now : Nat} {s : Segment}

/-- A step that sends nothing and opens nothing. -/
theorem moved (h : l.Sane) (hflight : c'.InFlight) (hnext : c'.sndNext = l.conn.sndNext)
    (hun : seqSub c'.sndUnacked l.conn.sndUnacked ≤ seqSub l.conn.sndNext l.conn.sndUnacked)
    (hst : c'.state = .synSent ∨ c'.state = .synReceived ∨ c'.state = .established → c'.state = l.conn.state)
    (hlast : l.conn.state = .lastAck → c'.state = .closed → ∃ q, l.finEnd = some q ∧ Covers e q) :
    Life.Sane ⟨c', l.iss, q⟩ ∧ Backed l e ⟨c', l.iss, q⟩ := by
  refine ⟨⟨hflight, fun hs => ?_⟩, fun hne hs => ?_, hlast, ?_⟩
  · rw [hst (hs.imp_right Or.inl)] at hs
    exact hnext.trans (h.handshake hs)
  · exact absurd ((hst (Or.inr (Or.inr hs))).symm.trans hs) hne
  · show _ ≤ seqSub c'.sndNext _ ∧ seqSub c'.sndNext _ < _
    rw [hnext]
    exact ⟨hun, h.flight.near.span_lt⟩

theorem stays (h : l.Sane) (hst : c'.state = l.conn.state) (hs : Sent l.conn c') :
    Life.Sane ⟨c', l.iss, q⟩ ∧ Backed l e ⟨c', l.iss, q⟩ := by
  refine h.moved (h.flight.frame hs (by rw [hst]; exact id)) hs.sndNext ?_ (fun _ => hst) fun hl hc => ?_
  · rw [hs.sndUnacked, seqSub_self]
    exact Nat.zero_le _
  · cases hl.symm.trans (hst.symm.trans hc)

theorem ends (h : l.Sane) (hst : c'.state = .closed) (hs : Sent l.conn c')
    (hlast : l.conn.state = .lastAck → ∃ q, l.finEnd = some q ∧ Covers e q) :
    Life.Sane ⟨c', l.iss, q⟩ ∧ Backed l e ⟨c', l.iss, q⟩ := by
  refine h.moved (h.flight.frame hs (by simp [hst, State.Sending])) hs.sndNext ?_ (by simp [hst])
    fun hl _ => hlast hl
  rw [hs.sndUnacked, seqSub_self]
  exact Nat.zero_le _

/-- A segment with the number of the handshake opens the connection. -/
theorem opens (h : l.Sane) (hst : c'.state = .established) (hflight : c'.InFlight)
    (hnext : c'.sndNext = l.conn.sndNext)
    (hun : seqSub c'.sndUnacked l.conn.sndUnacked ≤ seqSub l.conn.sndNext l.conn.sndUnacked)
    (hack : ack s.flags = true) (hiss : s.ack = wrap32 (l.iss + 1)) :
    Life.Sane ⟨c', l.iss, q⟩ ∧ Backed l (.segment now s) ⟨c', l.iss, q⟩ := by
  refine ⟨⟨hflight, by simp [hst]⟩, fun _ _ => ⟨now, s, rfl, hack, hiss⟩, by simp [hst], ?_⟩
  show _ ≤ seqSub c'.sndNext _ ∧ seqSub c'.sndNext _ < _
  rw [hnext]
  exact ⟨hun, h.flight.near.span_lt⟩

/-- A segment of this side's goes out. -/
theorem sends (hflight : c'.InFlight) (hun : c'.sndUnacked = l.conn.sndUnacked)
    (hst : c'.state = l.conn.state ∧ c'.state = .established ∨ c'.state = .finWait1 ∨ c'.state = .lastAck) :
    Life.Sane ⟨c', l.iss, q⟩ ∧ Backed l e ⟨c', l.iss, q⟩ := by
  have hspan := hflight.near.span_lt
  rw [hun] at hspan
  refine ⟨⟨hflight, ?_⟩, fun hne hs => ?_, fun _ hs => ?_, ?_, hspan⟩
  · rcases hst with ⟨-, hst⟩ | hst | hst <;> simp [hst]
  · rcases hst with ⟨hsame, -⟩ | hst | hst
    · exact absurd (hsame.symm.trans hs) hne
    · cases hst.symm.trans hs
    · cases hst.symm.trans hs
  · rcases hst with ⟨-, hst⟩ | hst | hst <;> cases hst.symm.trans hs
  · show seqSub c'.sndUnacked _ ≤ _
    rw [hun, seqSub_self]
    exact Nat.zero_le _

theorem segment (h : l.Sane) (hs : l.Sound) (hin : l.conn.inUse = true)
    (hw : Warranted l (.segment now s)) :
    Life.Sane ⟨l.conn.receive now s, l.iss, l.finEnd⟩ ∧
      Backed l (.segment now s) ⟨l.conn.receive now s, l.iss, l.finEnd⟩ := by
  obtain ⟨hlast, hopens⟩ := hw hin
  have hlast (hl : l.conn.state = .lastAck) (hflags : rst s.flags = true ∨ ack s.flags = true) :
      ∃ q, l.finEnd = some q ∧ Covers (.segment now s) q :=
    ⟨_, hs.finSent (Or.inr (Or.inr hl)), now, s, rfl, hlast hl hflags⟩
  have hr := l.conn.retire_retired s
  have hcase := l.conn.receive_cases now s
  generalize l.conn.receive now s = c' at hcase
  cases hcase with
  | reset hrst => exact h.ends rfl ⟨rfl, rfl, rfl, rfl, rfl⟩ fun hl => hlast hl (Or.inl hrst)
  | accepted hrst hst hack =>
    obtain ⟨hopp, hiss⟩ := hopens hrst hack
    have hiss := hiss (Or.inl hst)
    have hnext := h.handshake (Or.inr hst)
    have hnear := h.flight.near.retire (fun _ => hopp)
    refine h.opens rfl ⟨⟨hnear.next_lt, hnear.unacked_lt, hnear.most⟩, fun _ => .of_settled ?_ rfl rfl⟩
      hr.sndNext (h.flight.near.unacked_moves fun _ => hopp) hack hiss
    show (l.conn.retire s).sndUnacked = (l.conn.retire s).sndNext
    rw [(h.flight.near.acceptable_next hack (hiss.trans hnext.symm)).retire_unacked, hr.sndNext, hiss, hnext]
  | connected hrst hst hsyn hack =>
    obtain ⟨hopp, hiss⟩ := hopens hrst hack
    refine h.opens rfl ((h.flight.retire fun _ => hopp).frame ⟨rfl, rfl, rfl, rfl, rfl⟩ fun _ => ?_)
      hr.sndNext (h.flight.near.unacked_moves fun _ => hopp) hack (hiss (Or.inr ⟨hst, hsyn⟩))
    exact Or.inl (hr.state.trans hst)
  | data hrst hst =>
    have hopp (hack : ack s.flags = true) := (hopens hrst hack).1
    have hmoves := h.flight.near.unacked_moves hopp
    have hsent := ((l.conn.retire s).takeData_took s).sent.trans
      (((l.conn.retire s).takeData s).takeFin_sent now s)
    rw [← hsent.sndUnacked] at hmoves
    have hstate := ((l.conn.retire s).takeData_took s).state.trans hr.state
    have hcase := ((l.conn.retire s).takeData s).takeFin_cases now s
    have hopen : l.conn.state ≠ .lastAck := by rcases hst with hst | hst | hst <;> simp [hst]
    generalize ((l.conn.retire s).takeData s).takeFin now s = c₃ at hsent hmoves hcase
    have hkeep : c₃.state = l.conn.state ∨ c₃.state = .closeWait ∧ l.conn.state = .established ∨
        c₃.state = .timeWait ∨ c₃.state = .finWait2 := by
      cases hcase with
      | finished _ _ _ =>
        show State.finished _ = _ ∨ State.finished _ = _ ∧ _ ∨ State.finished _ = _ ∨ State.finished _ = _
        rw [hstate]
        rcases hst with hst | hst | hst <;> simp [hst, State.finished]
      | acked _ _ _ _ => exact Or.inr (Or.inr (Or.inr rfl))
      | none _ => exact Or.inl hstate
    refine h.moved ((h.flight.retire hopp).frame hsent ?_) (hsent.sndNext.trans hr.sndNext) hmoves ?_
      fun hl => absurd hl hopen
    · rw [hr.state]
      rcases hkeep with hc | ⟨hc, hest⟩ | hc | hc <;> simp [hc, State.Sending]
      simp [hest]
    · rcases hkeep with hc | ⟨hc, -⟩ | hc | hc <;> simp [hc]
  | lastAcked hrst hst hack =>
    have hopp := (hopens hrst hack).1
    exact h.moved ((h.flight.retire fun _ => hopp).frame ⟨rfl, rfl, rfl, rfl, rfl⟩ (by simp [State.Sending]))
      hr.sndNext (h.flight.near.unacked_moves fun _ => hopp) (by simp) fun hl _ => hlast hl (Or.inr hack)
  | other hrst _ =>
    have hopp (hack : ack s.flags = true) := (hopens hrst hack).1
    refine h.moved (h.flight.retire hopp) hr.sndNext (h.flight.near.unacked_moves hopp) (fun _ => hr.state)
      fun hl hc => ?_
    cases hl.symm.trans (hr.state.symm.trans hc)

theorem step (h : l.Sane) (hs : l.Sound) (hw : Warranted l e) :
    (lives.step l e).1.Sane ∧ Backed l e (lives.step l e).1 := by
  show (l.step e).1.Sane ∧ Backed l e (l.step e).1
  unfold Life.step
  split
  · rename_i hin
    cases e with
    | segment now s => exact h.segment hs hin hw
    | recv max =>
      have hk := l.conn.recvInto_kept max
      exact h.stays hk.state hk.sent
    | send now ok data =>
      have hflight := h.flight.send now ok data
      have hcase := l.conn.send_cases now ok data
      simp only [Conn.after]
      generalize l.conn.send now ok data = r at hcase hflight
      cases hcase with
      | refused _ _ _ => exact h.stays rfl (.refl _)
      | sent hst _ _ =>
        obtain ⟨window, hw⟩ := l.conn.sendTracked_eq now (TCP_ACK ||| TCP_PSH) (data.take TCP_MSS)
        simp only [hw] at hflight ⊢
        exact sends hflight rfl (Or.inl ⟨rfl, hst⟩)
    | close now =>
      have hcase := l.conn.close_cases now
      simp only [Conn.after]
      generalize l.conn.close now = c' at hcase
      cases hcase with
      | fin st hst =>
        obtain ⟨window, hw⟩ := l.conn.sendTracked_eq now (TCP_ACK ||| TCP_FIN) []
        have hbefore : l.conn.state.Sending := by
          rcases hst with ⟨hst, -⟩ | ⟨hst, -⟩ <;> simp [hst, State.Sending]
        have hafter : ¬ st.Sending := by
          rcases hst with ⟨-, hst⟩ | ⟨-, hst⟩ <;> simp [hst, State.Sending]
        have hflight := h.flight.fin hbefore now hafter
        simp only [hw] at hflight ⊢
        exact sends hflight rfl (Or.inr (hst.imp And.right And.right))
      | dropped _ _ => exact h.ends rfl ⟨rfl, rfl, rfl, rfl, rfl⟩ fun hl => absurd hl (hw hin)
    | tick now ok =>
      have hcase := l.conn.tick_cases now ok
      simp only [Conn.after]
      generalize l.conn.tick now ok = c' at hcase
      cases hcase with
      | released _ => exact h.stays rfl ⟨rfl, rfl, rfl, rfl, rfl⟩
      | gaveUp hflight hnow hover hk =>
        exact h.ends hk.state ⟨hk.sndNext, hk.sndUnacked, hk.pending, hk.pendingFlags, hk.pendingSeq⟩
          fun hl => absurd ⟨hflight, hnow, hover⟩ (hw hin hl)
      | kept _ hk => exact h.stays hk.state hk.sent
  · exact h.stays rfl (.refl _)

theorem of_syn {c : Conn} {flags : Nat} (hflags : Conn.control flags = 1) (hnext : c.sndNext = Conn.isn now)
    (hun : c.sndUnacked = Conn.isn now) : Life.Sane ⟨c.sendTracked now flags [], Conn.isn now, none⟩ := by
  have hlt : Conn.isn now < 0x100000000 := wrap32_lt _
  have hnear : c.Near := ⟨by rw [hnext]; exact hlt, by rw [hun]; exact hlt, by
    rw [hnext, hun, seqSub_self]
    exact Nat.zero_le _⟩
  obtain ⟨hholds, hnear'⟩ := Conn.Holds.of_sends (c.sendTracked_sends now flags []) hnear (hun.trans hnext.symm)
    (by rw [hflags]; decide)
  refine ⟨⟨hnear', fun _ => hholds⟩, fun _ => ?_⟩
  show wrap32 (c.sndNext + 0 + Conn.control flags) = wrap32 (Conn.isn now + 1)
  rw [hnext, hflags]

theorem begins (h : l.Begins) : l.Sane := by
  cases h with
  | active now destIp destPort localPort => exact of_syn (by decide) rfl rfl
  | passive now srcIp srcPort destPort theirSeq => exact of_syn (by decide) rfl rfl

end Life.Sane

/-! ## A step that is backed is warranted -/

namespace Conn

variable {c : Conn} {now : Nat} {s : Segment}

theorem receive_lastAck (hst : c.state = .lastAck) (h : rst s.flags = true ∨ ack s.flags = true) :
    (c.receive now s).state = .closed := by
  unfold receive
  split
  · rfl
  · rename_i hrst
    simp only [(c.retire_retired s).state, hst]
    rw [if_pos (h.resolve_left hrst)]

theorem receive_opens (hrst : rst s.flags = false) (hack : ack s.flags = true)
    (hst : c.state = .synReceived ∨ (c.state = .synSent ∧ syn s.flags = true)) :
    (c.receive now s).state = .established := by
  rcases hst with hst | ⟨hst, hsyn⟩
  · simp [receive, hrst, (c.retire_retired s).state, hst, hack]
  · simp [receive, hrst, (c.retire_retired s).state, hst, hack, hsyn]

theorem receive_unacked (hrst : rst s.flags = false) :
    (c.receive now s).sndUnacked = (c.retire s).sndUnacked := by
  have hcase := c.receive_cases now s
  generalize c.receive now s = c' at hcase
  cases hcase with
  | reset h => cases hrst.symm.trans h
  | data _ _ =>
    exact (((c.retire s).takeData_took s).sent.trans
      (((c.retire s).takeData s).takeFin_sent now s)).sndUnacked
  | accepted _ _ _ => rfl
  | connected _ _ _ _ => rfl
  | lastAcked _ _ _ => rfl
  | other _ _ => rfl

theorem receive_next (c : Conn) (now : Nat) (g : Segment) : (c.receive now g).sndNext = c.sndNext := by
  have hr := c.retire_retired g
  have hcase := c.receive_cases now g
  generalize c.receive now g = c' at hcase
  cases hcase with
  | reset _ => rfl
  | data _ _ =>
    have ht := (c.retire g).takeData_took g
    have hf := ((c.retire g).takeData g).takeFin_sent now g
    exact ((ht.sent.trans hf).sndNext).trans hr.sndNext
  | accepted _ _ _ => exact hr.sndNext
  | connected _ _ _ _ => exact hr.sndNext
  | lastAcked _ _ _ => exact hr.sndNext
  | other _ _ => exact hr.sndNext

theorem tick_givesUp {ok : Bool} (hst : c.state = .lastAck) (h : c.givesUp now) :
    (c.tick now ok).state = .closed := by
  obtain ⟨hflight, hnow, hover⟩ := h
  obtain ⟨hk, hdeadline, htries⟩ := c.tickAck_kept ok
  rw [tick, if_neg (by simp [hst]), tickResend, hk.pending, hk.pendingFlags, if_neg hflight, hdeadline,
    if_neg (Nat.not_lt.mpr hnow), htries, if_pos hover]

/-- The number half the space away passes both comparisons. -/
theorem Opposite.acceptable (h : c.Opposite s) (hack : ack s.flags = true) : c.Acceptable s := by
  obtain ⟨hun, hs⟩ := h
  refine ⟨hack, ?_, ?_⟩ <;> rw [seqLe_iff]
  · rw [hun, hs]
    simp only [seqSub, wrap32]
    omega
  · rw [hs]
    simp only [seqSub, wrap32]
    omega

end Conn

theorem Life.Sane.warranted {l : Life} {e : Event} (h : l.Sane) (hs : l.Sound)
    (hb : Backed l e (lives.step l e).1) : Warranted l e := by
  intro hin
  have hafter : (lives.step l e).1.conn = l.conn.after e := by
    show (l.step e).1.conn = _
    rw [Life.step, if_pos hin]
  obtain ⟨hest, hlast, hun⟩ := hb
  rw [hafter] at hest hlast hun
  have hcovers (hl : l.conn.state = .lastAck) (hc : (l.conn.after e).state = .closed) :
      Covers e l.conn.sndNext := by
    obtain ⟨q, hq, hcovers⟩ := hlast hl hc
    rw [hs.finSent (Or.inr (Or.inr hl))] at hq
    cases hq
    exact hcovers
  cases e with
  | segment now s =>
    refine ⟨fun hl hflags => ?_, fun hrst hack => ⟨fun hopp => ?_, fun hst => ?_⟩⟩
    · obtain ⟨now', s', he, hack⟩ := hcovers hl (Conn.receive_lastAck hl hflags)
      cases he
      exact hack
    · have hle := hun.1
      have hnext := h.flight.near.next_lt
      simp only [Conn.after] at hle
      rw [Conn.receive_unacked hrst, (hopp.acceptable hack).retire_unacked,
        Conn.receive_next, hopp.1, hopp.2, seqSub_self] at hle
      simp only [seqSub, wrap32] at hle
      omega
    · have hne : l.conn.state ≠ .established := by rcases hst with hst | ⟨hst, -⟩ <;> simp [hst]
      obtain ⟨now', s', he, -, hiss⟩ := hest hne (Conn.receive_opens hrst hack hst)
      cases he
      exact hiss
  | tick now ok =>
    intro hl hgives
    obtain ⟨_, _, he, _⟩ := hcovers hl (Conn.tick_givesUp hl hgives)
    cases he
  | close now =>
    intro hl
    obtain ⟨_, _, he, _⟩ := hcovers hl (by simp [Conn.after, Conn.close, hl])
    cases he
  | send now ok data => trivial
  | recv max => trivial

/-! ## Runs from the SYN on -/

/-- **Every change of state is justified, exactly when it is warranted.** In
every run every step is `Ordered`; and all are `Justified` if and only if all
are `Warranted`. -/
theorem state_changes_justified {l : Life} (hl : l.Begins) (events : List Event) :
    lives.Guarded (fun l e => Ordered l e (lives.step l e).1) l events ∧
      (lives.Guarded (fun l e => Justified l e (lives.step l e).1) l events ↔
        lives.Guarded Warranted l events) := by
  constructor
  · exact (lives.guarded_iff Life.Sound (fun (l : Life) e (h : l.Sound) => iff_true_intro (h.step e).2)
      (fun (l : Life) e (h : l.Sound) _ => (h.step e).1) events l (.begins hl)).mpr
      (lives.guarded_true l events)
  · refine lives.guarded_iff (fun l => l.Sound ∧ l.Sane) ?_ ?_ events l ⟨.begins hl, .begins hl⟩
    · rintro l e ⟨hs, h⟩
      exact ⟨fun hj => h.warranted hs hj.toBacked, fun hw => ⟨(hs.step e).2, (h.step hs hw).2⟩⟩
    · rintro l e ⟨hs, h⟩ hj
      exact ⟨(hs.step e).1, (h.step hs (h.warranted hs hj.toBacked)).1⟩

/-- A client's connection at its SYN. -/
def answeredClient : Life := ⟨Conn.answered 0 0x0A000202 1234 80 100, Conn.isn 0, none⟩

/-- The client's next segment, without data. -/
def fromClient (flags ack : Nat) (h : ack < 0x100000000) : Event :=
  .segment 0 ⟨1234, 80, 101, ack, flags, [], by decide, h⟩

theorem state_changes_justified_handshake :
    let events := [fromClient TCP_ACK 0x4E560001 (by decide), .close 1]
    lives.Guarded (fun l e => Justified l e (lives.step l e).1) answeredClient events ∧
      (lives.run answeredClient events).conn.state = .finWait1 :=
  ⟨(state_changes_justified (.passive 0 0x0A000202 1234 80 100)
      [fromClient TCP_ACK 0x4E560001 (by decide), .close 1]).2.mpr
    ⟨fun _ => ⟨nofun, fun _ _ => ⟨by unfold Conn.Opposite; decide, fun _ => by decide⟩⟩,
      fun _ => by decide, trivial⟩, by decide⟩

/-- A segment that acknowledges number 0 establishes a connection; and a reset
leaves LAST_ACK with the FIN unacknowledged. -/
theorem state_changes_unjustified :
    ¬ Justified answeredClient (fromClient TCP_ACK 0 (by decide))
        (lives.step answeredClient (fromClient TCP_ACK 0 (by decide))).1 ∧
      let l := lives.run answeredClient [fromClient TCP_ACK 0x4E560001 (by decide),
        fromClient (TCP_ACK ||| TCP_FIN) 0x4E560001 (by decide), .close 1]
      ¬ Justified l (fromClient TCP_RST 0 (by decide)) (lives.step l (fromClient TCP_RST 0 (by decide))).1 := by
  refine ⟨fun h => ?_, fun h => ?_⟩
  · obtain ⟨now, s, he, -, hiss⟩ := h.established (by decide) (by decide)
    cases he
    revert hiss
    decide
  · obtain ⟨q, -, now, s, he, hack, -⟩ := h.lastAcked (by decide) (by decide)
    cases he
    revert hack
    decide

end NovarisOS.Tcp
