/-
NovarisOS.Tcp.Sender — no byte is lost and none is sent twice.

Everything this side has given a sequence number, from its SYN on, is a list
of symbols: the SYN, the bytes, the FIN. A `Sender` keeps the bytes of that
list and, beside them, the bytes `tcp_send` has told its callers it took.
-/
import NovarisOS.Tcp.States

namespace NovarisOS.Tcp

/-- What occupies a sequence number. -/
inductive Symbol where
  | syn
  | byte (b : UInt8)
  | fin
  deriving DecidableEq

structure Sender where
  life : Life
  /-- The bytes that have sequence numbers. -/
  given : List UInt8
  /-- The bytes that `tcp_send` reported. -/
  taken : List UInt8

/-- What the event tells the caller was taken. -/
def Conn.reports (c : Conn) : Event → List UInt8
  | .send now ok data => data.take (c.send now ok data).1.toNat
  | _ => []

/-- The bytes the event gives new sequence numbers to: those of the pending
segment, when `snd_next` has moved. -/
def Conn.gives (c : Conn) (e : Event) : List UInt8 :=
  if (c.after e).sndNext = c.sndNext then [] else (c.after e).pending

def Sender.step (s : Sender) (e : Event) : Sender × Unit :=
  if s.life.conn.inUse then
    ({ life := (lives.step s.life e).1, given := s.given ++ s.life.conn.gives e
       taken := s.taken ++ s.life.conn.reports e }, ())
  else (s, ())

def senders : Machine Sender Event Unit := ⟨Sender.step⟩

/-- Everything that has a sequence number, beginning at the initial one. -/
def Sender.numbered (s : Sender) : List Symbol :=
  .syn :: s.given.map .byte ++ if s.life.finEnd = none then [] else [.fin]

/-- What a segment carries. -/
def symbols (flags : Nat) (data : List UInt8) : List Symbol :=
  (if syn flags then [.syn] else []) ++ data.map .byte ++ if fin flags then [.fin] else []

/-- What the pending segment carries. -/
def Conn.carried (c : Conn) : List Symbol := symbols c.pendingFlags c.pending

/-- What is not acknowledged can be sent again: it is the rest of what was
numbered, and the rest of the pending segment from its number on. -/
def Sender.Retransmits (s : Sender) : Prop :=
  ∃ acked before rest, s.numbered = acked ++ rest ∧ s.life.conn.carried = before ++ rest ∧
    rest.length = seqSub s.life.conn.sndNext s.life.conn.sndUnacked ∧
    (rest ≠ [] → wrap32 (s.life.conn.pendingSeq + before.length) = s.life.conn.sndUnacked)

structure Sender.Exact (s : Sender) : Prop where
  once : s.given = s.taken
  numbers : s.life.conn.sndNext = wrap32 (s.life.iss + s.numbered.length)
  held : s.life.conn.state ≠ .closed → s.Retransmits

/-- The transmissions that `tcp_send` reports on work, the FIN waits for the
bytes before it, and the number of an acknowledgement is right where it is
not looked at. -/
def Sender.Sure (s : Sender) : Event → Prop
  | .send _ ok data => s.life.conn.state = .established → s.life.conn.pending = [] →
      s.life.conn.pendingFlags = 0 → data ≠ [] → ok = true
  | .close _ => s.life.conn.state = .established ∨ s.life.conn.state = .closeWait →
      s.life.conn.sndUnacked = s.life.conn.sndNext
  | .segment _ g => rst g.flags = false → ack g.flags = true → s.life.conn.state ≠ .closed →
      ¬ s.life.conn.Opposite g ∧ (s.life.conn.state = .synReceived → g.ack = s.life.conn.sndNext)
  | _ => True

/-! ## The pending segment in the list -/

/-- The pending segment is the end of what was numbered. -/
structure Sender.Carries (s : Sender) : Prop where
  near : s.life.conn.Near
  holds : s.life.conn.Holds
  plain : (syn s.life.conn.pendingFlags && fin s.life.conn.pendingFlags) = false
  suffix : s.life.conn.carried <:+ s.numbered

theorem symbols_length {flags : Nat} (h : (syn flags && fin flags) = false) (data : List UInt8) :
    (symbols flags data).length = data.length + Conn.control flags := by
  unfold symbols Conn.control
  cases hs : syn flags <;> cases hf : fin flags <;> simp [hs, hf] at h ⊢

variable {s : Sender}

theorem Sender.Carries.retransmits (h : s.Carries) : s.Retransmits := by
  obtain ⟨hnear, hholds, hplain, acked, hsuffix⟩ := h
  have hlen : s.life.conn.carried.length = s.life.conn.flight := symbols_length hplain _
  have hspan := hholds.span
  have hun := hnear.unacked_lt
  generalize hn : seqSub s.life.conn.sndNext s.life.conn.sndUnacked = n at hspan
  refine ⟨acked ++ s.life.conn.carried.take (s.life.conn.carried.length - n),
    s.life.conn.carried.take (s.life.conn.carried.length - n),
    s.life.conn.carried.drop (s.life.conn.carried.length - n), ?_, (List.take_append_drop _ _).symm, ?_, ?_⟩
  · rw [List.append_assoc, List.take_append_drop, hsuffix]
  · rw [List.length_drop, hn]
    omega
  · intro hrest
    have hin : ¬ (s.life.conn.pending = [] ∧ s.life.conn.pendingFlags = 0) := by
      rintro ⟨hp, hf⟩
      have hnone : s.life.conn.carried = [] := by
        rw [Conn.carried, hp, hf]
        decide
      rw [hnone, List.drop_nil] at hrest
      exact hrest rfl
    have hends := hholds.ends hin
    rw [List.length_take, Nat.min_eq_left (Nat.sub_le _ _)]
    simp only [seqSub, wrap32] at *
    omega

theorem Sender.Carries.of_settled (hnear : s.life.conn.Near)
    (hun : s.life.conn.sndUnacked = s.life.conn.sndNext) (hp : s.life.conn.pending = [])
    (hf : s.life.conn.pendingFlags = 0) : s.Carries := by
  refine ⟨hnear, .of_settled hun hp hf, ?_, ?_⟩
  · rw [hf]
    decide
  · have hnone : s.life.conn.carried = [] := by
      rw [Conn.carried, hp, hf]
      decide
    rw [hnone]
    exact List.nil_suffix

theorem Sender.Carries.frame {s' : Sender} (h : s.Carries) (hs : Sent s.life.conn s'.life.conn)
    (hgiven : s'.given = s.given) (hfin : s'.life.finEnd = s.life.finEnd) : s'.Carries := by
  refine ⟨h.near.frame hs, h.holds.frame hs, ?_, ?_⟩
  · rw [hs.pendingFlags]
    exact h.plain
  · rw [Conn.carried, hs.pending, hs.pendingFlags, Sender.numbered, hgiven, hfin]
    exact h.suffix

/-! ## What every step keeps -/

structure Sender.Ok (s : Sender) : Prop where
  once : s.given = s.taken
  numbers : s.life.conn.sndNext = wrap32 (s.life.iss + s.numbered.length)
  unfinished : s.life.conn.state.Sending → s.life.finEnd = none
  carries : s.life.conn.state ≠ .closed → s.Carries

namespace Sender.Ok

variable {s : Sender}

variable {c' : Conn}

theorem quiet (h : s.Ok) (hnext : c'.sndNext = s.life.conn.sndNext)
    (hst : c'.state.Sending → s.life.conn.state.Sending)
    (hcarries : c'.state ≠ .closed → Sender.Carries ⟨{ s.life with conn := c' }, s.given, s.taken⟩) :
    Sender.Ok ⟨{ s.life with conn := c' }, s.given, s.taken⟩ :=
  ⟨h.once, hnext.trans h.numbers, fun hs => h.unfinished (hst hs), hcarries⟩

variable {data : List UInt8} {s' : Sender}

theorem numbered_append (hfin : s.life.finEnd = none)
    (hfin' : s'.life.finEnd = none) (hgiven : s'.given = s.given ++ data) :
    s'.numbered = s.numbered ++ data.map .byte := by
  simp [Sender.numbered, hfin, hfin', hgiven]

theorem recv (h : s.Ok) (max : Nat) :
    Sender.Ok ⟨{ s.life with conn := (s.life.conn.recvInto max).2 }, s.given, s.taken⟩ := by
  have hk := s.life.conn.recvInto_kept max
  generalize (s.life.conn.recvInto max).2 = c' at hk
  refine h.quiet hk.sndNext (by rw [hk.state]; exact id) (fun hst => ?_)
  rw [hk.state] at hst
  exact (h.carries hst).frame hk.sent rfl rfl

theorem tick (h : s.Ok) (now : Nat) (ok : Bool) :
    Sender.Ok ⟨{ s.life with conn := s.life.conn.tick now ok }, s.given, s.taken⟩ := by
  have hcase := s.life.conn.tick_cases now ok
  generalize s.life.conn.tick now ok = c' at hcase
  cases hcase with
  | released _ => exact h.quiet rfl id (fun hst => (h.carries hst).frame ⟨rfl, rfl, rfl, rfl, rfl⟩ rfl rfl)
  | gaveUp _ _ _ hk =>
    refine h.quiet hk.sndNext ?_ (fun hst => absurd hk.state hst)
    rw [hk.state]
    rintro (hs | hs | hs | hs) <;> cases hs
  | kept _ hk =>
    refine h.quiet hk.sndNext (by rw [hk.state]; exact id) (fun hst => ?_)
    rw [hk.state] at hst
    exact (h.carries hst).frame hk.sent rfl rfl

variable {l : Life}

theorem retired {given taken : List UInt8} {c : Conn} (hl : l.conn = c)
    (h : Sender.Carries ⟨l, given, taken⟩) {g : Segment} (hopp : ack g.flags = true → ¬ c.Opposite g) :
    Sender.Carries ⟨{ l with conn := c.retire g }, given, taken⟩ := by
  subst hl
  have hnear : (l.conn.retire g).Near := h.near.retire hopp
  have hholds : (l.conn.retire g).Holds := h.holds.retire h.near hopp
  have hplain : (syn l.conn.pendingFlags && fin l.conn.pendingFlags) = false := h.plain
  have hsuffix : l.conn.carried <:+ _ := h.suffix
  cases l.conn.retire_cases g with
  | ignored _ hc =>
    rw [hc]
    exact h
  | partly _ hc _ =>
    rw [hc] at hnear hholds ⊢
    exact ⟨hnear, hholds, hplain, hsuffix⟩
  | wholly _ hc _ =>
    rw [hc] at hnear hholds ⊢
    exact .of_settled hnear (hholds.settled hnear rfl rfl) rfl rfl

variable {now : Nat}

theorem segment (h : s.Ok) {g : Segment} (hsure : s.Sure (.segment now g)) :
    Sender.Ok ⟨{ s.life with conn := s.life.conn.receive now g }, s.given, s.taken⟩ := by
  have hr := s.life.conn.retire_retired g
  have hcase := s.life.conn.receive_cases now g
  generalize s.life.conn.receive now g = c' at hcase
  cases hcase with
  | reset _ =>
    refine h.quiet rfl ?_ (fun hst => absurd rfl hst)
    rintro (hs | hs | hs | hs) <;> cases hs
  | accepted hrst hst hack =>
    have hlive : s.life.conn.state ≠ .closed := by rw [hst]; decide
    obtain ⟨hopp, hall⟩ := hsure hrst hack hlive
    have hnear := (h.carries hlive).near
    have hun := (hnear.acceptable_next hack (hall hst)).retire_unacked
    refine h.quiet hr.sndNext (fun _ => by rw [hst]; exact Or.inr (Or.inl rfl)) (fun _ => ?_)
    have hnear' := hnear.retire (fun _ => hopp)
    refine .of_settled ⟨hnear'.next_lt, hnear'.unacked_lt, hnear'.most⟩ ?_ rfl rfl
    exact (hun.trans (hall hst)).trans hr.sndNext.symm
  | connected hrst hst _ hack =>
    have hlive : s.life.conn.state ≠ .closed := by rw [hst]; decide
    obtain ⟨hopp, -⟩ := hsure hrst hack hlive
    refine h.quiet hr.sndNext (fun _ => by rw [hst]; exact Or.inl rfl) (fun _ => ?_)
    exact (retired rfl (h.carries hlive) (fun _ => hopp)).frame ⟨rfl, rfl, rfl, rfl, rfl⟩ rfl rfl
  | data hrst hst =>
    have hlive : s.life.conn.state ≠ .closed := by
      rcases hst with hst | hst | hst <;> rw [hst] <;> decide
    have hcarries := retired rfl (h.carries hlive) (fun hack => (hsure hrst hack hlive).1)
    have ht := (s.life.conn.retire g).takeData_took g
    have hf := ((s.life.conn.retire g).takeData g).takeFin_sent now g
    have hfin := ((s.life.conn.retire g).takeData g).takeFin_cases now g
    have hstate : ((s.life.conn.retire g).takeData g).state = s.life.conn.state := ht.state.trans hr.state
    generalize hd : (s.life.conn.retire g).takeData g = c₂ at ht hf hfin hstate
    refine h.quiet ((hf.sndNext.trans ht.sent.sndNext).trans hr.sndNext) ?_ (fun _ => ?_)
    · intro hs
      generalize c₂.takeFin now g = c₃ at hfin hs
      rw [← hstate]
      cases hfin with
      | finished t _ _ =>
        rw [← hstate] at hst
        rcases hst with hst | hst | hst
        · rw [hst]
          exact Or.inr (Or.inr (Or.inl rfl))
        · rw [hst] at hs
          rcases hs with hs | hs | hs | hs <;> cases hs
        · rw [hst] at hs
          rcases hs with hs | hs | hs | hs <;> cases hs
      | acked _ _ _ _ => rcases hs with hs | hs | hs | hs <;> cases hs
      | none _ => exact hs
    · exact hcarries.frame (ht.sent.trans hf) rfl rfl
  | lastAcked _ _ _ =>
    refine h.quiet hr.sndNext ?_ (fun hst => absurd rfl hst)
    rintro (hs | hs | hs | hs) <;> cases hs
  | other hrst _ =>
    refine h.quiet hr.sndNext (by rw [hr.state]; exact id) (fun hst => ?_)
    rw [hr.state] at hst
    exact retired rfl (h.carries hst) (fun hack => (hsure hrst hack hst).1)

theorem gives_send {c : Conn} {now : Nat} {ok : Bool} {data : List UInt8}
    (hafter : (c.send now ok data).2 = c.sendTracked now (TCP_ACK ||| TCP_PSH)
      (data.take TCP_MSS)) : c.gives (.send now ok data) = data.take TCP_MSS := by
  obtain ⟨window, hw⟩ := c.sendTracked_eq now (TCP_ACK ||| TCP_PSH) (data.take TCP_MSS)
  have hctl : Conn.control (TCP_ACK ||| TCP_PSH) = 0 := by decide
  have hlen : (data.take TCP_MSS).length ≤ TCP_MSS := by
    rw [List.length_take]
    omega
  show (if (c.send now ok data).2.sndNext = c.sndNext then [] else (c.send now ok data).2.pending) = _
  rw [hafter, hw, hctl]
  split
  · rename_i hsame
    have hnone : (data.take TCP_MSS).length = 0 := by
      simp only [wrap32, TCP_MSS] at *
      omega
    exact (List.length_eq_zero_iff.mp hnone).symm
  · rfl

theorem sends (h : s.Ok) {flags : Nat} (hlive : s.life.conn.state ≠ .closed)
    (hun : s.life.conn.sndUnacked = s.life.conn.sndNext) (hsmall : data.length + Conn.control flags ≤ TCP_MSS)
    (hplain : (syn flags && Tcp.fin flags) = false)
    (hs : Sends s.life.conn flags data s'.life.conn) (hiss : s'.life.iss = s.life.iss)
    (hnum : s'.numbered = s.numbered ++ symbols flags data) (honce : s'.given = s'.taken)
    (hunf : s'.life.conn.state.Sending → s'.life.finEnd = none) : s'.Ok := by
  have hnear := (h.carries hlive).near
  obtain ⟨hholds, hnear'⟩ := Conn.Holds.of_sends hs hnear hun hsmall
  refine ⟨honce, ?_, hunf, fun _ => ⟨hnear', hholds, ?_, ?_⟩⟩
  · rw [hs.sndNext, hiss, hnum, List.length_append, symbols_length hplain, h.numbers]
    simp only [wrap32]
    omega
  · rw [hs.pendingFlags]
    exact hplain
  · rw [Conn.carried, hs.pendingFlags, hs.pending, hnum]
    exact List.suffix_append _ _

theorem sends_data (h : s.Ok) (hlive : s.life.conn.state ≠ .closed)
    (hfin : s.life.finEnd = none) (hun : s.life.conn.sndUnacked = s.life.conn.sndNext)
    (hsmall : data.length + Conn.control (TCP_ACK ||| TCP_PSH) ≤ TCP_MSS)
    (hs : Sends s.life.conn (TCP_ACK ||| TCP_PSH) data c') :
    Sender.Ok ⟨⟨c', s.life.iss, s.life.finEnd⟩, s.given ++ data, s.taken ++ data⟩ := by
  have hsym : symbols (TCP_ACK ||| TCP_PSH) data = data.map .byte := by
    have hsyn : syn (TCP_ACK ||| TCP_PSH) = false := by decide
    have hno : Tcp.fin (TCP_ACK ||| TCP_PSH) = false := by decide
    simp [symbols, hsyn, hno]
  refine h.sends hlive hun hsmall (by decide) hs rfl ?_ ?_ (fun _ => hfin)
  · rw [hsym]
    exact numbered_append hfin hfin rfl
  · show s.given ++ _ = s.taken ++ _
    rw [h.once]

theorem send (h : s.Ok) {ok : Bool} (hsure : s.Sure (.send now ok data)) :
    Sender.Ok ⟨{ s.life with conn := (s.life.conn.send now ok data).2 },
      s.given ++ s.life.conn.gives (.send now ok data), s.taken ++ s.life.conn.reports (.send now ok data)⟩ := by
  have hcase := s.life.conn.send_cases now ok data
  have hgives := @gives_send s.life.conn now ok data
  have hreports : s.life.conn.reports (.send now ok data) =
    data.take (s.life.conn.send now ok data).1.toNat := rfl
  have hsame : (s.life.conn.send now ok data).2 = s.life.conn → s.life.conn.gives (.send now ok data) = [] := by
    intro hs
    show (if (s.life.conn.send now ok data).2.sndNext = s.life.conn.sndNext then [] else _) = _
    rw [hs, if_pos rfl]
  rw [hreports]
  generalize s.life.conn.gives (.send now ok data) = given at hgives hsame
  generalize s.life.conn.send now ok data = r at hcase hgives hsame
  cases hcase with
  | refused n _ hn =>
    rw [hsame rfl, Int.toNat_of_nonpos hn, List.take_zero, List.append_nil, List.append_nil]
    exact h
  | sent hst hp hf =>
    have hlive : s.life.conn.state ≠ .closed := by rw [hst]; decide
    have hun := (h.carries hlive).holds.settled (h.carries hlive).near hp hf
    have hfin := h.unfinished (Or.inr (Or.inr (Or.inl hst)))
    have htaken : data.take (if ok then ((data.take TCP_MSS).length : Int) else 0).toNat = data.take TCP_MSS := by
      by_cases hdata : data = []
      · rw [hdata, List.take_nil, List.take_nil]
      · rw [hsure hst hp hf hdata, if_pos rfl, Int.toNat_natCast, List.length_take, ← List.take_take,
          List.take_length]
    have hsmall : (data.take TCP_MSS).length + Conn.control (TCP_ACK ||| TCP_PSH) ≤ TCP_MSS := by
      have hctl : Conn.control (TCP_ACK ||| TCP_PSH) = 0 := by decide
      rw [hctl, List.length_take]
      omega
    rw [hgives rfl, htaken]
    exact h.sends_data hlive hfin hun hsmall (s.life.conn.sendTracked_sends now _ _)

theorem numbered_fin {q : Nat} (hfin : s.life.finEnd = none)
    (hfin' : s'.life.finEnd = some q) (hgiven : s'.given = s.given) :
    s'.numbered = s.numbered ++ [.fin] := by
  simp [Sender.numbered, hfin, hfin', hgiven]

theorem sends_fin (h : s.Ok) (hlive : s.life.conn.state ≠ .closed) (hfin : s.life.finEnd = none)
    (hun : s.life.conn.sndUnacked = s.life.conn.sndNext) (hs : Sends s.life.conn (TCP_ACK ||| TCP_FIN) [] c')
    (hst : ¬ c'.state.Sending) : Sender.Ok ⟨⟨c', s.life.iss, some c'.sndNext⟩, s.given, s.taken⟩ := by
  have hsym : symbols (TCP_ACK ||| TCP_FIN) [] = [.fin] := by decide
  refine h.sends hlive hun (by decide) (by decide) hs rfl ?_ h.once (fun hs => absurd hs hst)
  rw [hsym]
  exact numbered_fin hfin rfl rfl

theorem gives_close (c : Conn) (now : Nat) : c.gives (.close now) = [] := by
  have hcase := c.close_cases now
  show (if (c.close now).sndNext = c.sndNext then [] else (c.close now).pending) = _
  generalize c.close now = c' at hcase
  cases hcase with
  | fin st _ =>
    obtain ⟨window, hw⟩ := c.sendTracked_eq now (TCP_ACK ||| TCP_FIN) []
    rw [hw, ite_self]
  | dropped _ _ => exact if_pos rfl

theorem close (h : s.Ok) (hsure : s.Sure (.close now)) :
    Sender.Ok ⟨{ s.life with
        conn := s.life.conn.close now
        finEnd := if s.life.conn.sendsFin (.close now) then some (s.life.conn.close now).sndNext else s.life.finEnd },
      s.given ++ s.life.conn.gives (.close now), s.taken ++ s.life.conn.reports (.close now)⟩ := by
  have hcase := s.life.conn.close_cases now
  have hreports : s.life.conn.reports (.close now) = [] := rfl
  rw [gives_close, hreports, List.append_nil, List.append_nil]
  generalize s.life.conn.close now = c' at hcase
  cases hcase with
  | fin st hst =>
    have hst₁ : s.life.conn.state = .established ∨ s.life.conn.state = .closeWait := by
      rcases hst with ⟨hst, -⟩ | ⟨hst, -⟩
      · exact Or.inl hst
      · exact Or.inr hst
    have hsends : s.life.conn.sendsFin (.close now) = true := by
      rcases hst₁ with hst | hst <;> simp [hst, Conn.sendsFin]
    have hlive : s.life.conn.state ≠ .closed := by rcases hst₁ with hst | hst <;> rw [hst] <;> decide
    have hnot : ¬ st.Sending := by
      rcases hst with ⟨-, hst⟩ | ⟨-, hst⟩ <;> simp [hst, State.Sending]
    have hfin := h.unfinished (Or.inr (Or.inr hst₁))
    rw [if_pos hsends]
    exact h.sends_fin hlive hfin (hsure hst₁) ((s.life.conn.sendTracked_sends now _ _).setState st) hnot
  | dropped hest hwait =>
    have hsends : s.life.conn.sendsFin (.close now) = false := by simp [Conn.sendsFin, hest, hwait]
    rw [hsends]
    refine h.quiet rfl ?_ (fun hst => absurd rfl hst)
    rintro (hs | hs | hs | hs) <;> cases hs

theorem tick_next (c : Conn) (now : Nat) (ok : Bool) : (c.tick now ok).sndNext = c.sndNext := by
  have hcase := c.tick_cases now ok
  generalize c.tick now ok = c' at hcase
  cases hcase with
  | released _ => rfl
  | gaveUp _ _ _ hk => exact hk.sndNext
  | kept _ hk => exact hk.sndNext

theorem append_nil {given taken : List UInt8} (h : Sender.Ok ⟨l, given, taken⟩) :
    Sender.Ok ⟨l, given ++ [], taken ++ []⟩ := by
  rw [List.append_nil, List.append_nil]
  exact h

theorem step (h : s.Ok) {e : Event} (hsure : s.Sure e) : (senders.step s e).1.Ok := by
  show (s.step e).1.Ok
  unfold Sender.step
  split
  · rename_i hin
    have hlife : (lives.step s.life e).1 = { s.life with
        conn := s.life.conn.after e
        finEnd := if s.life.conn.sendsFin e then some (s.life.conn.after e).sndNext else s.life.finEnd } := by
      show (s.life.step e).1 = _
      rw [Life.step, if_pos hin]
    rw [hlife]
    have hquiet : (s.life.conn.after e).sndNext = s.life.conn.sndNext → s.life.conn.gives e = [] :=
      fun hs => if_pos hs
    cases e with
    | segment now g =>
      rw [hquiet (Conn.receive_next _ now g)]
      exact append_nil (h.segment hsure)
    | send now ok data => exact h.send hsure
    | recv max =>
      rw [hquiet (s.life.conn.recvInto_kept max).sndNext]
      exact append_nil (h.recv max)
    | close now => exact h.close hsure
    | tick now ok =>
      rw [hquiet (tick_next _ now ok)]
      exact append_nil (h.tick now ok)
  · exact h

theorem of_syn (hl : l.Sane) (hst : l.conn.state = .synSent ∨ l.conn.state = .synReceived)
    (hp : l.conn.pending = []) (hf : l.conn.pendingFlags = TCP_SYN ∨ l.conn.pendingFlags = TCP_SYN ||| TCP_ACK)
    (hfin : l.finEnd = none) : Sender.Ok ⟨l, [], []⟩ := by
  have hsending : l.conn.state.Sending := by
    rcases hst with hst | hst
    · exact Or.inl hst
    · exact Or.inr (Or.inl hst)
  have hnum : Sender.numbered ⟨l, [], []⟩ = [.syn] := by simp [Sender.numbered, hfin]
  refine ⟨rfl, ?_, fun _ => hfin, fun _ => ⟨hl.flight.near, hl.flight.sending hsending, ?_, ?_⟩⟩
  · rw [hnum]
    exact hl.handshake hst
  · show (syn l.conn.pendingFlags && Tcp.fin l.conn.pendingFlags) = false
    rcases hf with hf | hf <;> rw [hf] <;> decide
  · rw [hnum]
    show symbols l.conn.pendingFlags l.conn.pending <:+ _
    rcases hf with hf | hf <;> rw [hp, hf] <;> decide

theorem begins (h : l.Begins) : Sender.Ok ⟨l, [], []⟩ := by
  have hsane := Life.Sane.begins h
  cases h with
  | active now destIp destPort localPort =>
    exact of_syn hsane (Or.inl rfl) rfl (Or.inl rfl) rfl
  | passive now srcIp srcPort destPort theirSeq =>
    exact of_syn hsane (Or.inr rfl) rfl (Or.inr rfl) rfl

theorem exact (h : s.Ok) : s.Exact := ⟨h.once, h.numbers, fun hst => (h.carries hst).retransmits⟩

end Sender.Ok

/-! ## Every run -/

/-- **What is taken is sent, once, and kept until it is acknowledged.** -/
theorem sender_exact {l : Life} (hl : l.Begins) (events : List Event)
    (hg : senders.Guarded Sender.Sure ⟨l, [], []⟩ events) : (senders.run ⟨l, [], []⟩ events).Exact :=
  (senders.invariant_of_step (fun (s : Sender) _ (h : s.Ok) hsure => h.step hsure) events _
    (Sender.Ok.begins hl) hg).exact

theorem sender_exact_hello :
    let events := [fromClient TCP_ACK 0x4E560001 (by decide), .send 1 true [104, 105], .tick 200 false]
    (senders.run ⟨answeredClient, [], []⟩ events).Exact ∧
      (senders.run ⟨answeredClient, [], []⟩ events).given = [104, 105] :=
  ⟨sender_exact (.passive 0 0x0A000202 1234 80 100) _
    ⟨fun _ _ _ => ⟨by unfold Conn.Opposite; decide, fun _ => by decide⟩,
      fun _ _ _ _ => rfl, trivial, trivial⟩, by decide⟩

theorem acknowledged_lt : 0x4E560001 < 0x100000000 := by decide

/-- A byte whose first transmission fails, and that is tried again. -/
def retried : List Event :=
  [fromClient TCP_ACK 0x4E560001 acknowledged_lt, .send 1 false [65],
    fromClient TCP_ACK 0x4E560002 (by decide), .send 2 true [65]]

/-- A close before the byte is acknowledged. -/
def closedEarly : List Event :=
  [fromClient TCP_ACK 0x4E560001 acknowledged_lt, .send 1 true [65], .close 2]

/-- The first sends the byte twice; in the second the FIN takes the place of
the byte. -/
theorem sender_inexact :
    (senders.run ⟨answeredClient, [], []⟩ retried).given = [65, 65] ∧
    (senders.run ⟨answeredClient, [], []⟩ retried).taken = [65] ∧
    (senders.run ⟨answeredClient, [], []⟩ closedEarly).life.conn.state ≠ .closed ∧
    ¬ (senders.run ⟨answeredClient, [], []⟩ closedEarly).Retransmits := by
  refine ⟨by decide, by decide, by decide, ?_⟩
  rintro ⟨acked, before, rest, -, hcarried, hlen, -⟩
  have hcount := congrArg List.length hcarried
  have hone : (senders.run ⟨answeredClient, [], []⟩ closedEarly).life.conn.carried.length = 1 := by decide
  have htwo : seqSub (senders.run ⟨answeredClient, [], []⟩ closedEarly).life.conn.sndNext
      (senders.run ⟨answeredClient, [], []⟩ closedEarly).life.conn.sndUnacked = 2 := by decide
  rw [List.length_append, hlen, hone, htwo] at hcount
  omega

end NovarisOS.Tcp
