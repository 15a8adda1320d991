/-
NovarisOS.Socket.Ports — who holds which port.

`Inet.Owned` says that no two datagram sockets have the same port and no two
listening sockets, and that what a socket holds is held in the network layer.
-/
import NovarisOS.Socket.Inet
import NovarisOS.Lib.Owners

namespace NovarisOS.Socket

open Function (update update_eq_self update_of_ne update_self)

namespace Sock

/-- The port it has in `kernel/net.c`. -/
def udpPort (s : Sock) : Option Nat :=
  if s.state ≠ .free ∧ s.dgram = true ∧ s.boundPort ≠ 0 then some s.boundPort else none

/-- The port it has in `kernel/tcp.c`. -/
def tcpPort (s : Sock) : Option Nat := if s.state = .listening then some s.boundPort else none

/-- A datagram socket does not listen, and a stream has a port only while it
listens. -/
structure Sane (s : Sock) : Prop where
  dgram : s.dgram = true → s.state ≠ .listening
  stream : s.dgram = false → s.state ≠ .free → s.state ≠ .listening → s.boundPort = 0
  listening : s.state = .listening → s.boundPort ≠ 0

end Sock

namespace Inet

def udpOf (t : Inet) (i : Nat) : Option Nat := (t.socks i).udpPort

def tcpOf (t : Inet) (i : Nat) : Option Nat := (t.socks i).tcpPort

/-- Every port has one socket, and every socket's port is held below. -/
structure Owned (t : Inet) : Prop where
  sane : ∀ i, (t.socks i).Sane
  udpApart : Exclusive t.udpOf
  udpBound : ∀ i p, t.udpOf i = some p → p ∈ t.udp
  tcpApart : Exclusive t.tcpOf
  tcpListened : ∀ i p, t.tcpOf i = some p → t.tcp.isListening p = true
  udpNodup : t.udp.Nodup

/-- A port that is released by closing the socket was its own. -/
def Releases (t : Inet) (i now : Nat) : Prop :=
  (∀ p ∈ t.udp, p ∉ (t.socketClose i now).udp → t.udpOf i = some p) ∧
  ∀ p ≠ 0, t.tcp.isListening p = true → (t.socketClose i now).tcp.isListening p = false → t.tcpOf i = some p

/-- The port `k` places on from the counter. -/
def portAt (t : Inet) (k : Nat) : Nat := (fun n => if n + 1 > 49000 then 40000 else n + 1)^[k] t.nextDgramPort

/-- The table has the port, or room for it. -/
def Takes (t : Inet) (port : Nat) : Prop := port ∈ t.udp ∨ t.udp.length < UDP_PORTS

/-- The first of the 64 ports from the counter on that the table takes is
nobody's. -/
def Fresh (t : Inet) : Prop :=
  ∀ k < 64, t.Takes (t.portAt k) → (∀ l < k, ¬ t.Takes (t.portAt l)) → ∀ j, t.udpOf j ≠ some (t.portAt k)

/-- A datagram of that length has an address to go to. -/
def Addressed (s : Sock) (len : Nat) (dest : Option Addr) : Prop :=
  len ≤ NET_UDP_MAX_PAYLOAD ∧
    (dest.elim (s.peerIp ≠ 0 ∧ s.peerPort ≠ 0) fun a => a.family = AF_INET ∧ a.ip ≠ 0 ∧ a.port ≠ 0)

/-- A port is taken that no socket has; a listening socket is not bound
again and not connected; and the kernel's clients use a port that no socket
has. -/
def Proper (t : Inet) : Call → Prop
  | .bind i addr => ∀ a ∈ addr, a.family = AF_INET →
      if (t.socks i).dgram then
        (t.socks i).boundPort = 0 → if a.port = 0 then t.Fresh else ∀ j, t.udpOf j ≠ some a.port
      else (t.socks i).state ≠ .listening
  | .listen i => (t.socks i).dgram = false → (t.socks i).state = .bound →
      ∀ j, t.tcpOf j ≠ some (t.socks i).localPort
  | .connect i addr _ _ _ => ∀ a ∈ addr, a.family = AF_INET → a.ip ≠ 0 → a.port ≠ 0 →
      (t.socks i).dgram = false → (t.socks i).state ≠ .listening
  | .sendto i data dest _ _ _ _ => (t.socks i).dgram = true → (t.socks i).boundPort = 0 →
      Addressed (t.socks i) data.length dest → t.Fresh
  | .resolveDns => ∀ j, t.udpOf j ≠ some DNS_CLIENT_PORT
  | .configureDhcp => ∀ j, t.udpOf j ≠ some DHCP_CLIENT_PORT
  | _ => True

end Inet

/-! ## The ports that are listened on -/

section Listening

open Tcp

variable {tcp : Stack}

theorem isListening_of_eq {tcp' : Stack} (h : tcp'.listening = tcp.listening) (port : Nat) :
    tcp'.isListening port = tcp.isListening port := by
  unfold Stack.isListening
  rw [h]

theorem listening_receive (tcp : Stack) (now srcIp : Nat) (s : Segment) :
    (tcp.receive now srcIp s).listening = tcp.listening := by
  unfold Stack.receive
  split
  · rfl
  · split
    · unfold Stack.acceptSyn
      split <;> rfl
    · rfl

theorem listening_connect (tcp : Stack) (configured : Bool) (now destIp destPort : Nat) :
    (tcp.connect configured now destIp destPort).2.listening = tcp.listening := by
  unfold Stack.connect
  split
  · rfl
  · split <;> rfl

theorem listening_through (tcp : Stack) (handle : Nat) (e : Event) :
    (tcp.through handle e).listening = tcp.listening := by
  unfold Stack.through
  split <;> rfl

theorem listening_poll (tcp : Stack) (p : Inet.Poll) : (Inet.poll tcp p).listening = tcp.listening := by
  cases p with
  | segment now srcIp s => exact listening_receive tcp now srcIp s
  | tick now ok => rfl

theorem listening_polls (polls : List Inet.Poll) : ∀ tcp : Stack,
    (polls.foldl Inet.poll tcp).listening = tcp.listening := by
  induction polls with
  | nil => exact fun _ => rfl
  | cons p polls ih => exact fun tcp => (ih _).trans (listening_poll tcp p)

theorem listening_waitConnected (handle : Nat) (polls : List Inet.Poll) : ∀ tcp : Stack,
    (Inet.waitConnected handle tcp polls).2.listening = tcp.listening := by
  induction polls with
  | nil => exact fun _ => rfl
  | cons p polls ih =>
    intro tcp
    rw [Inet.waitConnected]
    split
    · rfl
    · split
      · rfl
      · exact (ih _).trans (listening_poll tcp p)

theorem listening_sendAll (handle : Nat) (rounds : List Inet.Round) : ∀ (tcp : Stack) (sent : Nat)
    (data : List UInt8), (Inet.sendAll handle tcp sent data rounds).2.listening = tcp.listening := by
  induction rounds with
  | nil => exact fun _ _ _ => rfl
  | cons r rounds ih =>
    intro tcp sent data
    rw [Inet.sendAll]
    split
    · rfl
    · simp only
      split
      · rfl
      · exact (ih _ _ _).trans (listening_polls r.polls _)

/-- `tcp_listen` that succeeds: the port is listened on, and the others as
before. -/
theorem isListening_listen {tcp' : Stack} {port : Nat} (h : tcp.listen port = (0, tcp')) :
    tcp'.isListening port = true ∧ ∀ q ≠ 0, tcp.isListening q = true → tcp'.isListening q = true := by
  unfold Stack.listen at h
  split at h
  · cases h
  · split at h
    · rename_i halready
      cases h
      exact ⟨halready, fun q _ hq => hq⟩
    · split at h
      · rename_i i hi
        obtain ⟨hzero, hmem, -⟩ := List.find?_range_eq_some.mp hi
        have hzero : tcp.listening i = 0 := by simpa using hzero
        cases h
        unfold Stack.isListening
        constructor
        · rw [List.any_eq_true]
          exact ⟨i, hmem, by simp⟩
        · intro q hq hany
          rw [List.any_eq_true] at hany ⊢
          obtain ⟨j, hj, hjq⟩ := hany
          have hjq : tcp.listening j = q := by simpa using hjq
          have hji : j ≠ i := by
            intro heq
            rw [heq, hzero] at hjq
            exact hq hjq.symm
          refine ⟨j, hj, ?_⟩
          show decide (update tcp.listening i port j = q) = true
          rw [update_of_ne hji]
          exact decide_eq_true hjq
      · cases h

theorem isListening_unlisten {port q : Nat} (hq : q ≠ port)
    (h : tcp.isListening q = true) : (tcp.unlisten port).isListening q = true := by
  unfold Stack.isListening at h ⊢
  rw [List.any_eq_true] at h ⊢
  obtain ⟨j, hj, hjq⟩ := h
  have hjq : tcp.listening j = q := by simpa using hjq
  refine ⟨j, hj, ?_⟩
  show decide ((if tcp.listening j = port then 0 else tcp.listening j) = q) = true
  rw [if_neg (by rw [hjq]; exact hq)]
  exact decide_eq_true hjq

end Listening

/-! ## Ports of `kernel/net.c` -/

namespace Inet

variable {udp : List Nat}

theorem netUdpBind_spec {udp' : List Nat} {port : Nat} (h : netUdpBind udp port = (true, udp')) :
    port ∈ udp' ∧ (∀ q ∈ udp, q ∈ udp') ∧ (udp.Nodup → udp'.Nodup) ∧ ∀ q ∈ udp', q ∈ udp ∨ q = port := by
  unfold netUdpBind at h
  split at h
  · rename_i hmem
    cases h
    exact ⟨hmem, fun q hq => hq, id, fun q hq => Or.inl hq⟩
  · rename_i hnew
    split at h
    · cases h
      refine ⟨by simp, fun q hq => List.mem_append_left _ hq, fun hnd => ?_, fun q hq => by simpa using hq⟩
      rw [List.nodup_append]
      exact ⟨hnd, List.nodup_singleton port, fun a ha b hb => by
        rw [List.mem_singleton] at hb
        intro heq
        rw [hb] at heq
        rw [heq] at ha
        exact hnew ha⟩
    · cases h

variable {t : Inet}

theorem takes_iff {p : Nat} : t.Takes p ↔ (netUdpBind t.udp p).1 = true := by
  unfold Takes netUdpBind
  split_ifs <;> simp [*]

theorem pickPort_some (tries : Nat) : ∀ {k p : Nat}, (∀ l < k, ¬ t.Takes (t.portAt l)) →
    (pickPort t.udp tries (t.portAt k)).1 = some p →
    ∃ k' < k + tries, p = t.portAt k' ∧ t.Takes p ∧ ∀ l < k', ¬ t.Takes (t.portAt l) := by
  induction tries with
  | zero => exact fun _ h => nomatch h
  | succ tries ih =>
    intro k p hbefore h
    rw [pickPort] at h
    split at h
    · rename_i hok
      cases h
      exact ⟨k, by omega, rfl, takes_iff.mpr hok, hbefore⟩
    · rename_i hnot
      rw [← takes_iff] at hnot
      obtain ⟨k', hlt, hk'⟩ := @ih (k + 1) p
        (fun l hl => (Nat.lt_succ_iff_lt_or_eq.mp hl).elim (hbefore l) fun he => he ▸ hnot)
        (by rwa [portAt, Function.iterate_succ_apply'])
      exact ⟨k', by omega, hk'⟩

/-- A port that is picked is bound in the table, and nobody's. -/
theorem Fresh.picked (h : t.Fresh) {p : Nat} (hp : (pickPort t.udp 64 t.nextDgramPort).1 = some p) :
    (netUdpBind t.udp p).1 = true ∧ ∀ j, t.udpOf j ≠ some p := by
  obtain ⟨k, hlt, rfl, htakes, hbefore⟩ := @pickPort_some t 64 0 p (fun l hl => absurd hl (Nat.not_lt_zero l)) hp
  exact ⟨takes_iff.mp htakes, h k (by omega) htakes hbefore⟩

/-! ## What each call keeps -/

theorem udpOf_setSock (t : Inet) (i : Nat) (s : Sock) :
    (t.setSock i s).udpOf = update t.udpOf i s.udpPort := by
  funext j
  show (update t.socks i s j).udpPort = _
  by_cases hj : j = i
  · rw [hj, update_self, update_self]
  · rw [update_of_ne hj, update_of_ne hj]
    rfl

theorem tcpOf_setSock (t : Inet) (i : Nat) (s : Sock) :
    (t.setSock i s).tcpOf = update t.tcpOf i s.tcpPort := by
  funext j
  show (update t.socks i s j).tcpPort = _
  by_cases hj : j = i
  · rw [hj, update_self, update_self]
  · rw [update_of_ne hj, update_of_ne hj]
    rfl

variable {i : Nat} {s : Sock}

theorem sane_setSock (h : ∀ i, (t.socks i).Sane) (hs : s.Sane) (j : Nat) :
    ((t.setSock i s).socks j).Sane := by
  show (update t.socks i s j).Sane
  by_cases hj : j = i
  · rw [hj, update_self]
    exact hs
  · rw [update_of_ne hj]
    exact h j

theorem Owned.work (h : t.Owned) {tcp : Tcp.Stack} (hl : tcp.listening = t.tcp.listening) :
    Owned { t with tcp := tcp } :=
  ⟨h.sane, h.udpApart, h.udpBound, h.tcpApart,
    fun i p hp => (isListening_of_eq hl p).trans (h.tcpListened i p hp), h.udpNodup⟩

theorem Owned.keep (h : t.Owned) (hs : s.Sane) (hu : s.udpPort = t.udpOf i)
    (ht : s.tcpPort = t.tcpOf i) : (t.setSock i s).Owned := by
  have hudp : (t.setSock i s).udpOf = t.udpOf := by rw [udpOf_setSock, hu, update_eq_self]
  have htcp : (t.setSock i s).tcpOf = t.tcpOf := by rw [tcpOf_setSock, ht, update_eq_self]
  refine ⟨sane_setSock h.sane hs, by rw [hudp]; exact h.udpApart, ?_, by rw [htcp]; exact h.tcpApart, ?_,
    h.udpNodup⟩
  · rw [hudp]
    exact h.udpBound
  · rw [htcp]
    exact h.tcpListened

theorem Owned.bindUdp (h : t.Owned) {p : Nat} (hbind : netUdpBind t.udp p = (true, udp))
    (hp : ∀ j, t.udpOf j ≠ some p) (next : Nat) (hs : s.Sane)
    (hu : s.udpPort = some p ∨ s.udpPort = none) (ht : s.tcpPort = t.tcpOf i) :
    Owned ({ t with udp := udp, nextDgramPort := next }.setSock i s) := by
  obtain ⟨hmem, hsub, hnodup, -⟩ := netUdpBind_spec hbind
  have hudp := udpOf_setSock { t with udp := udp, nextDgramPort := next } i s
  have htcp : ({ t with udp := udp, nextDgramPort := next }.setSock i s).tcpOf = t.tcpOf := by
    rw [tcpOf_setSock, ht]
    exact update_eq_self i t.tcpOf
  refine ⟨sane_setSock h.sane hs, ?_, fun j q hq => ?_, by rw [htcp]; exact h.tcpApart, ?_,
    hnodup h.udpNodup⟩
  · rw [hudp]
    rcases hu with hsome | hnone
    · rw [hsome]
      exact h.udpApart.put hp
    · rw [hnone]
      exact h.udpApart.drop i
  · show q ∈ udp
    rw [hudp] at hq
    by_cases hj : j = i
    · rw [hj, update_self] at hq
      rcases hu with hsome | hnone
      · rw [hsome] at hq
        cases hq
        exact hmem
      · rw [hnone] at hq
        cases hq
    · rw [update_of_ne hj] at hq
      exact hsub q (h.udpBound j q hq)
  · rw [htcp]
    exact h.tcpListened

theorem Owned.ensurePort (h : t.Owned) (hdgram : (t.socks i).dgram = true)
    (hfresh : (t.socks i).boundPort = 0 → t.Fresh) : (t.dgramEnsurePort i).2.Owned := by
  unfold dgramEnsurePort
  simp only
  split
  · exact h
  · rename_i hzero
    have hzero : (t.socks i).boundPort = 0 := by simpa using hzero
    have hfresh := fun p => @Fresh.picked t (hfresh hzero) p
    generalize pickPort t.udp 64 t.nextDgramPort = r at hfresh ⊢
    obtain ⟨picked, next⟩ := r
    cases picked with
    | none => exact ⟨h.sane, h.udpApart, h.udpBound, h.tcpApart, h.tcpListened, h.udpNodup⟩
    | some p =>
      have hbind : netUdpBind t.udp p = (true, (netUdpBind t.udp p).2) := Prod.ext (hfresh p rfl).1 rfl
      refine h.bindUdp hbind (hfresh p rfl).2 next ⟨(h.sane i).dgram, ?_, ?_⟩ ?_ ?_
      · exact fun hno => absurd (hno.symm.trans hdgram) (by decide)
      · exact fun hlisten => absurd hlisten ((h.sane i).dgram hdgram)
      · unfold Sock.udpPort
        split
        · exact Or.inl rfl
        · exact Or.inr rfl
      · have hnot := (h.sane i).dgram hdgram
        unfold tcpOf Sock.tcpPort
        rw [if_neg hnot]
        exact (if_neg hnot).symm

variable {addr : Option Addr}

theorem Owned.dgramBind (h : t.Owned) (hdgram : (t.socks i).dgram = true)
    (hp : t.Proper (.bind i addr)) : (t.dgramBind i addr).2.Owned := by
  unfold Inet.dgramBind
  cases addr with
  | none => exact h
  | some a =>
    simp only
    split
    · exact h
    · rename_i hfamily
      have hp := hp a rfl (by simpa using hfamily)
      rw [if_pos hdgram] at hp
      split
      · exact h
      · rename_i hzero
        have hp := hp (by simpa using hzero)
        split
        · rename_i hport
          rw [if_pos hport] at hp
          exact h.ensurePort hdgram fun _ => hp
        · rename_i hport
          rw [if_neg hport] at hp
          rcases hb : netUdpBind t.udp a.port with ⟨ok, udp⟩
          cases ok with
          | false => exact h
          | true =>
            have hnot := (h.sane i).dgram hdgram
            refine h.bindUdp hb hp t.nextDgramPort ⟨(h.sane i).dgram, ?_, ?_⟩ ?_ ?_
            · exact fun hno => absurd (hno.symm.trans hdgram) (by decide)
            · exact fun hlisten => absurd hlisten hnot
            · unfold Sock.udpPort
              split
              · exact Or.inl rfl
              · exact Or.inr rfl
            · unfold tcpOf Sock.tcpPort
              rw [if_neg hnot]
              exact (if_neg hnot).symm

theorem Owned.stream (h : t.Owned) (hstream : (t.socks i).dgram = false)
    (hopen : (t.socks i).state ≠ .free) (hnot : (t.socks i).state ≠ .listening)
    (hs : s.dgram = false) (hstate : s.state ≠ .listening) (hbound : s.boundPort = (t.socks i).boundPort) :
    (t.setSock i s).Owned := by
  have hzero := (h.sane i).stream hstream hopen hnot
  refine h.keep ⟨fun hd => absurd (hd.symm.trans hs) (by decide), fun _ _ _ => hbound.trans hzero,
    fun hl => absurd hl hstate⟩ ?_ ?_
  · unfold udpOf Sock.udpPort
    rw [if_neg (by simp [hs]), if_neg (by simp [hstream])]
  · unfold tcpOf Sock.tcpPort
    rw [if_neg hstate, if_neg hnot]

theorem Owned.inetBind (h : t.Owned) (hstream : (t.socks i).dgram = false)
    (hopen : (t.socks i).state ≠ .free) (hp : t.Proper (.bind i addr)) : (t.inetBind i addr).2.Owned := by
  unfold Inet.inetBind
  cases addr with
  | none => exact h
  | some a =>
    simp only
    split
    · exact h
    · rename_i hfamily
      have hp := hp a rfl (by simpa using hfamily)
      rw [if_neg (by simp [hstream])] at hp
      split
      · exact h
      · exact h.stream hstream hopen hp hstream nofun rfl

theorem Owned.inetListen (h : t.Owned) (hstream : (t.socks i).dgram = false)
    (hp : t.Proper (.listen i)) : (t.inetListen i).2.Owned := by
  unfold Inet.inetListen
  simp only
  split
  · exact h
  · rename_i hcond
    simp only [not_or, ne_eq, not_not] at hcond
    obtain ⟨hstate, hport⟩ := hcond
    have hp := hp hstream hstate
    rcases hl : t.tcp.listen (t.socks i).localPort with ⟨r, tcp⟩
    split
    · exact h
    · rename_i hr
      have hr : r = 0 := by simpa using hr
      subst hr
      obtain ⟨hlistens, hothers⟩ := isListening_listen hl
      have hzero : t.udpOf i = none := by
        unfold udpOf Sock.udpPort
        rw [if_neg (by simp [hstream])]
      have hudp : ({ t with tcp := tcp }.setSock i
          { t.socks i with boundPort := (t.socks i).localPort, state := .listening }).udpOf = t.udpOf := by
        rw [udpOf_setSock]
        refine (congrArg (update t.udpOf i) ?_).trans (update_eq_self i t.udpOf)
        rw [hzero]
        unfold Sock.udpPort
        rw [if_neg (by simp [hstream])]
      have htcp := tcpOf_setSock { t with tcp := tcp } i
        { t.socks i with boundPort := (t.socks i).localPort, state := .listening }
      refine ⟨sane_setSock h.sane ⟨fun hd => absurd (hd.symm.trans hstream) (by decide),
        fun _ _ hno => absurd rfl hno, fun _ => hport⟩, ?_, ?_, ?_, fun j q hq => ?_, h.udpNodup⟩
      · rw [hudp]
        exact h.udpApart
      · rw [hudp]
        exact h.udpBound
      · rw [htcp]
        exact h.tcpApart.put hp
      · show tcp.isListening q = true
        rw [htcp] at hq
        by_cases hj : j = i
        · rw [hj, update_self] at hq
          cases hq
          exact hlistens
        · rw [update_of_ne hj] at hq
          have hq' : t.tcpOf j = some q := hq
          have hne : q ≠ 0 := by
            unfold tcpOf Sock.tcpPort at hq'
            split at hq'
            · rename_i hlist
              cases hq'
              exact (h.sane j).listening hlist
            · cases hq'
          exact hothers q hne (h.tcpListened j q hq')

theorem Owned.inetConnect (h : t.Owned) {configured : Bool} {now : Nat}
    {polls : List Poll} (hopen : (t.socks i).state ≠ .free) (hp : t.Proper (.connect i addr configured now polls)) :
    (t.inetConnect i addr configured now polls).2.Owned := by
  unfold Inet.inetConnect
  cases addr with
  | none => exact h
  | some a =>
    simp only
    split
    · exact h
    · rename_i hfamily
      split
      · exact h
      · split
        · exact h
        · rename_i hto
          obtain ⟨hip, hport⟩ := not_or.mp hto
          split
          · -- a datagram socket keeps its port
            rename_i hdgram
            have hnot := (h.sane i).dgram hdgram
            refine h.keep ⟨fun _ => nofun, fun hno => absurd (hno.symm.trans hdgram) (by decide), nofun⟩ ?_ ?_
            · unfold udpOf Sock.udpPort
              simp [hopen]
            · unfold tcpOf Sock.tcpPort
              rw [if_neg hnot]
              rfl
          · rename_i hdgram
            have hstream : (t.socks i).dgram = false := by simpa using hdgram
            have hnot := hp a rfl (not_not.mp hfamily) hip hport hstream
            have hlconn := listening_connect t.tcp configured now a.ip a.port
            rcases hconn : t.tcp.connect configured now a.ip a.port with ⟨handle, tcp⟩
            rw [hconn] at hlconn
            split
            · exact h.work hlconn
            · split
              · exact (h.work hlconn).stream hstream hopen hnot hstream nofun rfl
              · have hlwait := listening_waitConnected handle.toNat polls tcp
                rcases hwait : waitConnected handle.toNat tcp polls with ⟨r, tcp'⟩
                rw [hwait] at hlwait
                split
                · exact (h.work (hlwait.trans hlconn)).stream hstream hopen hnot hstream nofun rfl
                · have hlclose := listening_through tcp' handle.toNat (.close now)
                  exact (h.work (hlclose.trans (hlwait.trans hlconn))).stream hstream hopen hnot hstream hnot rfl

theorem Owned.inetSettle (h : t.Owned) (hstream : (t.socks i).dgram = false) (now : Nat)
    (polls : List Poll) : (t.inetSettle i now polls).Owned := by
  unfold Inet.inetSettle
  simp only
  split
  · exact h
  · rename_i handle _
    split
    · exact h
    · rename_i hconnecting
      have hconnecting : (t.socks i).state = .connecting := by simpa using hconnecting
      have hopen : (t.socks i).state ≠ .free := by rw [hconnecting]; nofun
      have hnot : (t.socks i).state ≠ .listening := by rw [hconnecting]; nofun
      have hlpolls := listening_polls polls t.tcp
      split
      · exact (h.work hlpolls).stream hstream hopen hnot hstream nofun rfl
      · split
        · have hlclose := listening_through (polls.foldl poll t.tcp) handle (.close now)
          exact (h.work (hlclose.trans hlpolls)).stream hstream hopen hnot hstream nofun rfl
        · exact h.work hlpolls

theorem Owned.inetWrite (h : t.Owned) (hstream : (t.socks i).dgram = false) (now : Nat)
    (polls : List Poll) (data : List UInt8) (rounds : List Round) :
    (t.inetWrite i now polls data rounds).2.Owned := by
  have hsettled := h.inetSettle hstream now polls
  unfold Inet.inetWrite
  generalize t.inetSettle i now polls = t' at hsettled
  simp only
  split
  · exact hsettled
  · split
    · exact hsettled
    · rename_i handle _
      split
      · exact hsettled
      · exact hsettled.work (listening_sendAll handle rounds t'.tcp 0 data)

theorem Owned.dgramSendto (h : t.Owned) (hdgram : (t.socks i).dgram = true) (len : Nat) (dest : Option Addr)
    (hfresh : (t.socks i).boundPort = 0 → Addressed (t.socks i) len dest → t.Fresh) (sent : Bool) :
    (t.dgramSendto i len dest sent).2.Owned := by
  unfold Inet.dgramSendto
  simp only
  split
  · exact h
  · rename_i hlen
    split
    · exact h
    · rename_i ip port hpeer
      split
      · exact h
      · rename_i hto
        have haddressed : Addressed (t.socks i) len dest := by
          refine ⟨Nat.not_lt.mp hlen, ?_⟩
          cases dest with
          | none =>
            cases hpeer
            exact not_or.mp hto
          | some a =>
            simp only at hpeer
            split at hpeer
            · cases hpeer
            · rename_i hfamily
              cases hpeer
              exact ⟨not_not.mp hfamily, not_or.mp hto⟩
        have hensure := h.ensurePort hdgram fun hzero => hfresh hzero haddressed
        generalize t.dgramEnsurePort i = r at hensure ⊢
        obtain ⟨r, t'⟩ := r
        simp only
        split
        · exact hensure
        · exact hensure

/-! ## Closing -/

/-- What `socket_close` can do to the ports. -/
inductive ClosePorts (t : Inet) (i : Nat) : Inet → Prop where
  | counted (refs : Nat) : ClosePorts t i (t.setSock i { t.socks i with refs := refs })
  | nothing {tcp : Tcp.Stack} : t.udpOf i = none → t.tcpOf i = none → tcp.listening = t.tcp.listening →
      ClosePorts t i ({ t with tcp := tcp }.setSock i Sock.free)
  | udp {tcp : Tcp.Stack} (p : Nat) : t.udpOf i = some p → t.tcpOf i = none → tcp.listening = t.tcp.listening →
      ClosePorts t i ({ t with udp := t.udp.erase p, tcp := tcp }.setSock i Sock.free)
  | tcp {tcp : Tcp.Stack} (p : Nat) : t.udpOf i = none → t.tcpOf i = some p →
      tcp.listening = (t.tcp.unlisten p).listening → ClosePorts t i ({ t with tcp := tcp }.setSock i Sock.free)

theorem socketClose_ports (h : t.Owned) (hopen : (t.socks i).state ≠ .free) (now : Nat) :
    ClosePorts t i (t.socketClose i now) := by
  have hsane := h.sane i
  unfold socketClose
  generalize hs : t.socks i = s at hopen hsane ⊢
  simp only
  split
  · rw [← hs]
    exact .counted _
  · by_cases hzero : s.boundPort = 0
    · -- no port
      have hnot : s.state ≠ .listening := fun hl => hsane.listening hl hzero
      have hudp : t.udpOf i = none := by
        unfold udpOf Sock.udpPort
        rw [hs, if_neg (by simp [hzero])]
      have htcp : t.tcpOf i = none := by
        unfold tcpOf Sock.tcpPort
        rw [hs, if_neg hnot]
      simp only [hzero, ne_eq, not_true_eq_false, if_false]
      cases s.tcp with
      | none => exact .nothing hudp htcp rfl
      | some handle => exact .nothing hudp htcp (listening_through t.tcp handle (.close now))
    · rw [if_pos hzero]
      by_cases hl : s.state = .listening
      · -- a listening socket
        have hstream : s.dgram = false := by
          cases hd : s.dgram with
          | false => rfl
          | true => exact absurd hl (hsane.dgram hd)
        have hudp : t.udpOf i = none := by
          unfold udpOf Sock.udpPort
          rw [hs, if_neg (by simp [hstream])]
        have htcp : t.tcpOf i = some s.boundPort := by
          unfold tcpOf Sock.tcpPort
          rw [hs, if_pos hl]
        rw [if_pos hl]
        cases s.tcp with
        | none => exact .tcp s.boundPort hudp htcp rfl
        | some handle => exact .tcp s.boundPort hudp htcp (listening_through _ handle (.close now))
      · -- a datagram socket: a stream that does not listen has no port
        have hdgram : s.dgram = true := by
          cases hd : s.dgram with
          | true => rfl
          | false => exact absurd (hsane.stream hd hopen hl) hzero
        have hudp : t.udpOf i = some s.boundPort := by
          unfold udpOf Sock.udpPort
          rw [hs, if_pos ⟨hopen, hdgram, hzero⟩]
        have htcp : t.tcpOf i = none := by
          unfold tcpOf Sock.tcpPort
          rw [hs, if_neg hl]
        rw [if_neg hl]
        cases s.tcp with
        | none => exact .udp s.boundPort hudp htcp rfl
        | some handle => exact .udp s.boundPort hudp htcp (listening_through t.tcp handle (.close now))

theorem sane_free : Sock.free.Sane := ⟨nofun, fun _ hno => absurd rfl hno, nofun⟩

theorem Owned.free (h : t.Owned) (i : Nat) {tcp : Tcp.Stack}
    (hudp : ∀ j p, j ≠ i → t.udpOf j = some p → p ∈ udp) (hnodup : udp.Nodup)
    (htcp : ∀ j p, j ≠ i → t.tcpOf j = some p → tcp.isListening p = true) :
    Owned ({ t with udp := udp, tcp := tcp }.setSock i Sock.free) := by
  have hu := udpOf_setSock { t with udp := udp, tcp := tcp } i Sock.free
  have ht := tcpOf_setSock { t with udp := udp, tcp := tcp } i Sock.free
  refine ⟨sane_setSock h.sane sane_free, ?_, fun j p hj => ?_, ?_, fun j p hj => ?_, hnodup⟩
  · rw [hu]
    exact h.udpApart.drop i
  · rw [hu] at hj
    by_cases hji : j = i
    · rw [hji, update_self] at hj
      cases hj
    · rw [update_of_ne hji] at hj
      exact hudp j p hji hj
  · rw [ht]
    exact h.tcpApart.drop i
  · rw [ht] at hj
    by_cases hji : j = i
    · rw [hji, update_self] at hj
      cases hj
    · rw [update_of_ne hji] at hj
      exact htcp j p hji hj

theorem Owned.close (h : t.Owned) (hopen : (t.socks i).state ≠ .free) (now : Nat) :
    (t.socketClose i now).Owned := by
  have hports := socketClose_ports h hopen now
  generalize t.socketClose i now = t' at hports
  cases hports with
  | counted refs =>
    exact h.keep ⟨(h.sane i).dgram, (h.sane i).stream, (h.sane i).listening⟩ rfl rfl
  | nothing hu ht hl =>
    exact h.free i (fun j p _ hj => h.udpBound j p hj) h.udpNodup
      (fun j p _ hj => (isListening_of_eq hl p).trans (h.tcpListened j p hj))
  | udp p hu ht hl =>
    refine h.free i (fun j q hji hj => ?_) (h.udpNodup.erase p)
      (fun j q _ hj => (isListening_of_eq hl q).trans (h.tcpListened j q hj))
    have hne : q ≠ p := fun heq => hji (h.udpApart j i p (by rw [← heq]; exact hj) hu)
    exact (List.mem_erase_of_ne hne).mpr (h.udpBound j q hj)
  | tcp p hu ht hl =>
    refine h.free i (fun j q _ hj => h.udpBound j q hj) h.udpNodup (fun j q hji hj => ?_)
    have hne : q ≠ p := fun heq => hji (h.tcpApart j i p (by rw [← heq]; exact hj) ht)
    rw [isListening_of_eq hl]
    exact isListening_unlisten hne (h.tcpListened j q hj)

theorem Owned.releases (h : t.Owned) (hopen : (t.socks i).state ≠ .free) (now : Nat) :
    t.Releases i now := by
  have hports := socketClose_ports h hopen now
  unfold Releases
  generalize t.socketClose i now = t' at hports
  cases hports with
  | counted refs => exact ⟨fun p hp hno => absurd hp hno, fun p _ hp hno => absurd (hp.symm.trans hno) (by decide)⟩
  | nothing hu ht hl =>
    refine ⟨fun p hp hno => absurd hp hno, fun p _ hp hno => ?_⟩
    have hkept : _ = t.tcp.isListening p := isListening_of_eq hl p
    rw [hp] at hkept
    exact absurd (hkept.symm.trans hno) (by decide)
  | udp q hu ht hl =>
    refine ⟨fun p hp hno => ?_, fun p _ hp hno => ?_⟩
    · by_cases hpq : p = q
      · rw [hpq]
        exact hu
      · exact absurd ((List.mem_erase_of_ne hpq).mpr hp) hno
    · have hkept : _ = t.tcp.isListening p := isListening_of_eq hl p
      rw [hp] at hkept
      exact absurd (hkept.symm.trans hno) (by decide)
  | tcp q hu ht hl =>
    refine ⟨fun p hp hno => absurd hp hno, fun p _ hp hno => ?_⟩
    by_cases hpq : p = q
    · rw [hpq]
      exact ht
    · have hkept := isListening_unlisten hpq hp
      rw [← isListening_of_eq hl] at hkept
      exact absurd (hkept.symm.trans hno) (by decide)

theorem Owned.resolve (h : t.Owned) {port : Nat} (hp : ∀ j, t.udpOf j ≠ some port) : (t.resolve port).Owned := by
  unfold Inet.resolve
  rcases hb : netUdpBind t.udp port with ⟨ok, udp⟩
  cases ok with
  | false => exact h
  | true =>
    obtain ⟨-, hsub, hnodup, -⟩ := netUdpBind_spec hb
    refine ⟨h.sane, h.udpApart, fun j q hq => ?_, h.tcpApart, h.tcpListened, (hnodup h.udpNodup).erase port⟩
    have hne : q ≠ port := fun heq => hp j (by rw [← heq]; exact hq)
    exact (List.mem_erase_of_ne hne).mpr (hsub q (h.udpBound j q hq))

/-! ## Every call -/

theorem Owned.handle (h : t.Owned) {c : Call} (hopen : ∀ i ∈ c.target, (t.socks i).state ≠ .free)
    (hp : t.Proper c) : (t.handle c).2.Owned := by
  cases c with
  | socket i dgram nonblock =>
    show Owned (if (t.socks i).state = .free then _ else _ : Int × Inet).2
    split
    · rename_i hfree
      refine h.keep ⟨fun _ => nofun, fun _ _ _ => rfl, nofun⟩ ?_ ?_
      · unfold udpOf Sock.udpPort
        simp [hfree, Sock.free]
      · unfold tcpOf Sock.tcpPort
        simp [hfree]
    · exact h
  | bind i addr =>
    show Owned (if (t.socks i).dgram then _ else _ : Int × Inet).2
    cases hd : (t.socks i).dgram with
    | true => exact h.dgramBind hd hp
    | false => exact h.inetBind hd (hopen i rfl) hp
  | listen i =>
    show Owned (if (t.socks i).dgram then _ else _ : Int × Inet).2
    cases hd : (t.socks i).dgram with
    | true => exact h
    | false => exact h.inetListen hd hp
  | connect i addr configured now polls => exact h.inetConnect (hopen i rfl) hp
  | sendto i data dest sent now polls rounds =>
    show Owned (if (t.socks i).dgram then _ else _ : Int × Inet).2
    cases hd : (t.socks i).dgram with
    | true => exact h.dgramSendto hd data.length dest (hp hd) sent
    | false => exact h.inetWrite hd now polls data rounds
  | dup i => exact h.keep ⟨(h.sane i).dgram, (h.sane i).stream, (h.sane i).listening⟩ rfl rfl
  | close i now => exact h.close (hopen i rfl) now
  | resolveDns => exact h.resolve hp
  | configureDhcp => exact h.resolve hp
  | poll p => exact h.work (listening_poll t.tcp p)

theorem Owned.step (h : t.Owned) {c : Call} (hp : t.Proper c) : (inet.step t c).1.Owned := by
  show (t.step c).1.Owned
  unfold Inet.step
  cases htarget : c.target with
  | none => exact h.handle (fun i hi => by rw [htarget] at hi; cases hi) hp
  | some i =>
    simp only
    split
    · exact h
    · rename_i hopen
      exact h.handle (fun j hj => by rw [htarget] at hj; cases hj; exact hopen) hp

theorem owned_init : init.Owned where
  sane := fun _ => sane_free
  udpApart := nofun
  udpBound := nofun
  tcpApart := nofun
  tcpListened := nofun
  udpNodup := List.nodup_nil

end Inet

/-! ## Every run -/

/-- **A port is one socket's.** -/
theorem ports_owned (calls : List Call) (hg : inet.Guarded Inet.Proper Inet.init calls) :
    let t := inet.run Inet.init calls
    t.Owned ∧ ∀ i now, (t.socks i).state ≠ .free → t.Releases i now := by
  have howned := inet.invariant_of_step (fun (t : Inet) _ (h : t.Owned) hp => h.step hp) calls Inet.init
    Inet.owned_init hg
  exact ⟨howned, fun i now hopen => howned.releases hopen now⟩

/-- A datagram socket with an address of its own. -/
def boundSocket (i port : Nat) : List Call := [.socket i true false, .bind i (some ⟨AF_INET, 0, port⟩)]

/-- A listening socket. -/
def listeningSocket (i port : Nat) : List Call :=
  [.socket i false false, .bind i (some ⟨AF_INET, 0, port⟩), .listen i]

/-- Two datagram sockets with a port each; one is closed, and the other still
has its own. -/
theorem ports_owned_bound :
    let t := inet.run Inet.init (boundSocket 0 53 ++ boundSocket 1 54 ++ [.close 0 0])
    (t.socks 1).boundPort = 54 ∧ 54 ∈ t.udp ∧ 53 ∉ t.udp := by
  intro t
  have hguard : inet.Guarded Inet.Proper Inet.init (boundSocket 0 53 ++ boundSocket 1 54 ++ [.close 0 0]) := by
    refine ⟨trivial, fun a ha _ => ?_, trivial, fun a ha _ => ?_, trivial, trivial⟩
    · cases ha
      rintro _ (_ | j) hport <;> cases hport
    · cases ha
      rintro _ (_ | _ | j) hport
      · exact absurd hport (by decide)
      · cases hport
      · cases hport
  obtain ⟨howned, -⟩ := ports_owned (boundSocket 0 53 ++ boundSocket 1 54 ++ [.close 0 0]) hguard
  exact ⟨by decide, howned.udpBound 1 54 (by decide), by decide⟩

/-- Two datagram sockets have port 53, and when one is closed the other's is
not bound any more; two listening sockets have port 80; and a listening
socket that was bound again releases a datagram socket's port. -/
theorem ports_shared :
    (∃ t, t = inet.run Inet.init (boundSocket 0 53 ++ boundSocket 1 53) ∧
      t.udpOf 0 = some 53 ∧ t.udpOf 1 = some 53) ∧
    (∃ t, t = inet.run Inet.init (boundSocket 0 53 ++ boundSocket 1 53 ++ [.close 0 0]) ∧
      t.udpOf 1 = some 53 ∧ 53 ∉ t.udp) ∧
    (∃ t, t = inet.run Inet.init (listeningSocket 0 80 ++ listeningSocket 1 80) ∧
      t.tcpOf 0 = some 80 ∧ t.tcpOf 1 = some 80) ∧
    ∃ t, t = inet.run Inet.init (boundSocket 0 80 ++ listeningSocket 1 80 ++ [.bind 1 (some ⟨AF_INET, 0, 81⟩)]) ∧
      t.udpOf 0 = some 80 ∧ ¬ t.Releases 1 0 := by
  refine ⟨⟨_, rfl, by decide, by decide⟩, ⟨_, rfl, by decide, by decide⟩,
    ⟨_, rfl, by decide, by decide⟩, ⟨_, rfl, by decide, fun hreleases => ?_⟩⟩
  have hown := hreleases.1 80 (by decide) (by decide)
  exact absurd hown (by decide)

end NovarisOS.Socket
