/-
NovarisOS.Socket.UnixTheorems — the graph of the Unix sockets is consistent.

`Consistent` is what the graph should be at every moment. Three calls break
it: a socketpair for which only one descriptor is left, the connect of a socket
that has a name, and the last close of a listening socket while somebody waits
in its backlog. `Proper` is that a call is none of these.
-/
import NovarisOS.Socket.Unix
import NovarisOS.Lib.Owners

namespace NovarisOS.Socket.Unix

open Function (update update_comm update_eq_self update_idem update_of_ne update_self)

/-- The socket that a descriptor names. -/
def Fd.socket : Fd → Option Nat
  | .sock i => some i
  | _ => none

def Graph.held (g : Graph) (d : Nat × Nat) : Option Nat := (g.fds d).socket

/-- Peers are each other's; what waits is connected, waits once and has no
descriptor; names are those of sockets that have one; and the references are
the descriptors. -/
structure Graph.Consistent (g : Graph) : Prop where
  peers : ∀ a b, (g.tbl.socks a).peer = some b → (g.tbl.socks b).peer = some a ∧ (g.tbl.socks b).state ≠ .free
  backlogs : ∀ s e, e ∈ (g.tbl.socks s).backlog → (g.tbl.socks e).state = .connected ∧
    (g.tbl.socks s).backlog.count e = 1 ∧ (∀ s', e ∈ (g.tbl.socks s').backlog → s' = s) ∧ ∀ d, g.held d ≠ some e
  names : ∀ j path i, g.tbl.bound j = some (path, i) →
    (g.tbl.socks i).state = .bound ∨ (g.tbl.socks i).state = .listening
  descriptors : ∀ d i, g.held d = some i → (g.tbl.socks i).state ≠ .free ∧
    ∃ K : Finset (Nat × Nat), (∀ k, k ∈ K ↔ g.held k = some i) ∧ K.card = (g.tbl.socks i).refs

/-- What a call must not be. -/
def Graph.Proper (g : Graph) : Call → Prop
  | .socketpair p mem mem' => (g.tbl.newPair mem mem').isSome →
      ∀ fa, Graph.fdAlloc g.fds p = some fa → ∃ fb < MAX_FDS, fb ≠ fa ∧ g.fds (p, fb) = .free
  | .connect p fd name mem => ∀ i l, g.fdSocket p fd = some i → g.tbl.findBound name = some l →
      (g.tbl.socks l).state = .listening → (g.tbl.socks l).backlog.length < MAX_BACKLOG →
      (g.tbl.sockAlloc mem).isSome → (g.tbl.socks i).state ≠ .bound ∧ (g.tbl.socks i).state ≠ .listening
  | .close p fd => ∀ i, g.fdSocket p fd = some i → (g.tbl.socks i).refs ≤ 1 →
      ∀ e ∈ (g.tbl.socks i).backlog, (g.tbl.socks e).peer = none
  | _ => True

/-- Neither connected nor named. -/
def UnixSock.Plain (s : UnixSock) : Prop := s.state ≠ .connected ∧ s.state ≠ .bound ∧ s.state ≠ .listening

theorem UnixSock.fresh_plain : UnixSock.fresh.Plain := ⟨nofun, nofun, nofun⟩

namespace Sockets

/-- One while the socket waits in a backlog. -/
noncomputable def waits (t : Sockets) (e : Nat) : Nat :=
  open Classical in if ∃ s, e ∈ (t.socks s).backlog then 1 else 0

/-- The invariant, with the sockets that are in the hands of a function. -/
structure Ok (t : Sockets) (held : Nat × Nat → Option Nat) (hand : List Nat) : Prop where
  blank : ∀ i, (t.socks i).state = .free → t.socks i = UnixSock.zero
  peers : ∀ a b, (t.socks a).peer = some b → (t.socks b).peer = some a
  linked : ∀ a b, (t.socks a).peer = some b → (t.socks a).state = .connected
  names : ∀ j path i, t.bound j = some (path, i) → (t.socks i).state = .bound ∨ (t.socks i).state = .listening
  oneName : Exclusive fun j => (t.bound j).map Prod.snd
  waiting : ∀ s e, e ∈ (t.socks s).backlog →
    (t.socks e).state = .connected ∧ (t.socks e).refs = 1 ∧ (t.socks e).backlog = []
  nodup : ∀ s, (t.socks s).backlog.Nodup
  apart : ∀ s s' e, e ∈ (t.socks s).backlog → e ∈ (t.socks s').backlog → s = s'
  tally : Tallied held t.waits hand fun i => (t.socks i).refs

variable {t t' : Sockets} {held : Nat × Nat → Option Nat} {hand : List Nat} {i : Nat}

/-! ## Updates -/

@[simp] theorem set_self (t : Sockets) (i : Nat) (s : UnixSock) : (t.set i s).socks i = s :=
  update_self _ _ _

variable {x e : Nat}

theorem set_ne (t : Sockets) {i : Nat} (s : UnixSock) (h : x ≠ i) : (t.set i s).socks x = t.socks x :=
  update_of_ne h _ _

variable {s : UnixSock}

theorem set_same {β : Type} (f : UnixSock → β) (h : f s = f (t.socks i)) (x : Nat) :
    f ((t.set i s).socks x) = f (t.socks x) := by
  by_cases hx : x = i
  · rw [hx, set_self, h]
  · rw [set_ne t s hx]

theorem waits_pos (h : ∃ s, e ∈ (t.socks s).backlog) : t.waits e = 1 := if_pos h

theorem waits_zero (h : ¬ ∃ s, e ∈ (t.socks s).backlog) : t.waits e = 0 := if_neg h

theorem waits_eq (h : ∀ x, e ∈ (t'.socks x).backlog ↔ e ∈ (t.socks x).backlog) : t'.waits e = t.waits e := by
  have hiff : (∃ s, e ∈ (t'.socks s).backlog) ↔ ∃ s, e ∈ (t.socks s).backlog := exists_congr h
  by_cases hw : ∃ s, e ∈ (t.socks s).backlog
  · rw [waits_pos hw, waits_pos (hiff.mpr hw)]
  · rw [waits_zero hw, waits_zero (hw ∘ hiff.mp)]

theorem waits_congr (h : ∀ x, (t'.socks x).backlog = (t.socks x).backlog) : t'.waits = t.waits :=
  funext fun _ => waits_eq fun x => by rw [h x]

namespace Ok

theorem not_waiting (h : t.Ok held hand) (hi : (t.socks i).state ≠ .connected) : ¬ ∃ s, i ∈ (t.socks s).backlog :=
  fun ⟨s, hs⟩ => hi (h.waiting s i hs).1

theorem not_held (h : t.Ok held hand) (hi : (t.socks i).state = .free) (d : Nat × Nat) : held d ≠ some i :=
  h.tally.not_held (by rw [h.blank i hi]; rfl) d

theorem not_bound (h : t.Ok held hand) (hb : (t.socks i).state ≠ .bound)
    (hl : (t.socks i).state ≠ .listening) (j : Nat) :
    (t.bound j).map Prod.snd ≠ some i := by
  intro hj
  obtain ⟨⟨path, i'⟩, hslot, hi⟩ := Option.map_eq_some_iff.mp hj
  subst hi
  exact (h.names j path i' hslot).elim hb hl

theorem in_hand (h : t.Ok held (i :: hand)) (hrefs : (t.socks i).refs = 1) :
    (∀ d, held d ≠ some i) ∧ (¬ ∃ s, i ∈ (t.socks s).backlog) ∧ i ∉ hand := by
  obtain ⟨K, hK, hcount⟩ := h.tally i
  simp only [List.count_cons_self, hrefs] at hcount
  have hcard : K = ∅ := Finset.card_eq_zero.mp (by omega)
  refine ⟨fun d hd => ?_, fun hw => ?_, fun hmem => ?_⟩
  · have := (hK d).mpr hd
    rw [hcard] at this
    exact absurd this (Finset.notMem_empty d)
  · rw [waits_pos hw] at hcount
    omega
  · have := List.count_pos_iff.mpr hmem
    omega

theorem peer_live (h : t.Ok held hand) {a b : Nat} (hp : (t.socks a).peer = some b) : (t.socks b).state ≠ .free := by
  intro hfree
  have hback := h.peers a b hp
  rw [h.blank b hfree] at hback
  cases hback

/-! ## What keeps the references and the backlogs -/

theorem of_same (h : t.Ok held hand) (hrefs : ∀ x, (t'.socks x).refs = (t.socks x).refs)
    (hback : ∀ x, (t'.socks x).backlog = (t.socks x).backlog)
    (hstate : ∀ x, (t.socks x).state = .connected → (t'.socks x).state = .connected)
    (blank : ∀ i, (t'.socks i).state = .free → t'.socks i = UnixSock.zero)
    (peers : ∀ a b, (t'.socks a).peer = some b → (t'.socks b).peer = some a)
    (linked : ∀ a b, (t'.socks a).peer = some b → (t'.socks a).state = .connected)
    (names : ∀ j path i, t'.bound j = some (path, i) → (t'.socks i).state = .bound ∨ (t'.socks i).state = .listening)
    (oneName : Exclusive fun j => (t'.bound j).map Prod.snd) : t'.Ok held hand where
  blank := blank
  peers := peers
  linked := linked
  names := names
  oneName := oneName
  waiting := by
    intro s e he
    rw [hback] at he
    obtain ⟨hc, hr, hb⟩ := h.waiting s e he
    exact ⟨hstate e hc, (hrefs e).trans hr, (hback e).trans hb⟩
  nodup := by
    intro s
    rw [hback]
    exact h.nodup s
  apart := by
    intro s s' e hs hs'
    rw [hback] at hs hs'
    exact h.apart s s' e hs hs'
  tally := by
    rw [waits_congr hback]
    exact h.tally.congr (fun _ => rfl) hrefs

theorem restate (h : t.Ok held hand) {s : UnixSock} (bound : Nat → Option (Path × Nat)) (hlive : s.state ≠ .free)
    (hi : (t.socks i).state ≠ .connected) (hrefs : s.refs = (t.socks i).refs) (hback : s.backlog = (t.socks i).backlog)
    (hpeer : s.peer = (t.socks i).peer)
    (hnames : ∀ j path x, bound j = some
      (path, x) → (((t.set i s).socks x).state = .bound ∨ ((t.set i s).socks x).state = .listening))
    (hone : Exclusive fun j => (bound j).map Prod.snd) :
    ({ t.set i s with bound := bound } : Sockets).Ok held hand := by
  have hnone : (t.socks i).peer = none := by
    cases hp : (t.socks i).peer with
    | none => rfl
    | some b => exact absurd (h.linked i b hp) hi
  have hpeers : ∀ x, ((t.set i s).socks x).peer = (t.socks x).peer := set_same UnixSock.peer hpeer
  refine h.of_same (set_same UnixSock.refs hrefs) (set_same UnixSock.backlog hback) ?_ ?_ ?_ ?_ hnames hone
  · intro x hc
    have hx : x ≠ i := by
      rintro rfl
      exact hi hc
    exact (congrArg UnixSock.state (set_ne t s hx)).trans hc
  · intro x hfree
    by_cases hx : x = i
    · refine absurd ?_ hlive
      rw [hx] at hfree
      exact (congrArg UnixSock.state (set_self t i s)).symm.trans hfree
    · have hsame := set_ne t s hx
      exact hsame.trans (h.blank x ((congrArg UnixSock.state hsame).symm.trans hfree))
  · intro a b hab
    exact (hpeers b).trans (h.peers a b ((hpeers a).symm.trans hab))
  · intro a b hab
    have hold := (hpeers a).symm.trans hab
    have ha : a ≠ i := by
      rintro rfl
      rw [hnone] at hold
      cases hold
    exact (congrArg UnixSock.state (set_ne t s ha)).trans (h.linked a b hold)

/-- A socket that keeps its state and its peer keeps what hangs on these. -/
theorem wired (h : t.Ok held hand) {s : UnixSock} (hstate : s.state = (t.socks i).state)
    (hpeer : s.peer = (t.socks i).peer) (hlive : s.state ≠ .free) :
    (∀ x, ((t.set i s).socks x).state = .free → (t.set i s).socks x = UnixSock.zero) ∧
    (∀ a b, ((t.set i s).socks a).peer = some b → ((t.set i s).socks b).peer = some a) ∧
    (∀ a b, ((t.set i s).socks a).peer = some b → ((t.set i s).socks a).state = .connected) ∧
    ∀ j path x, t.bound j = some (path, x) →
      ((t.set i s).socks x).state = .bound ∨ ((t.set i s).socks x).state = .listening := by
  have hstates := set_same UnixSock.state hstate
  have hpeers := set_same UnixSock.peer hpeer
  refine ⟨fun x hfree => ?_, fun a b hab => (hpeers b).trans (h.peers a b ((hpeers a).symm.trans hab)),
    fun a b hab => (hstates a).trans (h.linked a b ((hpeers a).symm.trans hab)), fun j path x hj => ?_⟩
  · have hx : x ≠ i := by
      rintro rfl
      rw [set_self] at hfree
      exact hlive hfree
    rw [set_ne t s hx] at hfree ⊢
    exact h.blank x hfree
  · rw [hstates]
    exact h.names j path x hj

theorem reflag (h : t.Ok held hand) {s : UnixSock} (hstate : s.state = (t.socks i).state)
    (hrefs : s.refs = (t.socks i).refs) (hback : s.backlog = (t.socks i).backlog) (hpeer : s.peer = (t.socks i).peer)
    (hlive : s.state ≠ .free) : (t.set i s).Ok held hand := by
  obtain ⟨hblank, hpeers, hlinked, hnames⟩ := h.wired hstate hpeer hlive
  exact h.of_same (set_same UnixSock.refs hrefs) (set_same UnixSock.backlog hback)
    (fun x hc => (set_same UnixSock.state hstate x).trans hc) hblank hpeers hlinked hnames h.oneName

/-! ## References -/

theorem recount {hand' : List Nat} (h : t.Ok held hand) {s : UnixSock} (hstate : s.state = (t.socks i).state)
    (hback : s.backlog = (t.socks i).backlog) (hpeer : s.peer = (t.socks i).peer) (hlive : s.state ≠ .free)
    (hwait : ¬ ∃ x, i ∈ (t.socks x).backlog)
    (htally : Tallied held t.waits hand' (update (fun x => (t.socks x).refs) i s.refs)) :
    (t.set i s).Ok held hand' := by
  have hbacks := set_same UnixSock.backlog hback
  obtain ⟨hblank, hpeers, hlinked, hnames⟩ := h.wired hstate hpeer hlive
  refine ⟨hblank, hpeers, hlinked, hnames, h.oneName, ?_, ?_, ?_, ?_⟩
  · intro x e he
    rw [hbacks] at he
    obtain ⟨hc, hr, hb⟩ := h.waiting x e he
    have hne : e ≠ i := by
      rintro rfl
      exact hwait ⟨x, he⟩
    rw [set_ne t s hne]
    exact ⟨hc, hr, hb⟩
  · intro x
    rw [hbacks]
    exact h.nodup x
  · intro x x' e hx hx'
    rw [hbacks] at hx hx'
    exact h.apart x x' e hx hx'
  · rw [waits_congr hbacks]
    refine htally.congr (fun _ => rfl) fun x => ?_
    by_cases hx : x = i
    · rw [hx, set_self, update_self]
    · rw [set_ne t s hx, update_of_ne hx]

theorem put (h : t.Ok held (i :: hand)) {d : Nat × Nat} (hd : held d = none) :
    t.Ok (update held d (some i)) hand :=
  { h with tally := h.tally.put hd }

theorem pick (h : t.Ok held hand) {d : Nat × Nat} (hd : held d = some i) :
    t.Ok (update held d none) (i :: hand) :=
  { h with tally := h.tally.pick hd }

theorem ref (h : t.Ok held hand) {d : Nat × Nat} (hd : held d = some i) : (t.socketRef i).Ok held (i :: hand) := by
  have hlive : (t.socks i).state ≠ .free := fun hfree => h.not_held hfree d hd
  have hwait : ¬ ∃ x, i ∈ (t.socks x).backlog := by
    rintro ⟨x, hx⟩
    have hpos := h.tally.held_pos hd
    simp only [waits_pos ⟨x, hx⟩, (h.waiting x i hx).2.1] at hpos
    omega
  rw [socketRef, if_neg hlive]
  exact h.recount rfl rfl rfl hlive hwait (h.tally.take i)

theorem alloc {mem : Bool} (h : t.Ok held hand) (ha : t.sockAlloc mem = some (i, t')) :
    t'.Ok held (i :: hand) ∧ (t.socks i).state = .free ∧ t' = t.set i UnixSock.fresh := by
  unfold sockAlloc at ha
  split at ha
  · rename_i k hfind
    split at ha
    · simp only [Option.some.injEq, Prod.mk.injEq] at ha
      obtain ⟨rfl, rfl⟩ := ha
      have hfree : (t.socks k).state = .free := by simpa using List.find?_some hfind
      have hzero := h.blank k hfree
      -- in two steps: a socket without references, and then the reference
      have hlive : (t.set k { UnixSock.fresh with refs := 0 }).Ok held hand := by
        refine h.restate t.bound nofun (by rw [hfree]; nofun) (by rw [hzero]; rfl) (by rw [hzero]; rfl)
          (by rw [hzero]; rfl) ?_ h.oneName
        intro j path x hj
        have hx : x ≠ k := by
          rintro rfl
          exact (h.names j path x hj).elim (by rw [hfree]; nofun) (by rw [hfree]; nofun)
        rw [set_ne t _ hx]
        exact h.names j path x hj
      have htwo : (t.set k { UnixSock.fresh with refs := 0 }).set k UnixSock.fresh = t.set k UnixSock.fresh := by
        simp only [set, update_idem]
      refine ⟨?_, hfree, rfl⟩
      rw [← htwo]
      refine hlive.recount (by rw [set_self]) (by rw [set_self]) (by rw [set_self]) nofun
        (hlive.not_waiting (by rw [set_self]; nofun)) ?_
      refine (hlive.tally.take k).congr (fun _ => rfl) fun x => ?_
      by_cases hx : x = k
      · rw [hx, update_self, update_self, set_self]
        rfl
      · rw [update_of_ne hx, update_of_ne hx]
    · cases ha
  · cases ha

/-- `sock_free` of a socket in the hand. -/
theorem free (h : t.Ok held (i :: hand)) (hrefs : (t.socks i).refs = 1) (hpeer : (t.socks i).peer = none)
    (hback : (t.socks i).backlog = []) : (t.sockFree i).Ok held hand := by
  have hlive : (t.socks i).state ≠ .free := by
    intro hfree
    rw [h.blank i hfree] at hrefs
    cases hrefs
  obtain ⟨-, hwait, -⟩ := h.in_hand hrefs
  rw [sockFree, if_neg hlive]
  have hself : update t.socks i UnixSock.zero i = UnixSock.zero := update_self _ _ _
  have hne : ∀ {x}, x ≠ i → update t.socks i UnixSock.zero x = t.socks x := fun hx => update_of_ne hx _ _
  have hbacks : ∀ x, (update t.socks i UnixSock.zero x).backlog = (t.socks x).backlog := by
    intro x
    by_cases hx : x = i
    · rw [hx, hself, hback]
      rfl
    · rw [hne hx]
  have hpeers : ∀ x, (update t.socks i UnixSock.zero x).peer = (t.socks x).peer := by
    intro x
    by_cases hx : x = i
    · rw [hx, hself, hpeer]
      rfl
    · rw [hne hx]
  have hbound : ∀ {j v}, (if (t.bound j).map Prod.snd = some i then none else t.bound j) = some v →
      t.bound j = some v ∧ v.2 ≠ i := by
    intro j v hj
    split at hj
    · cases hj
    · rename_i hnot
      refine ⟨hj, fun hv => hnot ?_⟩
      rw [hj, ← hv]
      rfl
  refine ⟨?_, ?_, ?_, ?_, ?_, ?_, ?_, ?_, ?_⟩
  · intro x hfree
    simp only at hfree ⊢
    by_cases hx : x = i
    · rw [hx, hself]
    · rw [hne hx] at hfree ⊢
      exact h.blank x hfree
  · exact fun a b hab => (hpeers b).trans (h.peers a b ((hpeers a).symm.trans hab))
  · intro a b hab
    have hold := (hpeers a).symm.trans hab
    have ha : a ≠ i := by
      rintro rfl
      rw [hpeer] at hold
      cases hold
    exact (congrArg UnixSock.state (hne ha)).trans (h.linked a b hold)
  · intro j path x hj
    obtain ⟨hj, hx⟩ := hbound hj
    have hsame : update t.socks i UnixSock.zero x = t.socks x := hne hx
    simp only [hsame]
    exact h.names j path x hj
  · intro j j' x hj hj'
    obtain ⟨v, hv, rfl⟩ := Option.map_eq_some_iff.mp hj
    obtain ⟨v', hv', hvx⟩ := Option.map_eq_some_iff.mp hj'
    refine h.oneName j j' v.2 (congrArg (Option.map Prod.snd) (hbound hv).1) ?_
    rw [← hvx]
    exact congrArg (Option.map Prod.snd) (hbound hv').1
  · intro s e he
    rw [hbacks] at he
    have hx : e ≠ i := by
      rintro rfl
      exact hwait ⟨s, he⟩
    simp only [hne hx]
    exact h.waiting s e he
  · intro s
    rw [hbacks]
    exact h.nodup s
  · intro s s' e hs hs'
    rw [hbacks] at hs hs'
    exact h.apart s s' e hs hs'
  · rw [waits_congr hbacks]
    refine h.tally.give.congr (fun _ => rfl) fun x => ?_
    by_cases hx : x = i
    · rw [hx, update_self, hrefs]
      exact congrArg UnixSock.refs hself
    · rw [update_of_ne hx]
      exact congrArg UnixSock.refs (hne hx)

/-! ## Links -/

/-- `link_pair` of two sockets that have no name and no peer. -/
theorem link (h : t.Ok held hand) {a b : Nat} (hab : a ≠ b) (ha : (t.socks a).Plain) (hb : (t.socks b).Plain) :
    (t.linkPair a b).Ok held hand := by
  have hat : (t.linkPair a b).socks a = { t.socks a with peer := some b, state := .connected } := by
    rw [linkPair, set_ne _ _ hab, set_self]
  have hbt : (t.linkPair a b).socks b = { t.socks b with peer := some a, state := .connected } := by
    rw [linkPair, set_self, set_ne _ _ (Ne.symm hab)]
  have hx : ∀ {x}, x ≠ a → x ≠ b → (t.linkPair a b).socks x = t.socks x := by
    intro x hxa hxb
    rw [linkPair, set_ne _ _ hxb, set_ne _ _ hxa]
  -- the peers of a socket that is neither of the two are neither of the two
  have hnone : ∀ {x y}, (t.socks x).Plain → (t.socks x).peer ≠ some y := fun hu hp => hu.1 (h.linked _ _ hp)
  refine h.of_same ?_ ?_ ?_ ?_ ?_ ?_ ?_ h.oneName
  · intro x
    by_cases hxa : x = a
    · rw [hxa, hat]
    · by_cases hxb : x = b
      · rw [hxb, hbt]
      · rw [hx hxa hxb]
  · intro x
    by_cases hxa : x = a
    · rw [hxa, hat]
    · by_cases hxb : x = b
      · rw [hxb, hbt]
      · rw [hx hxa hxb]
  · intro x hc
    by_cases hxa : x = a
    · rw [hxa, hat]
    · by_cases hxb : x = b
      · rw [hxb, hbt]
      · rw [hx hxa hxb]
        exact hc
  · intro x hfree
    by_cases hxa : x = a
    · rw [hxa, hat] at hfree
      cases hfree
    · by_cases hxb : x = b
      · rw [hxb, hbt] at hfree
        cases hfree
      · rw [hx hxa hxb] at hfree ⊢
        exact h.blank x hfree
  · intro x y hxy
    by_cases hxa : x = a
    · rw [hxa, hat] at hxy
      obtain rfl := Option.some.inj hxy
      rw [hbt, hxa]
    · by_cases hxb : x = b
      · rw [hxb, hbt] at hxy
        obtain rfl := Option.some.inj hxy
        rw [hat, hxb]
      · rw [hx hxa hxb] at hxy
        have hback := h.peers x y hxy
        have hya : y ≠ a := by
          rintro rfl
          exact hnone ha hback
        have hyb : y ≠ b := by
          rintro rfl
          exact hnone hb hback
        rw [hx hya hyb]
        exact hback
  · intro x y hxy
    by_cases hxa : x = a
    · rw [hxa, hat]
    · by_cases hxb : x = b
      · rw [hxb, hbt]
      · rw [hx hxa hxb] at hxy ⊢
        exact h.linked x y hxy
  · intro j path x hj
    have hname := h.names j path x hj
    have hxa : x ≠ a := by
      rintro rfl
      exact hname.elim ha.2.1 ha.2.2
    have hxb : x ≠ b := by
      rintro rfl
      exact hname.elim hb.2.1 hb.2.2
    rw [hx hxa hxb]
    exact hname

/-- The peer is told, and the socket forgets it. -/
theorem unlink (h : t.Ok held hand) (hi : (t.socks i).state ≠ .free) :
    ((t.dropPeer i).set i { (t.dropPeer i).socks i with peer := none }).Ok held hand := by
  cases hp : (t.socks i).peer with
  | none =>
    rw [dropPeer, hp]
    exact h.reflag rfl rfl rfl hp.symm hi
  | some p =>
    have hback := h.peers i p hp
    have hpi : (t.socks p).state = .connected := h.linked p i hback
    -- a socket is its own peer only when the two are one
    have hsocks : ∀ x, ((t.dropPeer i).set i { (t.dropPeer i).socks i with peer := none }).socks x =
        if x = i ∨ x = p then { t.socks x with peer := none, peerClosed := if x = p then true else (t.socks x).peerClosed }
        else t.socks x := by
      intro x
      rw [dropPeer, hp]
      by_cases hxi : x = i
      · rw [hxi, set_self, if_pos (Or.inl rfl)]
        by_cases hip : i = p
        · rw [← hip, set_self, if_pos rfl]
        · rw [set_ne _ _ hip, if_neg hip]
      · by_cases hxp : x = p
        · rw [set_ne _ _ hxi, hxp, set_self, if_pos (Or.inr rfl), if_pos rfl]
        · rw [set_ne _ _ hxi, set_ne _ _ hxp, if_neg (not_or.mpr ⟨hxi, hxp⟩)]
    have hstate : ∀ x, (((t.dropPeer i).set i { (t.dropPeer i).socks i with peer := none }).socks x).state =
        (t.socks x).state := by
      intro x
      rw [hsocks]
      split <;> rfl
    refine h.of_same ?_ ?_ ?_ ?_ ?_ ?_ ?_ ?_
    · intro x
      rw [hsocks]
      split <;> rfl
    · intro x
      rw [hsocks]
      split <;> rfl
    · intro x hc
      rw [hstate]
      exact hc
    · intro x hfree
      rw [hstate] at hfree
      have hne : ¬ (x = i ∨ x = p) := by
        rintro (rfl | rfl)
        · exact hi hfree
        · rw [hpi] at hfree
          cases hfree
      rw [hsocks, if_neg hne]
      exact h.blank x hfree
    · intro a b hab
      rw [hsocks] at hab
      split at hab
      · cases hab
      · rename_i ha
        have hold := h.peers a b hab
        have hb : ¬ (b = i ∨ b = p) := by
          rintro (rfl | rfl)
          · rw [hp] at hold
            exact ha (Or.inr (Option.some.inj hold).symm)
          · rw [hback] at hold
            exact ha (Or.inl (Option.some.inj hold).symm)
        rw [hsocks, if_neg hb]
        exact hold
    · intro a b hab
      rw [hsocks] at hab
      rw [hstate]
      split at hab
      · cases hab
      · exact h.linked a b hab
    · intro j path x hj
      rw [hstate]
      refine h.names j path x ?_
      rw [dropPeer, hp] at hj
      exact hj
    · have hbound : ((t.dropPeer i).set i { (t.dropPeer i).socks i with peer := none }).bound = t.bound := by
        rw [dropPeer, hp]
        rfl
      rw [hbound]
      exact h.oneName

/-! ## Backlogs -/

theorem rebacklog {hand' B : List Nat} {s : Nat} (h : t.Ok held hand) (hlive : (t.socks s).state ≠ .free)
    (hwait : ¬ ∃ x, s ∈ (t.socks x).backlog)
    (hB : ∀ e ∈ B, e ≠ s ∧ (t.socks e).state = .connected ∧ (t.socks e).refs = 1 ∧ (t.socks e).backlog = [])
    (hnodup : B.Nodup) (hapart : ∀ e ∈ B, ∀ x ≠ s, e ∉ (t.socks x).backlog)
    (htally : Tallied held (t.set s { t.socks s with backlog := B }).waits hand' fun x => (t.socks x).refs) :
    (t.set s { t.socks s with backlog := B }).Ok held hand' := by
  obtain ⟨hblank, hpeers, hlinked, hnames⟩ :=
    h.wired (i := s) (s := { t.socks s with backlog := B }) rfl rfl hlive
  have hself := set_self t s { t.socks s with backlog := B }
  have hne : ∀ {x}, x ≠ s → (t.set s { t.socks s with backlog := B }).socks x = t.socks x := fun hx => set_ne t _ hx
  refine ⟨hblank, hpeers, hlinked, hnames, h.oneName, ?_, ?_, ?_, ?_⟩
  · intro x e he
    by_cases hx : x = s
    · rw [hx, hself] at he
      obtain ⟨hes, hrest⟩ := hB e he
      rw [hne hes]
      exact hrest
    · rw [hne hx] at he
      have hes : e ≠ s := by
        rintro rfl
        exact hwait ⟨x, he⟩
      rw [hne hes]
      exact h.waiting x e he
  · intro x
    by_cases hx : x = s
    · rw [hx, hself]
      exact hnodup
    · rw [hne hx]
      exact h.nodup x
  · intro x x' e he he'
    by_cases hx : x = s
    · by_cases hx' : x' = s
      · rw [hx, hx']
      · rw [hx, hself] at he
        rw [hne hx'] at he'
        exact absurd he' (hapart e he x' hx')
    · rw [hne hx] at he
      by_cases hx' : x' = s
      · rw [hx', hself] at he'
        exact absurd he (hapart e he' x hx)
      · rw [hne hx'] at he'
        exact h.apart x x' e he he'
  · exact htally.congr (fun _ => rfl) (set_same UnixSock.refs rfl)

theorem push {e l : Nat} (h : t.Ok held (e :: hand)) (hrefs : (t.socks e).refs = 1)
    (hstate : (t.socks e).state = .connected) (hback : (t.socks e).backlog = []) (hl : (t.socks l).state = .listening) :
    (t.set l { t.socks l with backlog := (t.socks l).backlog ++ [e] }).Ok held hand := by
  obtain ⟨-, hwait, -⟩ := h.in_hand hrefs
  have hlwait : ¬ ∃ x, l ∈ (t.socks x).backlog := h.not_waiting (by rw [hl]; nofun)
  have hel : e ≠ l := by
    rintro rfl
    rw [hl] at hstate
    cases hstate
  refine h.rebacklog (by rw [hl]; nofun) hlwait ?_ ?_ ?_ ?_
  · intro e' he'
    rcases List.mem_append.mp he' with he' | he'
    · refine ⟨?_, h.waiting l e' he'⟩
      rintro rfl
      exact hlwait ⟨e', he'⟩
    · obtain rfl := List.mem_singleton.mp he'
      exact ⟨hel, hstate, hrefs, hback⟩
  · refine List.nodup_append.mpr ⟨h.nodup l, List.nodup_singleton e, ?_⟩
    rintro x hx y hy rfl
    obtain rfl := List.mem_singleton.mp hy
    exact hwait ⟨l, hx⟩
  · intro e' he' x hx hmem
    rcases List.mem_append.mp he' with he' | he'
    · exact hx (h.apart x l e' hmem he')
    · obtain rfl := List.mem_singleton.mp he'
      exact hwait ⟨x, hmem⟩
  · have hwaits : (t.set l { t.socks l with backlog := (t.socks l).backlog ++ [e] }).waits =
        update t.waits e (t.waits e + 1) := by
      funext x
      by_cases hx : x = e
      · rw [hx, update_self, waits_zero hwait, waits_pos ⟨l, by rw [set_self]; simp⟩]
      · rw [update_of_ne hx]
        refine waits_eq fun y => ?_
        by_cases hy : y = l
        · rw [hy, set_self]
          simp [hx]
        · rw [set_ne t _ hy]
    rw [hwaits]
    exact h.tally.settle

theorem pop {e s : Nat} {rest : List Nat} (h : t.Ok held hand) (hs : (t.socks s).backlog = e :: rest) :
    (t.set s { t.socks s with backlog := rest }).Ok held (e :: hand) ∧ e ≠ s ∧ e ∉ rest := by
  have hlive : (t.socks s).state ≠ .free := by
    intro hfree
    rw [h.blank s hfree] at hs
    cases hs
  have hwait : ¬ ∃ x, s ∈ (t.socks x).backlog := by
    rintro ⟨x, hx⟩
    rw [(h.waiting x s hx).2.2] at hs
    cases hs
  have hmem : ∀ e' ∈ rest, e' ∈ (t.socks s).backlog := fun e' he' => hs ▸ List.mem_cons_of_mem e he'
  have hfirst : e ∈ (t.socks s).backlog := hs ▸ List.mem_cons_self
  have hnodup : (e :: rest).Nodup := hs ▸ h.nodup s
  have hrest : e ∉ rest := (List.nodup_cons.mp hnodup).1
  have hes : e ≠ s := by
    rintro rfl
    exact hwait ⟨e, hfirst⟩
  refine ⟨h.rebacklog hlive hwait ?_ (List.nodup_cons.mp hnodup).2 ?_ ?_, hes, hrest⟩
  · intro e' he'
    refine ⟨?_, h.waiting s e' (hmem e' he')⟩
    rintro rfl
    exact hwait ⟨e', hmem e' he'⟩
  · exact fun e' he' x hx hx' => hx (h.apart x s e' hx' (hmem e' he'))
  · have hgone : ¬ ∃ x, e ∈ ((t.set s { t.socks s with backlog := rest }).socks x).backlog := by
      rintro ⟨x, hx⟩
      by_cases hxs : x = s
      · rw [hxs, set_self] at hx
        exact hrest hx
      · rw [set_ne t _ hxs] at hx
        exact hxs (h.apart x s e hx hfirst)
    have hone := waits_pos ⟨s, hfirst⟩
    have hwaits : (t.set s { t.socks s with backlog := rest }).waits = update t.waits e (t.waits e - 1) := by
      funext x
      by_cases hx : x = e
      · rw [hx, update_self, waits_zero hgone, hone]
      · rw [update_of_ne hx]
        refine waits_eq fun y => ?_
        by_cases hy : y = s
        · rw [hy, set_self, hs]
          simp [hx]
        · rw [set_ne t _ hy]
    rw [hwaits]
    exact h.tally.fetch (by rw [hone]; exact Nat.one_pos)

end Ok

/-! ## Closing -/

theorem sockFree_set (he : e ≠ i) : (t.set i s).sockFree e = (t.sockFree e).set i s := by
  unfold sockFree
  rw [set_ne t s he]
  split
  · rfl
  · exact congrArg (Sockets.mk · _) (update_comm (Ne.symm he) _ _ _)

theorem sockFree_set_self (hs : s.state ≠ .free) (hi : (t.socks i).state ≠ .free) :
    (t.set i s).sockFree i = t.sockFree i := by
  unfold sockFree
  rw [set_self, if_neg hs, if_neg hi]
  exact congrArg (Sockets.mk · _) (update_idem _ _ _)

theorem sockFree_ne (hx : x ≠ i) : (t.sockFree i).socks x = t.socks x := by
  unfold sockFree
  split
  · rfl
  · exact update_of_ne hx _ _

theorem freeAll_set (es : List Nat) : ∀ {t : Sockets}, i ∉ es →
    es.foldl sockFree (t.set i s) = (es.foldl sockFree t).set i s := by
  induction es with
  | nil => exact fun _ => rfl
  | cons e es ih =>
    intro t hi
    rw [List.mem_cons, not_or] at hi
    rw [List.foldl_cons, sockFree_set (Ne.symm hi.1), ih hi.2, List.foldl_cons]

theorem freeAll_ne (es : List Nat) : ∀ {t : Sockets}, i ∉ es → (es.foldl sockFree t).socks i = t.socks i := by
  induction es with
  | nil => exact fun _ => rfl
  | cons e es ih =>
    intro t hi
    rw [List.mem_cons, not_or] at hi
    rw [List.foldl_cons, ih hi.2, sockFree_ne hi.1]

theorem dropPeer_backlog (x : Nat) : ((t.dropPeer i).socks x).backlog = (t.socks x).backlog := by
  unfold dropPeer
  split
  · exact set_same UnixSock.backlog (by rfl) x
  · rfl

theorem sockFree_backlog (h : (t.socks x).backlog = []) : ((t.sockFree i).socks x).backlog = [] := by
  by_cases hx : x = i
  · subst hx
    unfold sockFree
    split
    · exact h
    · show (update t.socks x UnixSock.zero x).backlog = []
      rw [update_self]
      rfl
  · rw [sockFree_ne hx]
    exact h

theorem freeAll_backlog (es : List Nat) : ∀ {t : Sockets}, (t.socks x).backlog = [] →
    ((es.foldl sockFree t).socks x).backlog = [] := by
  induction es with
  | nil => exact id
  | cons e es ih => exact fun h => ih (sockFree_backlog h)

theorem socketClose_backlog (h : (t.socks x).backlog = []) : ((t.socketClose i).socks x).backlog = [] := by
  unfold socketClose
  split
  · exact (set_same UnixSock.backlog (by rfl) x).trans h
  · exact sockFree_backlog (freeAll_backlog _ ((dropPeer_backlog x).trans h))

namespace Ok

theorem perm {hand' : List Nat} (h : t.Ok held hand) (hp : hand.Perm hand') : t.Ok held hand' :=
  { h with
    tally := fun f => by
      obtain ⟨K, hK, hcount⟩ := h.tally f
      exact ⟨K, hK, by rw [← hp.count_eq f]; exact hcount⟩ }

theorem freeBacklog (es : List Nat) : ∀ {t : Sockets}, t.Ok held (i :: hand) → (t.socks i).refs = 1 →
    (t.socks i).peer = none → (t.socks i).backlog = es → (∀ e ∈ es, (t.socks e).peer = none) →
    ((es.foldl sockFree t).sockFree i).Ok held hand := by
  induction es with
  | nil => exact fun h hrefs hpeer hback _ => h.free hrefs hpeer hback
  | cons e es ih =>
    intro t h hrefs hpeer hback hall
    obtain ⟨hpop, hei, hes⟩ := h.pop hback
    obtain ⟨-, herefs, heback⟩ := h.waiting i e (hback ▸ List.mem_cons_self)
    have hies : i ∉ es := fun hmem => (h.in_hand hrefs).2.1 ⟨i, hback ▸ List.mem_cons_of_mem e hmem⟩
    have hilive : (t.socks i).state ≠ .free := by
      intro hfree
      rw [h.blank i hfree] at hrefs
      cases hrefs
    have hfreed := hpop.free (by rw [set_ne t _ hei]; exact herefs)
      (by rw [set_ne t _ hei]; exact hall e List.mem_cons_self) (by rw [set_ne t _ hei]; exact heback)
    rw [sockFree_set hei] at hfreed
    have hkeep : (t.sockFree e).socks i = t.socks i := sockFree_ne (Ne.symm hei)
    have hrest := ih hfreed (by rw [set_self]; exact hrefs) (by rw [set_self]; exact hpeer) (by rw [set_self]) ?_
    · rw [freeAll_set es hies, sockFree_set_self (s := { t.socks i with backlog := es }) hilive
          (by rw [freeAll_ne es hies, hkeep]; exact hilive)] at hrest
      exact hrest
    · intro e' he'
      have hne : e' ≠ i := ne_of_mem_of_not_mem he' hies
      have hne' : e' ≠ e := ne_of_mem_of_not_mem he' hes
      rw [set_ne _ _ hne, sockFree_ne hne']
      exact hall e' (List.mem_cons_of_mem e he')

theorem close (h : t.Ok held (i :: hand))
    (hall : (t.socks i).refs ≤ 1 → ∀ e ∈ (t.socks i).backlog, (t.socks e).peer = none) :
    (t.socketClose i).Ok held hand := by
  have hpos := h.tally.outside_le i
  simp only [List.count_cons_self] at hpos
  have hlive : (t.socks i).state ≠ .free := by
    intro hfree
    rw [h.blank i hfree] at hpos
    exact absurd hpos (by show ¬ _ ≤ 0; omega)
  unfold socketClose
  split
  · rename_i hmany
    refine h.recount rfl rfl rfl hlive ?_ h.tally.give
    rintro ⟨x, hx⟩
    rw [(h.waiting x i hx).2.1] at hmany
    omega
  · rename_i hlast
    have hrefs : (t.socks i).refs = 1 := by omega
    have hdrop := h.unlink hlive
    have hstate : ((t.dropPeer i).socks i).state = (t.socks i).state := by
      unfold dropPeer
      split
      · exact set_same UnixSock.state (by rfl) i
      · rfl
    have hdrefs : ((t.dropPeer i).socks i).refs = (t.socks i).refs := by
      unfold dropPeer
      split
      · exact set_same UnixSock.refs (by rfl) i
      · rfl
    have hies : i ∉ ((t.dropPeer i).socks i).backlog := by
      rw [dropPeer_backlog]
      exact fun hmem => (h.in_hand hrefs).2.1 ⟨i, hmem⟩
    have hfreed := hdrop.freeBacklog ((t.dropPeer i).socks i).backlog (by rw [set_self]; exact hdrefs.trans hrefs)
      (by rw [set_self]) (by rw [set_self]) ?_
    · rw [freeAll_set _ hies, sockFree_set_self (by rw [hstate]; exact hlive)
        (by rw [freeAll_ne _ hies, hstate]; exact hlive)] at hfreed
      exact hfreed
    · intro e he
      have hei : e ≠ i := ne_of_mem_of_not_mem he hies
      rw [set_ne _ _ hei]
      rw [dropPeer_backlog] at he
      have hpeer := hall (by omega) e he
      unfold dropPeer
      split
      · rename_i p _
        by_cases hep : e = p
        · rw [hep, set_self]
        · rw [set_ne _ _ hep]
          exact hpeer
      · exact hpeer

/-! ## Names -/

theorem name (h : t.Ok held hand) {j : Nat} {path : Path} {s : UnixSock} (hplain : (t.socks i).Plain)
    (hstate : s.state = .bound) (hrefs : s.refs = (t.socks i).refs) (hback : s.backlog = (t.socks i).backlog)
    (hpeer : s.peer = (t.socks i).peer) :
    ({ t.set i s with bound := update t.bound j (some (path, i)) } : Sockets).Ok held hand := by
  have hnot := h.not_bound hplain.2.1 hplain.2.2
  refine h.restate _ (by rw [hstate]; nofun) hplain.1 hrefs hback hpeer ?_ ?_
  · intro k path' x hk
    by_cases hkj : k = j
    · rw [hkj, update_self] at hk
      obtain ⟨-, rfl⟩ := Prod.mk.inj (Option.some.inj hk)
      rw [set_self]
      exact Or.inl hstate
    · rw [update_of_ne hkj] at hk
      have hx : x ≠ i := by
        rintro rfl
        refine hnot k ?_
        rw [hk]
        rfl
      rw [set_ne t s hx]
      exact h.names k path' x hk
  · have hmap : (fun k => (update t.bound j (some (path, i)) k).map Prod.snd) =
        update (fun k => (t.bound k).map Prod.snd) j (some i) := by
      funext k
      by_cases hkj : k = j
      · rw [hkj, update_self, update_self]
        rfl
      · rw [update_of_ne hkj, update_of_ne hkj]
    rw [hmap]
    exact h.oneName.put hnot

theorem unbindSlot (h : t.Ok held hand) (path : Path) (j : Nat) : (t.unbindSlot path j).Ok held hand := by
  unfold Sockets.unbindSlot
  split
  · rename_i path' x hj
    split
    · have hname := h.names j path' x hj
      refine h.restate _ nofun ?_ rfl rfl rfl ?_ ?_
      · exact hname.elim (fun hs => by rw [hs]; nofun) (fun hs => by rw [hs]; nofun)
      · intro k path'' y hk
        have hkj : k ≠ j := by
          rintro rfl
          rw [update_self] at hk
          cases hk
        rw [update_of_ne hkj] at hk
        have hy : y ≠ x := by
          rintro rfl
          exact hkj (h.oneName k j y (congrArg (Option.map Prod.snd) hk) (congrArg (Option.map Prod.snd) hj))
        rw [set_ne t _ hy]
        exact h.names k path'' y hk
      · have hmap : (fun k => (update t.bound j none k).map Prod.snd) =
            update (fun k => (t.bound k).map Prod.snd) j none := by
          funext k
          by_cases hkj : k = j
          · rw [hkj, update_self, update_self]
            rfl
          · rw [update_of_ne hkj, update_of_ne hkj]
        rw [hmap]
        exact h.oneName.drop j
    · exact h
  · exact h

theorem unbindPath (h : t.Ok held hand) (path : Path) : (t.socketUnbindPath path).Ok held hand := by
  unfold socketUnbindPath
  generalize List.range MAX_BOUND = js
  induction js generalizing t with
  | nil => exact h
  | cons j js ih => exact ih (h.unbindSlot path j)

/-! ## Pairs -/

theorem pair {a b : Nat} {mem mem' : Bool} (h : t.Ok held hand) (hp : t.newPair mem mem' = some (a, b, t')) :
    t'.Ok held (a :: b :: hand) ∧ (t'.socks a).backlog = [] ∧ (t'.socks b).backlog = [] ∧
      (t'.socks a).state ≠ .free ∧ (t'.socks b).state ≠ .free := by
  unfold newPair at hp
  split at hp
  · cases hp
  · rename_i a' t₁ halloc
    split at hp
    · cases hp
    · rename_i b' t₂ halloc'
      simp only [Option.some.injEq, Prod.mk.injEq] at hp
      obtain ⟨rfl, rfl, rfl⟩ := hp
      obtain ⟨h₁, -, ht₁⟩ := h.alloc halloc
      obtain ⟨h₂, hfree, ht₂⟩ := h₁.alloc halloc'
      have hab : a' ≠ b' := by
        rintro rfl
        rw [ht₁, set_self] at hfree
        cases hfree
      have hat : t₂.socks a' = UnixSock.fresh := by rw [ht₂, set_ne _ _ hab, ht₁, set_self]
      have hbt : t₂.socks b' = UnixSock.fresh := by rw [ht₂, set_self]
      refine ⟨(h₂.link hab (by rw [hat]; exact UnixSock.fresh_plain) (by rw [hbt]; exact UnixSock.fresh_plain)).perm
        (List.Perm.swap a' b' hand), ?_, ?_, ?_, ?_⟩
      · rw [linkPair, set_ne _ _ hab, set_self, hat]
        rfl
      · rw [linkPair, set_self, set_ne _ _ (Ne.symm hab), hbt]
        rfl
      · rw [linkPair, set_ne _ _ hab, set_self]
        nofun
      · rw [linkPair, set_self]
        nofun

end Ok

end Sockets

/-! ## The calls -/

namespace Graph

variable {g : Graph} {p fd : Nat}

def Ok (g : Graph) : Prop := g.tbl.Ok g.held []

theorem held_none (h : fdAlloc g.fds p = some fd) : g.held (p, fd) = none := by
  have hfree : g.fds (p, fd) = .free := by simpa using List.find?_some h
  rw [held, hfree]
  rfl

variable {i : Nat}

theorem held_some (h : g.fdSocket p fd = some i) : g.held (p, fd) = some i := by
  unfold fdSocket at h
  split at h
  · split at h
    · rename_i k hk
      rw [held, hk]
      exact h
    · cases h
  · cases h

theorem held_update (d : Nat × Nat) (e : Fd) :
    (fun k => (update g.fds d e k).socket) = update g.held d e.socket := by
  funext k
  by_cases hk : k = d
  · rw [hk, update_self, update_self]
  · rw [update_of_ne hk, update_of_ne hk]
    rfl

variable {t : Sockets}

theorem install_ok {fds : Nat × Nat → Fd} {hand : List Nat}
    (h : t.Ok (held ⟨t, fds⟩) (i :: hand)) (hfd : fdAlloc fds p = some fd) :
    t.Ok (install ⟨t, fds⟩ p fd i).held hand := by
  have hput := h.put (held_none (g := ⟨t, fds⟩) hfd)
  rwa [← show (install ⟨t, fds⟩ p fd i).held = update (held ⟨t, fds⟩) (p, fd) (some i) from
    held_update (g := ⟨t, fds⟩) (p, fd) (.sock i)] at hput

theorem closeFd_ok {hand : List Nat} (h : g.tbl.Ok g.held hand) (hfd : g.held (p, fd) = some i)
    (hall : (g.tbl.socks i).refs ≤ 1 → ∀ e ∈ (g.tbl.socks i).backlog, (g.tbl.socks e).peer = none) :
    (g.closeFd p fd i).tbl.Ok (g.closeFd p fd i).held hand := by
  have hpick := (h.pick hfd).close hall
  rwa [← show (g.closeFd p fd i).held = update g.held (p, fd) none from held_update (p, fd) .free] at hpick

theorem other_ok {e : Fd} (h : g.Ok) (hfd : g.held (p, fd) = none) (he : e.socket = none) :
    Ok { g with fds := update g.fds (p, fd) e } := by
  have hsame : held { g with fds := update g.fds (p, fd) e } = g.held := by
    refine (held_update (p, fd) e).trans ?_
    rw [he, ← hfd, update_eq_self]
  unfold Ok
  rw [hsame]
  exact h

theorem init_ok : init.Ok where
  blank := fun _ _ => rfl
  peers := nofun
  linked := nofun
  names := nofun
  oneName := nofun
  waiting := nofun
  nodup := fun _ => List.nodup_nil
  apart := nofun
  tally := fun f => ⟨∅, fun k => ⟨nofun, nofun⟩, by
    rw [Sockets.waits_zero (by rintro ⟨s, hs⟩; cases hs)]
    rfl⟩

variable {mem : Bool}

theorem doSocket_ok (h : g.Ok) : (g.doSocket p mem).2.Ok := by
  unfold doSocket
  split
  · exact h
  · rename_i i t halloc
    obtain ⟨ht, -, rfl⟩ := Sockets.Ok.alloc h halloc
    split
    · exact ht.free (by rw [Sockets.set_self]; rfl) (by rw [Sockets.set_self]; rfl) (by rw [Sockets.set_self]; rfl)
    · rename_i fd hfd
      exact install_ok ht hfd

theorem lone_ok {a : Nat} (h : g.Ok) (halloc : g.tbl.sockAlloc mem = some (a, t)) :
    Ok { g with tbl := t.sockFree a } := by
  obtain ⟨ht, -, rfl⟩ := Sockets.Ok.alloc h halloc
  exact ht.free (by rw [Sockets.set_self]; rfl) (by rw [Sockets.set_self]; rfl) (by rw [Sockets.set_self]; rfl)

theorem closeBoth {held : Nat × Nat → Option Nat} {a b : Nat} (h : t.Ok held [a, b])
    (ha : (t.socks a).backlog = []) (hb : (t.socks b).backlog = []) : ((t.socketClose a).socketClose b).Ok held [] := by
  have hfirst := h.close fun _ e he => by
    rw [ha] at he
    cases he
  refine hfirst.close fun _ e he => ?_
  rw [Sockets.socketClose_backlog hb] at he
  cases he

theorem doSocketpair_ok {mem' : Bool} (h : g.Ok) (hg : g.Proper (.socketpair p mem mem')) :
    (g.doSocketpair p mem mem').2.Ok := by
  unfold doSocketpair
  split
  · split
    · exact h
    · rename_i a t halloc
      exact lone_ok h halloc
  · rename_i a b t hpair
    obtain ⟨ht, ha, hb, -⟩ := Sockets.Ok.pair h hpair
    split
    · exact closeBoth ht ha hb
    · rename_i fa hfa
      have h₁ := install_ok ht hfa
      simp only
      split
      · rename_i hnone
        -- a second descriptor is left
        obtain ⟨fb, hlt, hne, hfree⟩ := hg (by rw [hpair]; rfl) fa hfa
        have hno := List.find?_eq_none.mp hnone fb (List.mem_range.mpr hlt)
        have hsame : (install ⟨t, g.fds⟩ p fa a).fds (p, fb) = .free := by
          rw [← hfree]
          exact update_of_ne (fun heq => hne (Prod.mk.inj heq).2) _ _
        exact absurd hsame (by simpa using hno)
      · rename_i fb hfb
        exact install_ok h₁ hfb

theorem sysPipe_ok {mem' : Bool} (h : g.Ok) : (g.sysPipe p mem mem').2.Ok := by
  unfold sysPipe
  split
  · split
    · exact h
    · rename_i a t halloc
      exact lone_ok h halloc
  · rename_i r w t hpair
    obtain ⟨ht, hr, hw, hrlive, hwlive⟩ := Sockets.Ok.pair h hpair
    simp only
    have h₁ := ht.reflag (s := { t.socks r with shutWr := true }) rfl rfl rfl rfl hrlive
    have hback := Sockets.set_same (t := t) (i := r) (s := { t.socks r with shutWr := true }) UnixSock.backlog rfl
    have hlive := Sockets.set_same (t := t) (i := r) (s := { t.socks r with shutWr := true }) UnixSock.state rfl
    generalize t.set r { t.socks r with shutWr := true } = t₁ at h₁ hback hlive ⊢
    have h₂ := h₁.reflag (s := { t₁.socks w with shutRd := true }) rfl rfl rfl rfl (by rw [hlive]; exact hwlive)
    have hback' := Sockets.set_same (t := t₁) (i := w) (s := { t₁.socks w with shutRd := true }) UnixSock.backlog rfl
    generalize t₁.set w { t₁.socks w with shutRd := true } = t₂ at h₂ hback' ⊢
    have hr₂ : (t₂.socks r).backlog = [] := (hback' r).trans ((hback r).trans hr)
    have hw₂ : (t₂.socks w).backlog = [] := (hback' w).trans ((hback w).trans hw)
    split
    · exact closeBoth h₂ hr₂ hw₂
    · rename_i rfd hrfd
      have h₃ := install_ok h₂ hrfd
      split
      · have hheld : (install ⟨t₂, g.fds⟩ p rfd r).held (p, rfd) = some r := by
          rw [held, install]
          simp only [update_self]
          rfl
        have h₄ := closeFd_ok h₃ hheld fun _ e he => by
          rw [show ((install ⟨t₂, g.fds⟩ p rfd r).tbl.socks r).backlog = [] from hr₂] at he
          cases he
        refine h₄.close fun _ e he => ?_
        rw [show (((install ⟨t₂, g.fds⟩ p rfd r).closeFd p rfd r).tbl.socks w).backlog = [] from
          Sockets.socketClose_backlog hw₂] at he
        cases he
      · rename_i wfd hwfd
        exact install_ok h₃ hwfd

theorem doBind_ok {name : Path} {vfs : Option Int} (h : g.Ok) : (g.doBind p fd name vfs).2.Ok := by
  unfold doBind
  split
  · exact h
  · split
    · exact h
    · rename_i i _ hstate
      split
      · exact h
      · split
        · exact h
        · split
          · exact h
          · have hu := not_not.mp hstate
            exact h.name ⟨by rw [hu]; nofun, by rw [hu]; nofun, by rw [hu]; nofun⟩ rfl rfl rfl rfl

theorem doListen_ok (h : g.Ok) : (g.doListen p fd).2.Ok := by
  unfold doListen
  split
  · exact h
  · split
    · exact h
    · rename_i i _ hstate
      have hb := not_not.mp hstate
      refine h.restate g.tbl.bound nofun (by rw [hb]; nofun) rfl rfl rfl ?_ h.oneName
      intro j path x hj
      by_cases hx : x = i
      · rw [hx, Sockets.set_self]
        exact Or.inr rfl
      · rw [Sockets.set_ne _ _ hx]
        exact h.names j path x hj

theorem doConnect_ok {name : Path} (h : g.Ok) (hg : g.Proper (.connect p fd name mem)) :
    (g.doConnect p fd name mem).2.Ok := by
  unfold doConnect
  split
  · exact h
  · rename_i i hi
    split
    · exact h
    · rename_i hconn
      split
      · exact h
      · rename_i l hl
        split
        · exact h
        · rename_i hlisten
          split
          · exact h
          · rename_i hroom
            split
            · exact h
            · rename_i e t halloc
              have hls := not_not.mp hlisten
              obtain ⟨hnb, hnl⟩ := hg i l hi hl hls (Nat.not_le.mp hroom) (by rw [halloc]; rfl)
              obtain ⟨h₁, hfree, rfl⟩ := Sockets.Ok.alloc h halloc
              have hie : i ≠ e := by
                rintro rfl
                exact h.not_held hfree (p, fd) (held_some hi)
              have hle : l ≠ e := by
                rintro rfl
                rw [hls] at hfree
                cases hfree
              have hli : l ≠ i := by
                rintro rfl
                exact hnl hls
              have hit := Sockets.set_ne g.tbl UnixSock.fresh hie
              have hlt := Sockets.set_ne g.tbl UnixSock.fresh hle
              have het := Sockets.set_self g.tbl e UnixSock.fresh
              generalize g.tbl.set e UnixSock.fresh = t at h₁ hit hlt het ⊢
              have h₂ := h₁.link hie (by rw [hit]; exact ⟨hconn, hnb, hnl⟩) (by rw [het]; exact UnixSock.fresh_plain)
              have hel : (t.linkPair i e).socks e = { UnixSock.fresh with peer := some i, state := .connected } := by
                rw [Sockets.linkPair, Sockets.set_self, Sockets.set_ne _ _ (Ne.symm hie), het]
              have hll : (t.linkPair i e).socks l = g.tbl.socks l := by
                rw [Sockets.linkPair, Sockets.set_ne _ _ hle, Sockets.set_ne _ _ hli, hlt]
              exact h₂.push (by rw [hel]; rfl) (by rw [hel]) (by rw [hel]; rfl) (by rw [hll]; exact hls)

theorem doAccept_ok (h : g.Ok) : (g.doAccept p fd).2.Ok := by
  unfold doAccept
  split
  · exact h
  · split
    · exact h
    · rename_i i _ _
      split
      · exact h
      · rename_i c rest hback
        obtain ⟨hpop, hci, -⟩ := Sockets.Ok.pop h hback
        obtain ⟨-, -, hcback⟩ := h.waiting i c (hback ▸ List.mem_cons_self)
        split
        · refine hpop.close fun _ e he => ?_
          rw [Sockets.set_ne _ _ hci, hcback] at he
          cases he
        · rename_i new hnew
          exact install_ok hpop hnew

theorem doShutdown_ok {rd wr : Bool} (h : g.Ok) : (g.doShutdown p fd rd wr).2.Ok := by
  unfold doShutdown
  split
  · exact h
  · rename_i i hi
    have hlive : (g.tbl.socks i).state ≠ .free := fun hfree => h.not_held hfree (p, fd) (held_some hi)
    have h₁ := h.reflag (s := { g.tbl.socks i with
      shutRd := (g.tbl.socks i).shutRd || rd, shutWr := (g.tbl.socks i).shutWr || wr }) rfl rfl rfl rfl hlive
    simp only
    split
    · rename_i q hq
      refine h₁.reflag rfl rfl rfl rfl ?_
      rw [Sockets.set_same UnixSock.state (by rfl)]
      exact h.peer_live hq
    · exact h₁

theorem sysClose_ok (h : g.Ok) (hg : g.Proper (.close p fd)) : (g.sysClose p fd).2.Ok := by
  unfold sysClose
  split
  · rename_i hlt
    split
    · exact h
    · rename_i i hfd
      have hsock : g.fdSocket p fd = some i := by rw [fdSocket, if_pos hlt, hfd]
      exact closeFd_ok h (held_some hsock) (hg i hsock)
    · rename_i hfd
      exact other_ok h (by rw [held, hfd]; rfl) rfl
  · exact h

theorem sysDup_ok (h : g.Ok) : (g.sysDup p fd).2.Ok := by
  unfold sysDup
  split
  · split
    · exact h
    · exact h
    · rename_i i new hfd hnew
      have hheld : g.held (p, fd) = some i := by
        rw [held, hfd]
        rfl
      exact install_ok (h.ref hheld) hnew
    · rename_i new _ hnew
      exact other_ok h (held_none hnew) rfl
  · exact h

theorem openFile_ok (h : g.Ok) : (g.openFile p).2.Ok := by
  unfold openFile
  split
  · exact h
  · rename_i fd hfd
    exact other_ok h (held_none hfd) rfl

theorem call_ok (c : Call) (h : g.Ok) (hg : g.Proper c) : (g.call c).2.Ok := by
  unfold call
  cases c with
  | socket p mem => exact doSocket_ok h
  | socketpair p mem mem' => exact doSocketpair_ok h hg
  | pipe p mem mem' => exact sysPipe_ok h
  | bind p fd name vfs => exact doBind_ok h
  | listen p fd => exact doListen_ok h
  | connect p fd name mem => exact doConnect_ok h hg
  | accept p fd => exact doAccept_ok h
  | shutdown p fd rd wr => exact doShutdown_ok h
  | unlink name => exact h.unbindPath name
  | close p fd => exact sysClose_ok h hg
  | dup p fd => exact sysDup_ok h
  | openFile p => exact openFile_ok h

theorem Ok.consistent (h : g.Ok) : g.Consistent where
  peers := fun a b hab => ⟨h.peers a b hab, h.peer_live hab⟩
  backlogs := by
    intro s e he
    obtain ⟨hstate, hrefs, -⟩ := h.waiting s e he
    refine ⟨hstate, List.count_eq_one_of_mem (h.nodup s) he, fun s' he' => h.apart s' s e he' he, fun d hd => ?_⟩
    have hpos := h.tally.held_pos hd
    simp only [Sockets.waits_pos ⟨s, he⟩, hrefs] at hpos
    omega
  names := h.names
  descriptors := by
    intro d i hd
    have hwait : ¬ ∃ s, i ∈ (g.tbl.socks s).backlog := by
      rintro ⟨s, hs⟩
      have hpos := h.tally.held_pos hd
      simp only [Sockets.waits_pos ⟨s, hs⟩, (h.waiting s i hs).2.1] at hpos
      omega
    obtain ⟨K, hK, hcount⟩ := h.tally i
    rw [Sockets.waits_zero hwait] at hcount
    exact ⟨fun hfree => h.not_held hfree d hd, K, hK, hcount⟩

end Graph

/-! ## Runs -/

/-- In every run of calls that are proper, the graph is consistent. -/
theorem graph_consistent (calls : List Call) (hg : machine.Guarded Graph.Proper Graph.init calls) :
    (machine.run Graph.init calls).Consistent :=
  (machine.invariant_of_step (fun (g : Graph) c (h : g.Ok) hc => Graph.call_ok c h hc) calls
    Graph.init Graph.init_ok hg).consistent

/-- A server and a client: the client connects, the server accepts, and the
listening socket is closed. -/
def session : List Call :=
  [.socket 0 true, .bind 0 0 [47, 115] none, .listen 0 0, .socket 1 true, .connect 1 0 [47, 115] true, .accept 0 0,
    .close 0 0]

set_option maxRecDepth 20000

theorem session_proper : machine.Guarded Graph.Proper Graph.init session := by
  refine ⟨trivial, trivial, trivial, trivial, ?_, trivial, ?_, trivial⟩
  · intro i l hi _ _ _ _
    have hone : Graph.fdSocket (machine.run Graph.init (session.take 4)) 1 0 = some 1 := by decide
    obtain rfl := Option.some.inj (hone.symm.trans hi)
    exact ⟨by decide, by decide⟩
  · intro i hi _
    have hzero : Graph.fdSocket (machine.run Graph.init (session.take 6)) 0 0 = some 0 := by decide
    obtain rfl := Option.some.inj (hzero.symm.trans hi)
    decide

theorem graph_consistent_session :
    (machine.run Graph.init session).Consistent := graph_consistent session session_proper

/-- The listening socket is closed while the client waits: the client's peer
is a free socket. A bound socket connects: its name is that of a connected
socket. -/
theorem graph_inconsistent :
    ¬ (machine.run Graph.init
      [.socket 0 true, .bind 0 0 [47, 115] none, .listen 0 0, .socket 1 true, .connect 1 0 [47, 115] true,
        .close 0 0]).Consistent ∧
    ¬ (machine.run Graph.init
      [.socket 0 true, .bind 0 0 [47, 115] none, .listen 0 0, .socket 1 true, .bind 1 0 [47, 99] none,
        .connect 1 0 [47, 115] true]).Consistent := by
  constructor
  · intro h
    exact (h.peers 1 2 (by decide)).2 (by decide)
  · intro h
    exact absurd (h.names 1 [47, 99] 1 (by decide)) (by decide)

end NovarisOS.Socket.Unix
