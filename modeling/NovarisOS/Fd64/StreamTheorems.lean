/-
NovarisOS.Fd64.StreamTheorems — which `recvmsg` gets which descriptors.

Whatever the two ends of a connected socket do, the batches leave a pipe in
the order they joined it, each once, and a `recvmsg` that does not fail takes
the oldest (`batches_in_order`).
-/
import NovarisOS.Fd64.Stream

namespace NovarisOS.Fd64

open World

/-! ## What a history should be -/

/-- Every batch that has joined the queue has left it, in order, or is in it. -/
structure Log.InOrder (l : Log) (c : Channel) : Prop where
  batches : l.sent.map Sending.batch = l.got.map Receipt.batch ++ c.inflight
  bytes : l.put = l.taken + c.pipe.len

/-- What a `recvmsg` got with descriptors holds the first byte of the message
they were sent with, if that `sendmsg` has sent any. -/
def Log.Together (l : Log) : Prop :=
  ∀ (i : Nat) (k : Sending) (g : Receipt), l.sent[i]? = some k → l.got[i]? = some g → 0 < k.result →
    g.start ≤ k.start ∧ k.start < g.stop

/-- The two ends of a connected socket through which nothing has gone yet. -/
structure Connected (w : World) (a b : End) : Prop where
  first : a.Open w
  second : b.Open w
  there : a.tx = b.rx
  back : b.tx = a.rx
  apart : a.tx ≠ b.tx
  fresh : ∀ x, x = a.tx ∨ x = b.tx → (w.pipes x).pipe.len = 0 ∧ (w.pipes x).inflight = []

/-- What of the oldest batch is returned: all of it, if the control buffer has
room. -/
def Channel.delivers (c : Channel) : Option Nat → List Target
  | none => []
  | some room =>
    let batch := (c.inflight.headD []).take 8
    if room < 16 + 4 * batch.length then [] else batch

/-- The process has got the descriptors of the batch at its first free numbers,
as far as there are any, and no other entry of a table has changed. -/
structure World.Given (w w' : World) (me : Nat) (cloexec : Bool) (batch : List Target) : Prop where
  given : ∀ p ∈ (w.freeList me).zip batch, w'.fds me p.1 = some ⟨p.2, none, 0, false, cloexec⟩
  kept : ∀ a fd, ¬ (a = me ∧ fd ∈ (w.freeList me).take batch.length) → w'.fds a fd = w.fds a fd

/-- What each call does with descriptors. -/
def Line.Fair (s : Line) (e : End) : Talk → Prop
  | .sendmsg control iov =>
    (s.call e (.sendmsg control iov)).2 < 0 →
      (s.w.pipes e.tx).pipe.len + (iov.map List.length).sum ≤ Pipe64.PIPE64_BUF →
      ((s.call e (.sendmsg control iov)).1.w.pipes e.tx).inflight = (s.w.pipes e.tx).inflight ∧
        ((s.call e (.sendmsg control iov)).1.w.pipes e.tx).pipe.len = (s.w.pipes e.tx).pipe.len
  | .write data => ((s.call e (.write data)).1.w.pipes e.tx).inflight = (s.w.pipes e.tx).inflight
  | .read n => ((s.call e (.read n)).1.w.pipes e.rx).inflight = (s.w.pipes e.rx).inflight
  | .recvmsg control iov cloexec =>
    ((s.call e (.recvmsg control iov cloexec)).1.w.pipes e.rx).inflight =
      (if 0 ≤ (s.call e (.recvmsg control iov cloexec)).2 then (s.w.pipes e.rx).inflight.tail
      else (s.w.pipes e.rx).inflight) ∧
    s.w.Given (s.call e (.recvmsg control iov cloexec)).1.w e.me cloexec
      (if 0 ≤ (s.call e (.recvmsg control iov cloexec)).2 then (s.w.pipes e.rx).delivers control else [])

/-- One message at a time, and it is read whole: a message is sent when the one
before has been taken with what came with it, and a receive takes all there is
or nothing. -/
def Line.OneAtATime (s : Line) (e : End) : Talk → Prop
  | .sendmsg _ _ => (s.w.pipes e.tx).pipe.len = 0 ∧ (s.w.pipes e.tx).inflight = []
  | .write _ => (s.w.pipes e.tx).pipe.len = 0 ∧ (s.w.pipes e.tx).inflight = []
  | .read _ => (s.w.pipes e.rx).inflight = []
  | .recvmsg _ iov _ =>
    (recvBytes e.rx iov 0 s.w).1 = (s.w.pipes e.rx).pipe.len ∨
      (recvBytes e.rx iov 0 s.w).1 < 0 ∧
        ((recvBytes e.rx iov 0 s.w).2.pipes e.rx).pipe.len = (s.w.pipes e.rx).pipe.len

/-! ## One call -/

namespace Log

variable {w w' : World} {p x n : Nat} {r : Int} {l : List (List Target)} {g : Log}

theorem next_puts (h : Puts w w' p x r l) (hu : (w'.pipes x).pipe.used = true) :
    g.next (w.pipes x) (w'.pipes x) r =
      { g with
        put := g.put + ((w'.pipes x).pipe.len - (w.pipes x).pipe.len)
        sent := g.sent ++ l.map fun b => ⟨b, g.put, r⟩ } := by
  have hmore := h.more hu
  have hzero : (w.pipes x).pipe.len - (w'.pipes x).pipe.len = 0 := by omega
  unfold Log.next
  rw [h.inflight hu, hzero, List.drop_left]
  simp

theorem next_takes (h : Takes w w' p x r n) (hu : (w'.pipes x).pipe.used = true) :
    g.next (w.pipes x) (w'.pipes x) r =
      { g with
        taken := g.taken + ((w.pipes x).pipe.len - (w'.pipes x).pipe.len)
        got := g.got ++ ((w.pipes x).inflight.take n).map fun b => ⟨b, g.taken, g.taken + r.toNat⟩ } := by
  have hless := h.less hu
  have hzero : (w'.pipes x).pipe.len - (w.pipes x).pipe.len = 0 := by omega
  have htake : (w.pipes x).inflight.take ((w.pipes x).inflight.length - ((w.pipes x).inflight.length - n)) =
      (w.pipes x).inflight.take n := by
    by_cases hn : n ≤ (w.pipes x).inflight.length
    · congr 1
      omega
    · rw [List.take_of_length_le (by omega), List.take_of_length_le (by omega)]
  have hdrop : ((w.pipes x).inflight.drop n).drop (w.pipes x).inflight.length = [] :=
    List.drop_eq_nil_of_le (by rw [List.length_drop]; omega)
  unfold Log.next
  rw [h.inflight hu, hzero, hdrop, List.length_drop, htake]
  simp

theorem InOrder.puts (ho : g.InOrder (w.pipes x)) (h : Puts w w' p x r l) (hu : (w'.pipes x).pipe.used = true) :
    (g.next (w.pipes x) (w'.pipes x) r).InOrder (w'.pipes x) := by
  have hmore := h.more hu
  have hbytes := ho.bytes
  rw [next_puts h hu]
  refine ⟨?_, ?_⟩
  · dsimp only
    rw [List.map_append, ho.batches, h.inflight hu, List.append_assoc, List.map_map]
    congr 2
    exact List.map_id l
  · dsimp only
    omega

theorem InOrder.takes (ho : g.InOrder (w.pipes x)) (h : Takes w w' p x r n) (hu : (w'.pipes x).pipe.used = true) :
    (g.next (w.pipes x) (w'.pipes x) r).InOrder (w'.pipes x) := by
  have hless := h.less hu
  have hbytes := ho.bytes
  rw [next_takes h hu]
  refine ⟨?_, ?_⟩
  · dsimp only
    rw [ho.batches, h.inflight hu, List.map_append, List.append_assoc, List.map_map]
    congr 1
    have hid : ((w.pipes x).inflight.take n).map (Receipt.batch ∘ fun b => ⟨b, g.taken, g.taken + r.toNat⟩) =
        (w.pipes x).inflight.take n := List.map_id _
    rw [hid, List.take_append_drop]
  · dsimp only
    omega

theorem InOrder.lengths {c : Channel} (ho : g.InOrder c) : g.sent.length = g.got.length + c.inflight.length := by
  have h := congrArg List.length ho.batches
  simpa using h

/-- What one message at a time keeps: what came with the message that is on
its way begins where the reader is. -/
structure Paced (g : Log) (c : Channel) : Prop where
  together : g.Together
  one : c.inflight.length ≤ 1
  next : ∀ k : Sending, g.sent[g.got.length]? = some k → k.start = g.taken ∧ (0 < k.result → 0 < c.pipe.len)

theorem Paced.puts (hp : g.Paced (w.pipes x)) (ho : g.InOrder (w.pipes x)) (h : Puts w w' p x r l)
    (hu : (w'.pipes x).pipe.used = true)
    (hguard : x = p → (w.pipes x).pipe.len = 0 ∧ (w.pipes x).inflight = []) :
    (g.next (w.pipes x) (w'.pipes x) r).Paced (w'.pipes x) := by
  have hlengths := ho.lengths
  have hbytes := ho.bytes
  rw [next_puts h hu]
  by_cases hx : x = p
  · obtain ⟨hlen, hin⟩ := hguard hx
    rw [hin, List.length_nil] at hlengths
    -- Everything sent before has been taken, so the new batch is the next.
    have hold : ∀ (i : Nat) (k : Sending) (e : Receipt), (g.sent ++ l.map fun b => ⟨b, g.put, r⟩)[i]? = some k →
        g.got[i]? = some e → g.sent[i]? = some k := by
      intro i k e hk he
      have hi : i < g.got.length := (List.getElem?_eq_some_iff.mp he).1
      rwa [List.getElem?_append_left (by omega)] at hk
    refine ⟨fun i k e hk he => hp.together i k e (hold i k e hk he) he, ?_, ?_⟩
    · rw [h.inflight hu, hin, List.nil_append]
      exact h.one
    · intro k hk
      dsimp only at hk ⊢
      rw [List.getElem?_append_right (by omega), List.getElem?_map] at hk
      obtain ⟨b, _, rfl⟩ := Option.map_eq_some_iff.mp hk
      dsimp only
      refine ⟨by omega, ?_⟩
      intro hr
      have := h.count hu hx (by omega)
      omega
  · obtain ⟨rfl, hlen⟩ := h.other hu hx
    have hin := h.inflight hu
    rw [List.append_nil] at hin
    rw [List.map_nil, List.append_nil]
    refine ⟨hp.together, ?_, ?_⟩
    · rw [hin]
      exact hp.one
    · intro k hk
      rw [hlen]
      exact hp.next k hk

theorem Paced.takes (hp : g.Paced (w.pipes x)) (ho : g.InOrder (w.pipes x)) (h : Takes w w' p x r n)
    (hu : (w'.pipes x).pipe.used = true)
    (hguard : x = p → (n = 0 ∧ (w.pipes x).inflight = []) ∨ (n = 1 ∧ r = (w.pipes x).pipe.len) ∨
      (n = 0 ∧ (w'.pipes x).pipe.len = (w.pipes x).pipe.len)) :
    (g.next (w.pipes x) (w'.pipes x) r).Paced (w'.pipes x) := by
  have hlengths := ho.lengths
  have hone := hp.one
  rw [next_takes h hu]
  have hquiet : n = 0 → (w'.pipes x).pipe.len = (w.pipes x).pipe.len →
      Paced { g with
        taken := g.taken + ((w.pipes x).pipe.len - (w'.pipes x).pipe.len)
        got := g.got ++ ((w.pipes x).inflight.take n).map fun b => ⟨b, g.taken, g.taken + r.toNat⟩ } (w'.pipes x) := by
    rintro rfl hlen
    have hin := h.inflight hu
    rw [List.take_zero, List.map_nil, List.append_nil, hlen, Nat.sub_self, Nat.add_zero]
    refine ⟨hp.together, ?_, ?_⟩
    · rw [hin]
      exact hone
    · intro k hk
      rw [hlen]
      exact hp.next k hk
  by_cases hx : x = p
  · rcases hguard hx with ⟨rfl, hin⟩ | ⟨rfl, hr⟩ | ⟨hn, hlen⟩
    · -- No message with descriptors is on its way.
      rw [hin, List.length_nil] at hlengths
      have hin' := h.inflight hu
      rw [hin, List.drop_nil] at hin'
      rw [List.take_zero, List.map_nil, List.append_nil]
      refine ⟨hp.together, by rw [hin']; exact Nat.zero_le _, ?_⟩
      intro k hk
      have hnone : g.sent[g.got.length]? = none := List.getElem?_eq_none (by omega)
      rw [hnone] at hk
      cases hk
    · -- The whole message is taken, and what came with it.
      have hin' := h.inflight hu
      refine ⟨?_, ?_, ?_⟩
      · intro i k e hk he hpos
        by_cases hi : i < g.got.length
        · rw [List.getElem?_append_left hi] at he
          exact hp.together i k e hk he hpos
        · rw [List.getElem?_append_right (by omega), List.getElem?_map] at he
          obtain ⟨b, hb, rfl⟩ := Option.map_eq_some_iff.mp he
          have hi' : i = g.got.length := by
            have hlt := (List.getElem?_eq_some_iff.mp hb).1
            rw [List.length_take] at hlt
            omega
          subst hi'
          obtain ⟨hstart, hlen⟩ := hp.next k hk
          dsimp only
          omega
      · rw [hin', List.length_drop]
        omega
      · intro k hk
        have hnone : g.sent[(g.got ++ ((w.pipes x).inflight.take 1).map
            fun b => (⟨b, g.taken, g.taken + r.toNat⟩ : Receipt)).length]? = none := by
          refine List.getElem?_eq_none ?_
          rw [List.length_append, List.length_map, List.length_take]
          omega
        rw [hnone] at hk
        cases hk
    · exact hquiet hn hlen
  · obtain ⟨rfl, hlen⟩ := h.other hu hx
    exact hquiet rfl hlen

end Log

/-! ## Open ends stay open -/

/-- No process is lost, and no descriptor. -/
def Kept (w w' : World) : Prop :=
  w'.procs = w.procs ∧ ∀ me fd d, w.fds me fd = some d → w'.fds me fd = some d

namespace Kept

variable {w w' w₁ w₂ : World}

theorem of_same (h : SameTables w w') : Kept w w' := ⟨h.procs, fun _ _ _ hd => by rw [h.fds]; exact hd⟩

theorem refl (w : World) : Kept w w := ⟨rfl, fun _ _ _ hd => hd⟩

theorem trans (h : Kept w w₁) (h' : Kept w₁ w₂) : Kept w w₂ :=
  ⟨h'.1.trans h.1, fun me fd d hd => h'.2 me fd d (h.2 me fd d hd)⟩

theorem install (me : Nat) (cloexec : Bool) : ∀ (got : List Target) (w : World),
    Kept w (World.install me cloexec got w)
  | [], w => refl w
  | t :: rest, w => by
    unfold World.install
    split
    · exact (of_same (SameTables.unref w _)).trans (install me cloexec rest _)
    · rename_i nfd halloc
      have hset : Kept w (w.setFd me nfd (some ⟨t, none, 0, false, cloexec⟩)) := by
        refine ⟨rfl, ?_⟩
        intro a b d hd
        have hne : ¬ (a = me ∧ b = nfd) := by
          rintro ⟨rfl, rfl⟩
          rw [(Books.fdAlloc_spec halloc).2] at hd
          cases hd
        rw [setFd_other _ _ hne]
        exact hd
      exact hset.trans (install me cloexec rest _)

theorem recvmsg (w : World) (me fd : Nat) (control : Option Nat) (iov : List Nat) (cloexec : Bool) :
    Kept w (w.sysRecvmsg me fd control iov cloexec).2 := by
  unfold sysRecvmsg
  split
  · exact refl w
  · split
    · exact refl w
    · split
      · exact refl w
      · rename_i p _
        have hbytes := of_same (SameTables.recvBytes p iov 0 w)
        dsimp only
        split
        · exact hbytes
        · have htaken := hbytes.trans (of_same (SameTables.pipe64RecvFds _ p))
          split
          · exact htaken
          · split
            · exact htaken
            · split
              · exact htaken.trans (of_same (SameTables.unref _ _))
              · exact htaken.trans (install me cloexec _ _)

theorem call (w : World) (me fd : Nat) (t : Talk) : Kept w (w.call me (t.op fd)).2 := by
  cases t with
  | sendmsg control iov => exact of_same (sameTables_sendmsg w me fd control iov)
  | write data =>
    show Kept w (w.sysWrite me fd data).2
    unfold sysWrite
    split
    · exact refl w
    · split
      · exact refl w
      · exact of_same (SameTables.setPipe w _ _)
  | read n =>
    show Kept w (w.sysRead me fd n).2
    unfold sysRead
    split
    · exact refl w
    · split
      · exact refl w
      · exact of_same (SameTables.setPipe w _ _)
  | recvmsg control iov cloexec => exact recvmsg w me fd control iov cloexec

end Kept

namespace End.Open

variable {w w' : World} {e : End} {lost : List Res}

theorem kept (h : e.Open w) (hk : Kept w w') : e.Open w' := by
  obtain ⟨hrun, hme, d, hd, hrest⟩ := h
  exact ⟨by rw [hk.1]; exact hrun, hme, d, hk.2 _ _ _ hd, hrest⟩

theorem ends (h : e.Open w) : ∃ d, w.fds e.me e.fd = some d ∧ Res.reader e.rx ∈ d.ends ∧ Res.writer e.tx ∈ d.ends := by
  obtain ⟨_, _, d, hd, hstream, hrx, htx⟩ := h
  have hends : d.ends = [.reader e.rx, .writer e.tx] := by
    unfold Target.ends
    cases hk : d.kind with
    | file => simp [Target.isStream, hk] at hstream
    | _ => simp [hrx, htx]
  exact ⟨d, hd, by simp [hends], by simp [hends]⟩

theorem used (h : e.Open w) (hb : Books w lost) :
    (w.pipes e.rx).pipe.used = true ∧ (w.pipes e.tx).pipe.used = true := by
  obtain ⟨d, hd, hreader, hwriter⟩ := h.ends
  exact ⟨hb.live_desc hd hreader, hb.live_desc hd hwriter⟩

theorem readers (h : e.Open w) (hb : Books w lost) : (w.pipes e.rx).pipe.readers ≠ 0 := by
  obtain ⟨d, hd, hreader, _⟩ := h.ends
  obtain ⟨hme, hfd, _⟩ := hb.order.slots _ _ d hd
  have hu := (h.used hb).1
  have hcount := hb.count (.reader e.rx)
  rw [value, if_pos hu] at hcount
  have hpos : 0 < (entry (w.fds e.me e.fd)).count (.reader e.rx) := by
    rw [hd]
    exact List.count_pos_iff.mpr hreader
  have hrow := le_sumTo (fun b => (entry (w.fds e.me b)).count (.reader e.rx)) hfd
  have htable := le_sumTo (fun a => sumTo FD_MAX fun b => (entry (w.fds a b)).count (.reader e.rx)) hme
  unfold held inTables at hcount
  omega

end End.Open

/-! ## Runs -/

/-- What every call of one of two ends keeps. -/
structure Going (a b : End) (s : Line) : Prop where
  books : ∃ lost, Books s.w lost
  first : a.Open s.w
  second : b.Open s.w
  order : ∀ x, x = a.tx ∨ x = b.tx → (s.logs x).InOrder (s.w.pipes x)

theorem call_moves {s : Line} {e : End} (h : e.Open s.w) (t : Talk) (x : Nat) :
    (∃ l, Puts s.w (s.call e t).1.w e.tx x (s.call e t).2 l) ∨
      ∃ n, Takes s.w (s.call e t).1.w e.rx x (s.call e t).2 n := by
  cases t with
  | sendmsg control iov => exact Or.inl (sendmsg_puts h control iov x)
  | write data => exact Or.inl ⟨_, write_puts h data x⟩
  | read n => exact Or.inr ⟨_, read_takes h n x⟩
  | recvmsg control iov cloexec => exact Or.inr ⟨_, (recvmsg_takes h control iov cloexec x).1⟩

/-- A `sendmsg` that fails although there is room for its payload has queued
nothing. -/
theorem sendmsg_nothing {w : World} {e o : End} {lost : List Res} (h : e.Open w) (ho : o.Open w) (hpeer : o.rx = e.tx)
    (hb : Books w lost) (control : List (Option (List Int))) (iov : List (List UInt8))
    (hroom : ∀ d p, w.fds e.me e.fd = some d → d.isStream = true → d.tx = some p →
      (w.wantedAll e.me control).1.length ≤ 8)
    (hu : ((w.sysSendmsg e.me e.fd control iov).2.pipes e.tx).pipe.used = true)
    (hneg : (w.sysSendmsg e.me e.fd control iov).1 < 0)
    (hfits : (w.pipes e.tx).pipe.len + (iov.map List.length).sum ≤ Pipe64.PIPE64_BUF) :
    ((w.sysSendmsg e.me e.fd control iov).2.pipes e.tx).inflight = (w.pipes e.tx).inflight ∧
      ((w.sysSendmsg e.me e.fd control iov).2.pipes e.tx).pipe.len = (w.pipes e.tx).pipe.len := by
  obtain ⟨_, _, d, hd, hstream, _, htx⟩ := h
  have hcalm := Calm.gatherAll e.me e.tx control [] w
  have hgot := Books.gatherAll e.me control [] w lost (by simpa using hroom d e.tx hd hstream htx) hb
  simp only [sysSendmsg, hd, hstream, htx, Bool.not_true, Bool.false_eq_true, if_false] at hu hneg ⊢
  generalize gatherAll e.me control [] w = res at hcalm hgot hu hneg ⊢
  obtain ⟨answer, w₁⟩ := res
  have hsame := hgot.same
  have hbooks := hgot.books
  dsimp only at hcalm hsame hbooks hu hneg ⊢
  have ho₁ := ho.kept (Kept.of_same hsame)
  have hused₁ := (ho₁.used hbooks).1
  have hreaders₁ := ho₁.readers hbooks
  rw [hpeer] at hused₁ hreaders₁
  have hlen₁ := hcalm.len hused₁
  cases answer with
  | error c => exact ⟨hcalm.inflight hu, hlen₁⟩
  | ok got =>
    dsimp only at hu hneg ⊢
    split at hneg
    · have hok := sendBytes_room e.tx iov 0 w₁ hused₁ hreaders₁ (by omega)
      omega
    · rename_i hgot'
      rw [if_neg hgot'] at hu ⊢
      unfold pipe64SendFds at hu hneg ⊢
      by_cases hfull : (!(w₁.pipes e.tx).pipe.used || got.isEmpty || decide (8 < got.length) ||
          decide (PIPE64_INFLIGHT ≤ (w₁.pipes e.tx).inflight.length)) = true
      · rw [if_pos hfull] at hu ⊢
        have hback := hcalm.trans (Calm.unref w₁ (got.flatMap Target.ends) e.tx)
        exact ⟨hback.inflight hu, hback.len hu⟩
      · rw [if_neg hfull] at hneg
        have hself : ((w₁.setPipe e.tx { w₁.pipes e.tx with inflight := (w₁.pipes e.tx).inflight ++ [got] }).pipes
            e.tx) = { w₁.pipes e.tx with inflight := (w₁.pipes e.tx).inflight ++ [got] } := by simp [setPipe]
        have hok := sendBytes_room e.tx iov 0
          (w₁.setPipe e.tx { w₁.pipes e.tx with inflight := (w₁.pipes e.tx).inflight ++ [got] })
          (by rw [hself]; exact hused₁) (by rw [hself]; exact hreaders₁) (by rw [hself]; dsimp only; omega)
        exact absurd hok (not_le.mpr hneg)

namespace World.Given

variable {w w₁ w' : World} {me : Nat} {cloexec : Bool} {batch : List Target}

theorem of_same (h : w'.fds = w.fds) : w.Given w' me cloexec [] :=
  ⟨fun p hp => by simp at hp, fun _ _ _ => by rw [h]⟩

theorem congr (h : w₁.fds = w.fds) (hg : w₁.Given w' me cloexec batch) : w.Given w' me cloexec batch := by
  obtain ⟨hgiven, hkept⟩ := hg
  rw [Books.freeList_congr h] at hgiven hkept
  rw [h] at hkept
  exact ⟨hgiven, hkept⟩

theorem install : ∀ (batch : List Target) (w : World), w.Given (World.install me cloexec batch w) me cloexec batch
  | [], _ => of_same rfl
  | t :: rest, w => by
    unfold World.install
    split
    · rename_i halloc
      have hnone : w.freeList me = [] := by
        rw [Books.fdAlloc_eq] at halloc
        exact List.head?_eq_none_iff.mp halloc
      have hrest := (install rest (w.unref t.pipeEnds)).congr (SameTables.unref w _).fds
      refine ⟨fun p hp => by simp [hnone] at hp, fun a fd _ => hrest.kept a fd (by simp [hnone])⟩
    · rename_i nfd halloc
      have hrest := install rest (w.setFd me nfd (some ⟨t, none, 0, false, cloexec⟩))
      have hfree := Books.freeList_setFd (d := ⟨t, none, 0, false, cloexec⟩) halloc
      have hnd : (w.freeList me).Nodup := List.Nodup.filter _ List.nodup_range'
      rw [hfree, List.nodup_cons] at hnd
      refine ⟨fun p hp => ?_, fun a fd hnot => ?_⟩
      · rw [hfree, List.zip_cons_cons] at hp
        rcases List.mem_cons.mp hp with rfl | hp
        · rw [hrest.kept me nfd fun hin => hnd.1 (List.mem_of_mem_take hin.2), setFd_self]
        · exact hrest.given p hp
      · rw [hfree, List.length_cons, List.take_succ_cons, List.mem_cons] at hnot
        rw [hrest.kept a fd fun hin => hnot ⟨hin.1, Or.inr hin.2⟩,
            setFd_other _ _ fun hin => hnot ⟨hin.1, Or.inl hin.2⟩]

/-- What `recvmsg` does with the tables. -/
theorem recvmsg {e : End} (h : e.Open w) (hu : (w.pipes e.rx).pipe.used = true) (control : Option Nat)
    (iov : List Nat) : w.Given (w.sysRecvmsg e.me e.fd control iov cloexec).2 e.me cloexec
      (if 0 ≤ (w.sysRecvmsg e.me e.fd control iov cloexec).1 then (w.pipes e.rx).delivers control else []) := by
  obtain ⟨_, _, d, hd, hstream, hrx, _⟩ := h
  have hdrained := recvBytes_drained e.rx iov 0 w
  have hsame := SameTables.recvBytes e.rx iov 0 w
  simp only [sysRecvmsg, hd, hstream, hrx, Bool.not_true, Bool.false_eq_true, if_false]
  generalize recvBytes e.rx iov 0 w = res at hdrained hsame ⊢
  obtain ⟨total, w₁⟩ := res
  have hin := hdrained.inflight
  have hused := hdrained.used.trans hu
  split
  · rename_i hneg
    rw [if_neg (by omega)]
    exact of_same hsame.fds
  · rename_i hpos
    have htaken : (w₁.pipe64RecvFds e.rx).1 = ((w.pipes e.rx).inflight.headD []).take 8 := by
      unfold pipe64RecvFds
      dsimp only
      rw [← hin, hused]
      cases (w₁.pipes e.rx).inflight <;> rfl
    have hsame₂ := hsame.trans (SameTables.pipe64RecvFds w₁ e.rx)
    have hok : 0 ≤ total := by omega
    cases control with
    | none =>
      simp only [Channel.delivers, hok, if_true]
      exact of_same hsame₂.fds
    | some room =>
      simp only [Channel.delivers, htaken]
      generalize ((w.pipes e.rx).inflight.headD []).take 8 = batch
      by_cases hnil : batch = []
      · simp only [hnil, if_true, hok, ite_self]
        exact of_same hsame₂.fds
      · simp only [hnil, if_false]
        split
        · exact of_same (hsame₂.trans (SameTables.unref _ _)).fds
        · exact (install batch _).congr hsame₂.fds

end World.Given

namespace Going

variable {a b : End} {s : Line}

theorem ends (h : Going a b s) (first : Bool) : (if first then a else b).Open s.w := by
  cases first
  · exact h.second
  · exact h.first

theorem used (h : Going a b s) {x : Nat} (hx : x = a.tx ∨ x = b.tx) : (s.w.pipes x).pipe.used = true := by
  obtain ⟨lost, hb⟩ := h.books
  rcases hx with rfl | rfl
  · exact (h.first.used hb).2
  · exact (h.second.used hb).2

theorem step (s : Line) (c : Bool × Talk) (h : Going a b s)
    (hroom : s.w.Roomy (if c.1 then a else b).me (c.2.op (if c.1 then a else b).fd)) :
    Going a b ((talking a b).step s c).1 := by
  obtain ⟨lost, hb⟩ := h.books
  have hopen := h.ends c.1
  generalize hc : (if c.1 then a else b) = e at hroom hopen
  have hstep : ((talking a b).step s c) = s.call e c.2 := by simp [talking, hc]
  rw [hstep]
  have hkept : Kept s.w (s.call e c.2).1.w := Kept.call s.w e.me e.fd c.2
  obtain ⟨more, hbooks, _⟩ := hb.call hopen.2.1 hopen.1 (c.2.op e.fd) hroom
  have hfirst := h.first.kept hkept
  have hsecond := h.second.kept hkept
  refine ⟨⟨_, hbooks⟩, hfirst, hsecond, ?_⟩
  intro x hx
  have hu : ((s.call e c.2).1.w.pipes x).pipe.used = true := by
    rcases hx with rfl | rfl
    · exact (hfirst.used hbooks).2
    · exact (hsecond.used hbooks).2
  rcases call_moves hopen c.2 x with ⟨l, hputs⟩ | ⟨n, htakes⟩
  · exact (h.order x hx).puts hputs hu
  · exact (h.order x hx).takes htakes hu

theorem step_paced (s : Line) (c : Bool × Talk)
    (h : Going a b s ∧ ∀ x, x = a.tx ∨ x = b.tx → (s.logs x).Paced (s.w.pipes x))
    (hc : s.w.Roomy (if c.1 then a else b).me (c.2.op (if c.1 then a else b).fd) ∧
      s.OneAtATime (if c.1 then a else b) c.2) :
    Going a b ((talking a b).step s c).1 ∧
      ∀ x, x = a.tx ∨ x = b.tx →
        ((((talking a b).step s c).1.logs x).Paced (((talking a b).step s c).1.w.pipes x)) := by
  obtain ⟨hgoing, hpaced⟩ := h
  have hnext := step s c hgoing hc.1
  refine ⟨hnext, ?_⟩
  intro x hx
  have hu := hnext.used hx
  have hopen := hgoing.ends c.1
  have hone := hc.2
  have hstep : ((talking a b).step s c) = s.call (if c.1 then a else b) c.2 := rfl
  rw [hstep] at hu ⊢
  generalize (if c.1 then a else b) = e at hopen hone hu ⊢
  obtain ⟨flag, t⟩ := c
  cases t with
  | sendmsg control iov =>
    obtain ⟨l, hputs⟩ := sendmsg_puts hopen control iov x
    exact (hpaced x hx).puts (hgoing.order x hx) hputs hu (fun heq => heq ▸ hone)
  | write data =>
    exact (hpaced x hx).puts (hgoing.order x hx) (write_puts hopen data x) hu (fun heq => heq ▸ hone)
  | read n =>
    exact (hpaced x hx).takes (hgoing.order x hx) (read_takes hopen n x) hu (fun heq => Or.inl ⟨rfl, heq ▸ hone⟩)
  | recvmsg control iov cloexec =>
    obtain ⟨htakes, hresult, hfailed⟩ := recvmsg_takes hopen control iov cloexec x
    refine (hpaced x hx).takes (hgoing.order x hx) htakes hu ?_
    rintro rfl
    rcases hone with hall | ⟨hneg, hlen⟩
    · refine Or.inr (Or.inl ⟨if_pos ⟨rfl, ?_⟩, hresult.trans hall⟩)
      rw [hresult, hall]
      exact Int.natCast_nonneg _
    · refine Or.inr (Or.inr ⟨if_neg ?_, ?_⟩)
      · rw [hresult]
        omega
      · have hsame : ((s.w.sysRecvmsg e.me e.fd control iov cloexec).2.pipes e.rx).pipe.len =
            (s.w.pipes e.rx).pipe.len := by
          rw [hfailed hneg]
          exact hlen
        exact hsame

theorem fair (h : Going a b s) (first : Bool) (t : Talk)
    (hroom : s.w.Roomy (if first then a else b).me (t.op (if first then a else b).fd)) (hcross : a.tx = b.rx)
    (hback : b.tx = a.rx) : s.Fair (if first then a else b) t := by
  obtain ⟨lost, hb⟩ := h.books
  have hopen := h.ends first
  have hother := h.ends !first
  have hpeer : (if (!first) then a else b).rx = (if first then a else b).tx := by
    cases first
    · exact hback.symm
    · exact hcross.symm
  generalize (if first then a else b) = e at hroom hopen hpeer ⊢
  generalize (if (!first) then a else b) = o at hother hpeer
  have hkept : Kept s.w (s.call e t).1.w := Kept.call s.w e.me e.fd t
  obtain ⟨more, hbooks, _⟩ := hb.call hopen.2.1 hopen.1 (t.op e.fd) hroom
  obtain ⟨hrx, htx⟩ := (hopen.kept hkept).used hbooks
  cases t with
  | sendmsg control iov =>
    intro hneg hfits
    exact sendmsg_nothing hopen hother hpeer hb control iov (fun d p hd hs hp => hroom d p hd hs hp) htx hneg hfits
  | write data =>
    have hin := (write_puts hopen data e.tx).inflight htx
    rwa [List.append_nil] at hin
  | read n =>
    have hin := (read_takes hopen n e.rx).inflight hrx
    rwa [List.drop_zero] at hin
  | recvmsg control iov cloexec =>
    have hin := (recvmsg_takes hopen control iov cloexec e.rx).1.inflight hrx
    refine ⟨hin.trans ?_, .recvmsg hopen (hopen.used hb).1 control iov⟩
    by_cases hok : 0 ≤ (s.w.sysRecvmsg e.me e.fd control iov cloexec).1
    · rw [if_pos ⟨rfl, hok⟩, List.drop_one]
      exact (if_pos hok).symm
    · rw [if_neg fun hboth => hok hboth.2, List.drop_zero]
      exact (if_neg hok).symm

theorem start {w : World} (h : Connected w a b) (hb : ∃ lost, Books w lost) :
    Going a b ⟨w, fun _ => Log.empty⟩ ∧ ∀ x, x = a.tx ∨ x = b.tx → Log.empty.Paced (w.pipes x) := by
  refine ⟨⟨hb, h.first, h.second, ?_⟩, ?_⟩
  · intro x hx
    obtain ⟨hlen, hin⟩ := h.fresh x hx
    exact ⟨by rw [hin]; rfl, by rw [hlen]; rfl⟩
  · intro x hx
    obtain ⟨_, hin⟩ := h.fresh x hx
    exact ⟨fun _ _ _ hk => by simp [Log.empty] at hk, by rw [hin]; exact Nat.zero_le _, fun k hk => by
      simp [Log.empty] at hk⟩

end Going

/-- The state after the calls `ts` of two ends that were connected in `w`. -/
def Line.after (w : World) (a b : End) (ts : List (Bool × Talk)) : Line :=
  (talking a b).run ⟨w, fun _ => Log.empty⟩ ts

/-- Each `sendmsg` of the run has room in its array. -/
def Line.Roomy (w : World) (a b : End) (ts : List (Bool × Talk)) : Prop :=
  (talking a b).Guarded
    (fun s c => s.w.Roomy (if c.1 then a else b).me (c.2.op (if c.1 then a else b).fd)) ⟨w, fun _ => Log.empty⟩ ts

/-- One message at a time, all the way. -/
def Line.Paced (w : World) (a b : End) (ts : List (Bool × Talk)) : Prop :=
  (talking a b).Guarded (fun s c => s.OneAtATime (if c.1 then a else b) c.2) ⟨w, fun _ => Log.empty⟩ ts

/-- Two ends get connected in any run from boot, and then call in any order.
The batches come out of each pipe in the order they went in; the next call
takes one only if it is a `recvmsg` that does not fail, and that takes the
oldest; a `sendmsg` that fails although its payload fits queues nothing. If one
message was sent at a time and read whole, descriptors came with the first byte
of their message. -/
theorem batches_in_order (env : Ramfs64.Env) (mem : Nat → Ramfs64.Node64) (cs : List (Nat × Op))
    (hcs : calls.Guarded (fun w c => w.Roomy c.1 c.2) (World.boot (Ramfs64.ramfs64Init env mem)) cs) (a b : End)
    (hab : Connected (calls.run (World.boot (Ramfs64.ramfs64Init env mem)) cs) a b) (ts : List (Bool × Talk))
    (hts : Line.Roomy (calls.run (World.boot (Ramfs64.ramfs64Init env mem)) cs) a b ts) :
    (∀ x, x = a.tx ∨ x = b.tx →
      ((Line.after (calls.run (World.boot (Ramfs64.ramfs64Init env mem)) cs) a b ts).logs x).InOrder
        ((Line.after (calls.run (World.boot (Ramfs64.ramfs64Init env mem)) cs) a b ts).w.pipes x)) ∧
    (∀ (first : Bool) (t : Talk), (Line.after (calls.run (World.boot (Ramfs64.ramfs64Init env mem)) cs) a b ts).w.Roomy
        (if first then a else b).me (t.op (if first then a else b).fd) →
      (Line.after (calls.run (World.boot (Ramfs64.ramfs64Init env mem)) cs) a b ts).Fair (if first then a else b) t) ∧
    (Line.Paced (calls.run (World.boot (Ramfs64.ramfs64Init env mem)) cs) a b ts → ∀ x, x = a.tx ∨ x = b.tx →
      ((Line.after (calls.run (World.boot (Ramfs64.ramfs64Init env mem)) cs) a b ts).logs x).Together) := by
  have hbooks := calls.invariant_of_step Books.step_roomy cs _ ⟨[], Books.boot (Ramfs64.quiet_init env mem)⟩ hcs
  generalize calls.run (World.boot (Ramfs64.ramfs64Init env mem)) cs = w at hab hts hbooks ⊢
  obtain ⟨hgoing, hpaced⟩ := Going.start hab hbooks
  have hend := (talking a b).invariant_of_step Going.step ts _ hgoing hts
  refine ⟨hend.order, ?_, ?_⟩
  · intro first t hroom
    exact hend.fair first t hroom hab.there hab.back
  · intro hone x hx
    have hboth := (talking a b).guarded_and ts _ hts hone
    exact (((talking a b).invariant_of_step Going.step_paced ts _ ⟨hgoing, hpaced⟩ hboth).2 x hx).together

def pairing : List (Nat × Op) := [(0, .socketpair false false (some fun _ => 0) (some fun _ => 0))]

/-- A machine with a pair of connected sockets, descriptors 3 and 4. -/
def paired : World :=
  calls.run (World.boot (Ramfs64.ramfs64Init Ramfs64.roomy fun _ => Ramfs64.blankNode)) pairing

def third : End := ⟨0, 3, 0, 1⟩

def fourth : End := ⟨0, 4, 1, 0⟩

set_option maxRecDepth 20000

theorem connected_paired : Connected paired third fourth := by
  refine ⟨?_, ?_, rfl, rfl, by decide, ?_⟩
  · exact ⟨by decide, by decide, ⟨⟨.pipe, none, 0, some 0, some 1⟩, none, 0, false, false⟩,
      by decide, rfl, rfl, rfl⟩
  · exact ⟨by decide, by decide, ⟨⟨.pipe, none, 0, some 1, some 0⟩, none, 0, false, false⟩,
      by decide, rfl, rfl, rfl⟩
  · rintro x (rfl | rfl)
    · exact ⟨by decide, by decide⟩
    · exact ⟨by decide, by decide⟩

/-- Two messages with descriptors one way, and plain bytes back in between. -/
def exchange : List (Bool × Talk) :=
  [(true, .sendmsg [some [0]] [[65]]), (false, .recvmsg (some 24) [1] false), (false, .write [66, 67]),
    (true, .read 2), (true, .sendmsg [some [4]] [[68], [69]]), (false, .recvmsg (some 24) [4] true)]

theorem batches_in_order_exchange :
    ((Line.after paired third fourth exchange).logs 1).got.length = 2 ∧
      ((Line.after paired third fourth exchange).logs 1).Together := by
  have hsend : ∀ (s : Line) (sfd : Int) (iov : List (List UInt8)), (s.w.wantedAll 0 [some [sfd]]).1.length = 1 →
      s.w.Roomy third.me (Talk.op third.fd (.sendmsg [some [sfd]] iov)) :=
    fun s sfd iov hlen d p _ _ _ => Nat.le_trans (Nat.le_of_eq hlen) (by decide)
  have hroomy : Line.Roomy paired third fourth exchange :=
    ⟨hsend _ _ _ (by decide), trivial, trivial, trivial,
      hsend _ _ _ (by with_unfolding_all decide), trivial, trivial⟩
  have hpaced : Line.Paced paired third fourth exchange :=
    ⟨⟨by decide, by decide⟩, Or.inl (by decide), by constructor <;> with_unfolding_all decide,
      List.isEmpty_iff.mp (by with_unfolding_all decide), by constructor <;> with_unfolding_all decide,
      Or.inl (by with_unfolding_all decide), trivial⟩
  have hall := batches_in_order Ramfs64.roomy (fun _ => Ramfs64.blankNode) pairing ⟨trivial, trivial⟩ third fourth
    connected_paired exchange hroomy
  refine ⟨by with_unfolding_all decide, ?_⟩
  exact hall.2.2 hpaced 1 (Or.inl rfl)

/-- Two messages are sent before the first is read, and the descriptor of the
second comes with the first; and a receive without a control buffer drops it. -/
theorem descriptors_early :
    (¬ ∀ env mem cs a b ts, Connected (calls.run (World.boot (Ramfs64.ramfs64Init env mem)) cs) a b →
      ((Line.after (calls.run (World.boot (Ramfs64.ramfs64Init env mem)) cs) a b ts).logs a.tx).Together) ∧
    let s := Line.after paired third fourth [(true, .sendmsg [some [4]] [[65]]), (false, .recvmsg none [1] false)]
    (s.w.pipes 1).inflight = [] ∧ (s.w.fds 0 5).isNone := by
  refine ⟨fun h => ?_, by with_unfolding_all decide⟩
  have htogether := h Ramfs64.roomy (fun _ => Ramfs64.blankNode) pairing third fourth
    [(true, .sendmsg [] [[65]]), (true, .sendmsg [some [4]] [[66]]), (false, .recvmsg (some 24) [1] false)]
    connected_paired
  have hboth := htogether 0 ⟨[⟨.pipe, none, 0, some 1, some 0⟩], 1, 1⟩ ⟨[⟨.pipe, none, 0, some 1, some 0⟩], 0, 1⟩
    (by with_unfolding_all decide) (by with_unfolding_all decide) (by decide)
  exact absurd hboth.2 (by decide)

end NovarisOS.Fd64
