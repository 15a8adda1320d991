/-
NovarisOS.Fd64.Exact — every reference is accounted for.

The counters of pipes and nodes say, after every call, how many descriptors,
messages on the way and waiting connections hold them (`references_exact`),
and so a pipe that nobody can write to reports its end.

It does not hold of every run.
-/
import NovarisOS.Fd64.References

namespace NovarisOS.Fd64.World

open Ramfs64 (Fs text)

/-! ## Sending -/

/-- The descriptors of one header that `sendmsg` comes to take a reference
for, and whether it gets to the end. -/
def wanted (w : World) (me : Nat) : List Int → List Target × Bool
  | [] => ([], true)
  | sfd :: rest =>
    match (if sfd < 0 then none else w.fds me sfd.toNat) with
    | none => ([], false)
    | some d => if d.socket.isSome then ([], false) else (d.toTarget :: (w.wanted me rest).1, (w.wanted me rest).2)

/-- The same for all headers. -/
def wantedAll (w : World) (me : Nat) : List (Option (List Int)) → List Target × Bool
  | [] => ([], true)
  | none :: rest => w.wantedAll me rest
  | some sent :: rest =>
    if 8 < sent.length then ([], false)
    else if (w.wanted me sent).2 then
      ((w.wanted me sent).1 ++ (w.wantedAll me rest).1, (w.wantedAll me rest).2)
    else ((w.wanted me sent).1, false)

theorem wanted_congr {w w' : World} (h : w'.fds = w.fds) (me : Nat) (sent : List Int) :
    w'.wanted me sent = w.wanted me sent := by
  induction sent with
  | nil => rfl
  | cons sfd rest ih => rw [wanted, wanted, h, ih]

theorem wantedAll_congr {w w' : World} (h : w'.fds = w.fds) (me : Nat) (control : List (Option (List Int))) :
    w'.wantedAll me control = w.wantedAll me control := by
  induction control with
  | nil => rfl
  | cons header rest ih =>
    cases header with
    | none => exact ih
    | some sent => rw [wantedAll, wantedAll, wanted_congr h, ih]

/-- The control data can be sent: there is room for it in `carried`, and it is
refused only before a reference is taken. -/
def Sendable (w : World) (me : Nat) (control : List (Option (List Int))) : Prop :=
  (w.wantedAll me control).1.length ≤ 8 ∧
    ((w.wantedAll me control).2 = true ∨ (w.wantedAll me control).1.flatMap Target.ends = [])

/-- The numbers `recvmsg` has for descriptors. -/
def freeFds (w : World) (me : Nat) : Nat :=
  (List.range' 3 (FD_MAX - 3)).countP fun fd => (w.fds me fd).isNone

/-- They themselves, the lowest first. -/
def freeList (w : World) (me : Nat) : List Nat :=
  (List.range' 3 (FD_MAX - 3)).filter fun fd => (w.fds me fd).isNone

/-- The batch that waits can be received: it has somewhere to go, or is given
back as what it is. -/
def Receivable (w : World) (me : Nat) (control : Option Nat) (batch : List Target) : Prop :=
  match control with
  | none => batch.flatMap Target.ends = []
  | some room =>
    if room < 16 + 4 * batch.length then ∀ t ∈ batch, t.pipeEnds = t.ends
    else ∀ t ∈ batch.drop (w.freeFds me), t.pipeEnds = t.ends

/-- What the loops over the control data have done: a reference is taken for
each of `ts`, and they are all there is unless the answer is an error. -/
structure Gathered (w : World) (hand : List Res) (got ts : List Target) (ok : Bool)
    (res : Except Int (List Target) × World) : Prop where
  books : Books res.2 (ts.flatMap Target.ends ++ hand)
  same : SameTables w res.2
  plain : ∀ t ∈ ts, t.Plain
  answer : if ok then res.1 = .ok (got ++ ts) else ∃ e, res.1 = .error e

namespace Books

variable {w w' : World} {hand : List Res} {me fd p : Nat}

theorem gather (me : Nat) : ∀ (sent : List Int) (got : List Target) (w : World) (hand : List Res), Books w hand →
    Gathered w hand got (w.wanted me sent).1 (w.wanted me sent).2 (World.gather me sent got w)
  | [], got, w, hand, h => ⟨h, SameTables.refl w, by simp [wanted], by simp [wanted, World.gather]⟩
  | sfd :: rest, got, w, hand, h => by
    unfold wanted World.gather
    generalize hx : (if sfd < 0 then none else w.fds me sfd.toNat) = x
    cases x with
    | none => exact ⟨h, SameTables.refl w, by simp, by simp⟩
    | some d =>
      have hd : w.fds me sfd.toNat = some d := by
        split at hx
        · cases hx
        · exact hx
      dsimp only
      by_cases hsock : d.socket.isSome = true
      · rw [if_pos hsock, if_pos hsock]
        exact ⟨h, SameTables.refl w, by simp, by simp⟩
      · rw [if_neg hsock, if_neg hsock]
        have hsame := SameTables.takeRef w d.toTarget
        have htaken := h.takeRef fun r hr => h.live_desc hd hr
        have hrest := gather me rest (got ++ [d.toTarget]) (w.takeRef d.toTarget) _ htaken
        rw [wanted_congr hsame.fds] at hrest
        refine ⟨hrest.books.recount ?_, hsame.trans hrest.same, ?_, ?_⟩
        · intro r
          simp only [List.flatMap_cons, List.count_append]
          omega
        · intro t ht
          rcases List.mem_cons.mp ht with rfl | ht
          · exact (h.order.slots me _ d hd).2.2
          · exact hrest.plain t ht
        · simpa using hrest.answer

theorem gatherAll (me : Nat) : ∀ (control : List (Option (List Int))) (got : List Target) (w : World)
    (hand : List Res), (got ++ (w.wantedAll me control).1).length ≤ 8 → Books w hand →
    Gathered w hand got (w.wantedAll me control).1 (w.wantedAll me control).2 (World.gatherAll me control got w)
  | [], got, w, hand, _, h => ⟨h, SameTables.refl w, by simp [wantedAll], by simp [wantedAll, World.gatherAll]⟩
  | none :: rest, got, w, hand, hlen, h => gatherAll me rest got w hand hlen h
  | some sent :: rest, got, w, hand, hlen, h => by
    have hone := gather me sent got w hand h
    unfold wantedAll at hlen
    unfold wantedAll World.gatherAll
    split
    · exact ⟨h, SameTables.refl w, by simp, by simp⟩
    · rename_i hfew
      rw [if_neg hfew] at hlen
      generalize World.gather me sent got w = res at hone ⊢
      obtain ⟨answer, w₁⟩ := res
      by_cases hok : (w.wanted me sent).2 = true
      · have hanswer := hone.answer
        rw [if_pos hok] at hanswer hlen
        subst hanswer
        rw [← List.append_assoc] at hlen
        have hroom : decide (8 < (got ++ (w.wanted me sent).1).length) = false := by
          rw [List.length_append] at hlen
          exact decide_eq_false (by omega)
        rw [if_pos hok]
        dsimp only
        rw [hroom, Bool.or_false]
        have hrest := gatherAll me rest (got ++ (w.wanted me sent).1) w₁ _ (by
          rw [wantedAll_congr hone.same.fds]
          exact hlen) hone.books
        rw [wantedAll_congr hone.same.fds] at hrest
        refine ⟨hrest.books.recount ?_, hone.same.trans hrest.same, ?_, ?_⟩
        · intro r
          simp only [List.flatMap_append, List.count_append]
          omega
        · intro t ht
          rcases List.mem_append.mp ht with ht | ht
          · exact hone.plain t ht
          · exact hrest.plain t ht
        · simpa using hrest.answer
      · have hanswer := hone.answer
        rw [if_neg hok] at hanswer
        obtain ⟨e, he⟩ := hanswer
        subst he
        rw [if_neg hok]
        exact ⟨hone.books, hone.same, hone.plain, by simp⟩

theorem sendBytes (p : Nat) : ∀ (iov : List (List UInt8)) (total : Nat) (w : World), Books w hand →
    Books (World.sendBytes p iov total w).2 hand
  | [], _, _, h => h
  | v :: rest, total, w, h => by
    unfold World.sendBytes
    split
    · exact sendBytes p rest total w h
    · have hwritten := h.write (p := p) (fun i => v.getD i 0) v.length
      dsimp only
      split
      · exact hwritten
      · split
        · exact hwritten
        · exact sendBytes p rest _ _ hwritten

theorem sysSendmsg (h : Books w hand) (me fd : Nat) (control : List (Option (List Int))) (iov : List (List UInt8))
    (hroom : ∀ d p, w.fds me fd = some d → d.isStream = true → d.tx = some p →
      (w.wantedAll me control).1.length ≤ 8) :
    ∃ lost, Books (w.sysSendmsg me fd control iov).2 (lost ++ hand) ∧
      ((∀ d p, w.fds me fd = some d → d.isStream = true → d.tx = some p → w.Sendable me control) → lost = []) := by
  unfold World.sysSendmsg
  split
  · exact ⟨[], h, fun _ => rfl⟩
  · rename_i d hd
    split
    · exact ⟨[], h, fun _ => rfl⟩
    · rename_i hstream
      split
      · exact ⟨[], h, fun _ => rfl⟩
      · rename_i p hp
        have hlen := hroom d p hd (by simpa using hstream) hp
        have hgot := gatherAll me control [] w hand (by simpa using hlen) h
        generalize World.gatherAll me control [] w = res at hgot ⊢
        obtain ⟨answer, w₁⟩ := res
        have hbooks : Books w₁ ((w.wantedAll me control).1.flatMap Target.ends ++ hand) := hgot.books
        have hanswer := hgot.answer
        split at hanswer
        · dsimp only at hanswer
          subst hanswer
          dsimp only
          rw [List.nil_append]
          refine ⟨[], ?_, fun _ => rfl⟩
          by_cases hnil : (w.wantedAll me control).1 = []
          · rw [if_pos hnil]
            rw [hnil] at hbooks
            exact sendBytes p iov 0 w₁ hbooks
          · rw [if_neg hnil]
            split
            · rename_i w₂ hrefused
              have hw₂ : w₂ = w₁ := by
                unfold pipe64SendFds at hrefused
                dsimp only at hrefused
                split at hrefused
                · cases hrefused
                  rfl
                · cases hrefused
              rw [hw₂]
              exact hbooks.unref
            · rename_i w₂ hqueued
              exact sendBytes p iov 0 w₂ (hbooks.sendFds hgot.plain hqueued)
        · rename_i hfail
          obtain ⟨e, he⟩ := hanswer
          subst he
          refine ⟨_, hbooks, ?_⟩
          intro hsend
          exact (hsend d p hd (by simpa using hstream) hp).2.resolve_left hfail

/-! ## Receiving -/

theorem recvBytes (p : Nat) : ∀ (iov : List Nat) (total : Nat) (w : World), Books w hand →
    Books (World.recvBytes p iov total w).2 hand ∧
      ((World.recvBytes p iov total w).2.pipes p).inflight = (w.pipes p).inflight
  | [], _, _, h => ⟨h, rfl⟩
  | n :: rest, total, w, h => by
    unfold World.recvBytes
    split
    · exact recvBytes p rest total w h
    · have hread := h.read (p := p) n
      have hin : ((w.setPipe p { w.pipes p with pipe := ((w.pipes p).pipe.read n).2 }).pipes p).inflight =
          (w.pipes p).inflight := by simp [World.setPipe]
      dsimp only
      split
      · exact ⟨hread, hin⟩
      · split
        · exact ⟨hread, hin⟩
        · obtain ⟨hbooks, hsame⟩ := recvBytes p rest _ _ hread
          exact ⟨hbooks, hsame.trans hin⟩

theorem fdAlloc_eq : w.fdAlloc me 3 = (w.freeList me).head? := List.head?_filter.symm

theorem freeFds_eq : w.freeFds me = (w.freeList me).length := List.countP_eq_length_filter

theorem freeList_congr (h : w'.fds = w.fds) : w'.freeList me = w.freeList me := by
  unfold freeList
  generalize List.range' 3 (FD_MAX - 3) = l
  rw [h]

/-- The number that is given is the first of the free ones. -/
theorem freeList_setFd {d : Desc} (halloc : w.fdAlloc me 3 = some fd) :
    w.freeList me = fd :: (w.setFd me fd (some d)).freeList me := by
  have hnd : (w.freeList me).Nodup := List.Nodup.filter _ List.nodup_range'
  have hlater : (w.setFd me fd (some d)).freeList me = (w.freeList me).filter (· ≠ fd) := by
    unfold freeList
    rw [List.filter_filter]
    refine List.filter_congr fun b _ => ?_
    by_cases hb : b = fd
    · subst hb
      simp
    · rw [setFd_other _ _ (by simp [hb])]
      simp [hb]
  rw [fdAlloc_eq] at halloc
  rw [hlater]
  cases hl : w.freeList me with
  | nil =>
    rw [hl] at halloc
    cases halloc
  | cons a rest =>
    rw [hl] at halloc hnd
    cases halloc
    rw [List.filter_cons_of_neg (by simp), List.filter_eq_self.mpr]
    intro b hb
    simpa using fun heq : b = fd => (List.nodup_cons.mp hnd).1 (heq ▸ hb)

theorem freeFds_setFd {d : Desc} (halloc : w.fdAlloc me 3 = some fd) :
    w.freeFds me = (w.setFd me fd (some d)).freeFds me + 1 := by
  rw [freeFds_eq, freeFds_eq, freeList_setFd (d := d) halloc, List.length_cons]

theorem freeFds_none (halloc : w.fdAlloc me 3 = none) : w.freeFds me = 0 := by
  rw [freeFds_eq, List.length_eq_zero_iff, ← List.head?_eq_none_iff, ← fdAlloc_eq]
  exact halloc

theorem freeFds_congr (h : w'.fds = w.fds) : w'.freeFds me = w.freeFds me := by
  rw [freeFds_eq, freeFds_eq, freeList_congr h]

/-- Every descriptor of a batch finds a number or is given back, as a pipe: of
those that are not, what they hold is lost. -/
theorem install (hme : me < PROC64_MAX) (cloexec : Bool) : ∀ (got : List Target) (w : World) (hand : List Res),
    w.procs me = .running → Books w (got.flatMap Target.ends ++ hand) → (∀ t ∈ got, t.Plain) →
    ∃ lost, Books (World.install me cloexec got w) (lost ++ hand) ∧
      ((∀ t ∈ got.drop (w.freeFds me), t.pipeEnds = t.ends) → lost = [])
  | [], _, _, _, h, _ => ⟨[], h, fun _ => rfl⟩
  | t :: rest, w, hand, hrun, h, hplain => by
    rw [List.flatMap_cons, List.append_assoc] at h
    have hplain' : ∀ t ∈ rest, t.Plain := fun t ht => hplain t (by simp [ht])
    unfold World.install
    split
    · rename_i halloc
      have hsame := SameTables.unref w t.pipeEnds
      have hzero := freeFds_none halloc
      have hfull : (w.unref t.pipeEnds).freeFds me = 0 := by rw [freeFds_congr hsame.fds, hzero]
      rw [hzero, List.drop_zero]
      by_cases hall : t.pipeEnds = t.ends
      · have hgiven : Books (w.unref t.pipeEnds) (rest.flatMap Target.ends ++ hand) := by
          rw [hall]
          exact h.unref
        obtain ⟨lost, hbooks, hnone⟩ := install hme cloexec rest _ _ (by rw [hsame.procs]; exact hrun) hgiven hplain'
        rw [hfull, List.drop_zero] at hnone
        exact ⟨lost, hbooks, fun hrest => hnone fun t ht => hrest t (by simp [ht])⟩
      · have hnil := (hplain t (by simp)).pipeEnds.resolve_left hall
        have hkept : Books (w.unref t.pipeEnds) (rest.flatMap Target.ends ++ (t.ends ++ hand)) := by
          rw [hnil]
          refine Books.unref (h.recount ?_)
          intro r
          simp only [List.nil_append, List.count_append]
          omega
        obtain ⟨lost, hbooks, _⟩ := install hme cloexec rest _ _ (by rw [hsame.procs]; exact hrun) hkept hplain'
        refine ⟨lost ++ t.ends, by rwa [List.append_assoc], ?_⟩
        intro hrest
        exact absurd (hrest t (by simp)) hall
    · rename_i nfd halloc
      obtain ⟨hlt, hfree⟩ := fdAlloc_spec halloc
      have hput := Books.put (d := ⟨t, none, 0, false, cloexec⟩) h hme hlt hfree (hplain t (by simp)) hrun
      rw [freeFds_setFd (d := ⟨t, none, 0, false, cloexec⟩) halloc, List.drop_succ_cons]
      exact install hme cloexec rest (w.setFd me nfd (some ⟨t, none, 0, false, cloexec⟩)) hand hrun hput hplain'

theorem givenAsPipes : ∀ (got : List Target) (hand : List Res) (w : World),
    Books w (got.flatMap Target.ends ++ hand) → (∀ t ∈ got, t.Plain) →
    ∃ lost, Books w (got.flatMap Target.pipeEnds ++ (lost ++ hand)) ∧
      ((∀ t ∈ got, t.pipeEnds = t.ends) → lost = [])
  | [], hand, _, h, _ => ⟨[], h, fun _ => rfl⟩
  | t :: rest, hand, w, h, hplain => by
    have hplain' : ∀ t ∈ rest, t.Plain := fun t ht => hplain t (by simp [ht])
    rw [List.flatMap_cons, List.append_assoc] at h
    have hmoved : Books w (rest.flatMap Target.ends ++ (t.ends ++ hand)) := by
      refine h.recount ?_
      intro r
      simp only [List.count_append]
      omega
    obtain ⟨lost, hbooks, hnone⟩ := givenAsPipes rest (t.ends ++ hand) w hmoved hplain'
    by_cases hall : t.pipeEnds = t.ends
    · refine ⟨lost, hbooks.recount ?_, fun hrest => hnone fun t ht => hrest t (by simp [ht])⟩
      intro r
      simp only [List.flatMap_cons, List.count_append, hall]
      omega
    · have hnil := (hplain t (by simp)).pipeEnds.resolve_left hall
      refine ⟨lost ++ t.ends, hbooks.recount ?_, fun hrest => absurd (hrest t (by simp)) hall⟩
      intro r
      simp only [List.flatMap_cons, List.count_append, hnil, List.count_nil]
      omega

theorem sysRecvmsg (h : Books w hand) (hme : me < PROC64_MAX) (hrun : w.procs me = .running) (fd : Nat)
    (control : Option Nat) (iov : List Nat) (cloexec : Bool) :
    ∃ lost, Books (w.sysRecvmsg me fd control iov cloexec).2 (lost ++ hand) ∧
      ((∀ d p batch, w.fds me fd = some d → d.isStream = true → d.rx = some p →
        (w.pipes p).inflight.head? = some batch → 0 ≤ (World.recvBytes p iov 0 w).1 →
        w.Receivable me control batch) → lost = []) := by
  unfold World.sysRecvmsg
  split
  · exact ⟨[], h, fun _ => rfl⟩
  · rename_i d hd
    split
    · exact ⟨[], h, fun _ => rfl⟩
    · rename_i hstream
      split
      · exact ⟨[], h, fun _ => rfl⟩
      · rename_i p hp
        obtain ⟨hbytes, hin⟩ := h.recvBytes p iov 0
        have hsame := SameTables.recvBytes p iov 0 w
        have hbatch : (∀ d p batch, w.fds me fd = some d → d.isStream = true → d.rx = some p →
            (w.pipes p).inflight.head? = some batch → 0 ≤ (World.recvBytes p iov 0 w).1 →
            w.Receivable me control batch) → ∀ batch, (w.pipes p).inflight.head? = some batch →
            0 ≤ (World.recvBytes p iov 0 w).1 → w.Receivable me control batch :=
          fun hrecv batch => hrecv d p batch hd (by simpa using hstream) hp
        generalize (∀ d p batch, w.fds me fd = some d → d.isStream = true → d.rx = some p →
            (w.pipes p).inflight.head? = some batch → 0 ≤ (World.recvBytes p iov 0 w).1 →
            w.Receivable me control batch) = rule at hbatch ⊢
        generalize World.recvBytes p iov 0 w = res at hbytes hin hsame hbatch ⊢
        obtain ⟨total, w₁⟩ := res
        dsimp only at hbytes hin hsame hbatch ⊢
        split
        · exact ⟨[], hbytes, fun _ => rfl⟩
        · rename_i htotal
          obtain ⟨htaken, hplain⟩ := hbytes.recvFds p
          have hsame₂ := hsame.trans (SameTables.pipe64RecvFds w₁ p)
          have hready : rule → (w₁.pipe64RecvFds p).1 = [] ∨ w.Receivable me control (w₁.pipe64RecvFds p).1 := by
            intro hrule
            unfold pipe64RecvFds
            dsimp only
            split
            · exact Or.inl rfl
            · rename_i batch rest heq
              split
              · exact Or.inl rfl
              · have hlen := (hbytes.order.batches p batch (by rw [heq]; simp)).1
                rw [List.take_of_length_le hlen]
                refine Or.inr (hbatch hrule batch ?_ (by omega))
                rw [← hin, heq]
                rfl
          generalize w₁.pipe64RecvFds p = res at htaken hplain hsame₂ hready ⊢
          obtain ⟨got, w₂⟩ := res
          by_cases hgot : got = []
          · subst hgot
            refine ⟨[], ?_, fun _ => rfl⟩
            cases control with
            | none => exact htaken
            | some room =>
              dsimp only
              rw [if_pos rfl]
              exact htaken
          · have hready := fun hrule => (hready hrule).resolve_left hgot
            unfold Receivable at hready
            cases control with
            | none => exact ⟨_, htaken, hready⟩
            | some room =>
              dsimp only at hready ⊢
              rw [if_neg hgot]
              split
              · rename_i hshort
                obtain ⟨lost, hbooks, hnone⟩ := givenAsPipes got hand w₂ htaken hplain
                refine ⟨lost, hbooks.unref, fun hrule => hnone ?_⟩
                have hall := hready hrule
                rwa [if_pos hshort] at hall
              · rename_i hshort
                obtain ⟨lost, hbooks, hnone⟩ := install hme cloexec got w₂ hand (by rw [hsame₂.procs]; exact hrun)
                  htaken hplain
                refine ⟨lost, hbooks, fun hrule => hnone ?_⟩
                have hall := hready hrule
                rw [if_neg hshort] at hall
                rw [freeFds_congr hsame₂.fds]
                exact hall

theorem count_dropped (c : Prop) [Decidable c] (x : Option Nat) (f : Nat → Res) (r : Res) :
    ((if (if c then x else none).isSome then none else x).toList.map f).count r +
      ((if c then x else none).toList.map f).count r = (x.toList.map f).count r := by
  by_cases hc : c <;> cases x <;> simp [hc]

theorem sysShutdown (h : Books w hand) (hrun : w.procs me = .running) (fd how : Nat) :
    Books (w.sysShutdown me fd how).2 hand := by
  unfold World.sysShutdown
  split
  · exact h
  · rename_i d hd
    split
    · exact h
    · rename_i hstream
      obtain ⟨hme, hfd, hplain⟩ := h.order.slots me fd d hd
      have hkind : d.kind ≠ .file := by
        intro hfile
        simp [Target.isStream, hfile] at hstream
      have hplain' : d.kind = .pipe ∨ d.kind = .socket := hplain.resolve_left fun hfile => hkind hfile.1
      have hends : ∀ rx tx, Target.ends { d.toTarget with rx := rx, tx := tx } =
          rx.toList.map .reader ++ tx.toList.map .writer := by
        intro rx tx
        unfold Target.ends
        cases hk : d.kind <;> simp_all
      dsimp only
      rw [unref_setFd]
      refine Books.unref (h.setFd hme hfd ?_ ?_)
      · rintro x hx
        cases hx
        exact ⟨Or.inr hplain', hrun⟩
      · intro r
        have hold : d.ends = d.rx.toList.map .reader ++ d.tx.toList.map .writer := hends d.rx d.tx
        rw [hd]
        unfold entry
        dsimp only
        rw [hold, hends]
        have hrx := count_dropped (how = 0 ∨ how = 2) d.rx .reader r
        have htx := count_dropped (how = 1 ∨ how = 2) d.tx .writer r
        simp only [List.count_append]
        omega

end Books

/-! ## The rule -/

/-- The states in which a call keeps count. -/
def Settled (w : World) (me : Nat) : Op → Prop
  | .connect fd path heap₁ heap₂ => ∀ s l d, w.sockOf me fd = .ok s → w.listenerAt path = .ok l →
      (w.sock64Connect s l heap₁ heap₂).2.1.isSome → w.fds me fd = some d → d.rx = none ∧ d.tx = none
  | .fork how => how = .noSpace → (∃ p, p < PROC64_MAX ∧ w.procs p = .free) →
      ∀ fd d, w.fds me fd = some d → d.ends = []
  | .sendmsg fd control _ => ∀ d p, w.fds me fd = some d → d.isStream = true → d.tx = some p → w.Sendable me control
  | .recvmsg fd control iov _ => ∀ d p batch, w.fds me fd = some d → d.isStream = true → d.rx = some p →
      (w.pipes p).inflight.head? = some batch → 0 ≤ (World.recvBytes p iov 0 w).1 → w.Receivable me control batch
  | _ => True

/-- `sendmsg` has room in its array for what it comes to carry. -/
def Roomy (w : World) (me : Nat) : Op → Prop
  | .sendmsg fd control _ => ∀ d p, w.fds me fd = some d → d.isStream = true → d.tx = some p →
      (w.wantedAll me control).1.length ≤ 8
  | _ => True

theorem Settled.roomy {w : World} {me : Nat} {op : Op} (h : w.Settled me op) : w.Roomy me op := by
  cases op with
  | sendmsg fd control iov => exact fun d p hd hs hp => (h d p hd hs hp).1
  | _ => trivial

/-- The counters say how many there are that hold each thing, in descriptors,
in messages and in queues, and no call has written past its array. -/
structure Exact (w : World) : Prop where
  readers : ∀ p, (w.pipes p).pipe.used = true →
    (w.pipes p).pipe.readers = w.inTables (.reader p) + w.inMessages (.reader p) + w.inQueues (.reader p)
  writers : ∀ p, (w.pipes p).pipe.used = true →
    (w.pipes p).pipe.writers = w.inTables (.writer p) + w.inMessages (.writer p) + w.inQueues (.writer p)
  openers : ∀ n, (w.fs.nodes n).used = true →
    (w.fs.nodes n).openers = w.inTables (.node n) + w.inMessages (.node n)
  /-- Nobody holds what is not there. -/
  absent : ∀ r, ¬ w.Live r → w.inTables r + w.inMessages r + w.inQueues r = 0
  /-- A pipe with no way left to write to it has an end. -/
  ended : ∀ p n, (w.pipes p).pipe.used = true → (w.pipes p).pipe.len = 0 →
    w.inTables (.writer p) + w.inMessages (.writer p) + w.inQueues (.writer p) = 0 →
    ((w.pipes p).pipe.read n).1 = (0, [])
  whole : w.smashed = false

theorem inQueues_node (w : World) (n : Nat) : w.inQueues (.node n) = 0 := by
  refine sumTo_eq_zero fun s _ => ?_
  rw [List.count_eq_zero]
  simp [Sock.carried]

namespace Books

variable {w : World} {hand : List Res} {me fd : Nat}

theorem sysRead (h : Books w hand) (me fd n : Nat) : Books (w.sysRead me fd n).2 hand := by
  unfold World.sysRead
  split
  · exact h
  · split
    · exact h
    · exact h.read n

theorem sysWrite (h : Books w hand) (me fd : Nat) (data : List UInt8) : Books (w.sysWrite me fd data).2 hand := by
  unfold World.sysWrite
  split
  · exact h
  · split
    · exact h
    · exact h.write _ _

theorem exact (h : Books w []) : w.Exact := by
  have hcount : ∀ r, w.value r = w.inTables r + w.inMessages r + w.inQueues r := fun r => h.count r
  have hreaders : ∀ p, (w.pipes p).pipe.used = true → w.value (.reader p) = (w.pipes p).pipe.readers :=
    fun p hu => if_pos hu
  have hwriters : ∀ p, (w.pipes p).pipe.used = true → w.value (.writer p) = (w.pipes p).pipe.writers :=
    fun p hu => if_pos hu
  refine ⟨?_, ?_, ?_, ?_, ?_, h.order.whole⟩
  · intro p hu
    rw [← hreaders p hu]
    exact hcount _
  · intro p hu
    rw [← hwriters p hu]
    exact hcount _
  · intro n hu
    have hn := hcount (.node n)
    rw [inQueues_node, Nat.add_zero] at hn
    rw [← hn]
    exact (if_pos hu).symm
  · intro r hr
    rw [← hcount]
    cases r with
    | reader p => exact if_neg hr
    | writer p => exact if_neg hr
    | node n => exact if_neg hr
  · intro p n hu hlen hnone
    have hzero : (w.pipes p).pipe.writers = 0 := by
      rw [← hwriters p hu, hcount]
      exact hnone
    simp [Pipe64.Pipe.read, hu, hlen, hzero]

/-- A call loses no more than the books say, and nothing in a settled
state. -/
theorem call (h : Books w hand) (hme : me < PROC64_MAX) (hrun : w.procs me = .running) (op : Op)
    (hroom : w.Roomy me op) :
    ∃ lost, Books (w.call me op).2 (lost ++ hand) ∧ (w.Settled me op → lost = []) := by
  obtain ⟨kids, free, hw⟩ := h.order.wired
  have hkeep : ∀ {w'}, Books w' hand → ∃ lost, Books w' (lost ++ hand) ∧ (w.Settled me op → lost = []) :=
    fun h' => ⟨[], h', fun _ => rfl⟩
  cases op with
  | «open» path flags mode => exact hkeep (h.sysOpen hme hrun path flags mode)
  | close fd => exact hkeep (h.sysClose me fd)
  | pipe2 nonblock cloexec heap => exact hkeep (h.sysPipe2 hme hrun nonblock cloexec heap)
  | socketpair nonblock cloexec heap₁ heap₂ => exact hkeep (h.sysSocketpair hme hrun nonblock cloexec heap₁ heap₂)
  | socket nonblock cloexec => exact hkeep (h.sysSocket hme hrun nonblock cloexec)
  | bind fd path => exact hkeep (h.sysBind me fd path)
  | listen fd backlog => exact hkeep (h.sysListen me fd backlog)
  | connect fd path heap₁ heap₂ => exact h.sysConnect hrun fd path heap₁ heap₂
  | accept4 fd nonblock cloexec => exact hkeep (h.sysAccept4 hme hrun fd nonblock cloexec)
  | dup fd => exact hkeep (h.sysDup hrun fd)
  | dupfd fd lowest cloexec => exact hkeep (h.sysDupfd hrun fd lowest cloexec)
  | dup2 old new three cloexec => exact hkeep (h.sysDup2 hrun old new three cloexec)
  | fork how => exact h.sysFork hrun how
  | exec => exact hkeep (h.sysExec me)
  | exit => exact hkeep (h.sysExit me)
  | reap child =>
    refine hkeep ?_
    show Books (if w.procs child = .exited then w.forget child else w) hand
    split
    · exact h.reap child ‹_›
    · exact h
  | sendmsg fd control iov => exact h.sysSendmsg me fd control iov hroom
  | recvmsg fd control iov cloexec => exact h.sysRecvmsg hme hrun fd control iov cloexec
  | shutdown fd how => exact hkeep (h.sysShutdown hrun fd how)
  | read fd n => exact hkeep (h.sysRead me fd n)
  | write fd data => exact hkeep (h.sysWrite me fd data)
  | unlink path => exact hkeep (h.stays (Ramfs64.stays_unlink hw path))
  | rename oldpath newpath => exact hkeep (h.stays (Ramfs64.stays_rename hw oldpath newpath))

theorem step (w : World) (c : Nat × Op) (h : Books w []) (hc : w.Settled c.1 c.2) : Books (calls.step w c).1 [] := by
  unfold calls
  dsimp only
  split
  · rename_i hok
    obtain ⟨lost, hbooks, hnone⟩ := h.call hok.2 hok.1 c.2 hc.roomy
    rwa [hnone hc] at hbooks
  · exact h

theorem step_roomy (w : World) (c : Nat × Op) (h : ∃ lost, Books w lost) (hc : w.Roomy c.1 c.2) :
    ∃ lost, Books (calls.step w c).1 lost := by
  obtain ⟨lost, h⟩ := h
  unfold calls
  dsimp only
  split
  · rename_i hok
    obtain ⟨more, hbooks, _⟩ := h.call hok.2 hok.1 c.2 hc
    exact ⟨more ++ lost, hbooks⟩
  · exact ⟨lost, h⟩

theorem live_takeRef {t : Target} {r : Res} (h : w.Live r) : (w.takeRef t).Live r := by
  unfold World.takeRef
  generalize t.ends = rs
  induction rs generalizing w with
  | nil => exact h
  | cons r' rest ih => exact ih (live_ref h)

theorem openStdOne {node : Option Nat} (h : Books w []) (hrun : w.procs 0 = .running) (hfd : fd < FD_MAX)
    (hfree : w.fds 0 fd = none) (hnode : ∀ n ∈ node, w.Live (.node n)) :
    Books (w.openStdOne 0 fd node) [] ∧ (w.openStdOne 0 fd node).procs = w.procs ∧
      (∀ b, b ≠ fd → (w.openStdOne 0 fd node).fds 0 b = w.fds 0 b) ∧
      ∀ n, w.Live (.node n) → (w.openStdOne 0 fd node).Live (.node n) := by
  cases node with
  | none => exact ⟨h, rfl, fun _ _ => rfl, fun _ hn => hn⟩
  | some n =>
    unfold World.openStdOne
    dsimp only
    rw [takeRef_setFd]
    have hsame := SameTables.takeRef w ⟨.file, some n, 0, none, none⟩
    have htaken : Books (w.takeRef ⟨.file, some n, 0, none, none⟩) ([.node n] ++ []) := by
      refine h.takeRef (t := ⟨.file, some n, 0, none, none⟩) fun r hr => ?_
      simp only [Target.ends, Option.toList_some, List.map_cons, List.map_nil, List.mem_singleton] at hr
      subst hr
      exact hnode n rfl
    have hzero : 0 < PROC64_MAX := by decide
    refine ⟨?_, hsame.procs, ?_, fun m hm => live_takeRef hm⟩
    · exact Books.put (d := ⟨⟨.file, some n, 0, none, none⟩, none, 0, false, false⟩) htaken hzero hfd
        (by rw [hsame.fds]; exact hfree) (Or.inl ⟨rfl, rfl, rfl⟩) (by rw [hsame.procs]; exact hrun)
    · intro b hb
      rw [setFd_other _ _ (by simp [hb]), hsame.fds]

theorem blank {fs : Fs} (hquiet : Ramfs64.Quiet fs) : Books (World.blank fs) [] := by
  refine ⟨?_, ⟨rfl, hquiet.1, fun _ _ => rfl, by simp [World.blank], by simp [World.blank], fun _ _ => rfl,
    by simp [World.blank], by simp [World.blank], fun _ _ _ => rfl⟩⟩
  intro r
  have hheld : held (World.blank fs) r = 0 := by
    have htables : inTables (World.blank fs) r = 0 := sumTo_eq_zero fun a _ => sumTo_eq_zero fun b _ => rfl
    have hmessages : inMessages (World.blank fs) r = 0 := sumTo_eq_zero fun a _ => rfl
    have hqueues : inQueues (World.blank fs) r = 0 := sumTo_eq_zero fun a _ => rfl
    unfold held
    omega
  rw [hheld]
  cases r with
  | reader p => rfl
  | writer p => rfl
  | node n =>
    unfold value
    dsimp only
    split
    · exact hquiet.2 n ‹_›
    · rfl

theorem boot {fs : Fs} (hquiet : Ramfs64.Quiet fs) : Books (World.boot fs) [] := by
  obtain ⟨kids, free, hw⟩ := hquiet.1
  have hlook : ∀ path n, n ∈ Ramfs64.ramfs64Lookup (World.blank fs).fs path → (World.blank fs).Live (.node n) :=
    fun path n hn => lookup_used hw hn
  have hzero : 0 < FD_MAX := by decide
  have hone : 1 < FD_MAX := by decide
  obtain ⟨h₀, hrun₀, hfds₀, hlive₀⟩ := (blank hquiet).openStdOne rfl hzero rfl (hlook (text "/dev/null"))
  obtain ⟨h₁, hrun₁, hfds₁, hlive₁⟩ := h₀.openStdOne (by rw [hrun₀]; rfl) hone
    (by rw [hfds₀ 1 (by decide)]; rfl) (fun n hn => hlive₀ n (hlook (text "/dev/console") n hn))
  exact (h₁.openStdOne (by rw [hrun₁, hrun₀]; rfl) (by decide)
    (by rw [hfds₁ 2 (by decide), hfds₀ 2 (by decide)]; rfl)
    (fun n hn => hlive₁ n (hlive₀ n (hlook (text "/dev/console") n hn)))).1

end Books

/-- **In every run from boot** whose calls are made in settled states, by any
processes in any order, the counters are exact. -/
theorem references_exact (env : Ramfs64.Env) (mem : Nat → Ramfs64.Node64) (cs : List (Nat × Op))
    (hcs : calls.Guarded (fun w c => w.Settled c.1 c.2) (World.boot (Ramfs64.ramfs64Init env mem)) cs) :
    (calls.run (World.boot (Ramfs64.ramfs64Init env mem)) cs).Exact :=
  (calls.invariant_of_step Books.step cs _ (Books.boot (Ramfs64.quiet_init env mem)) hcs).exact

/-- A descriptor goes to the other end of a pair and arrives there as another
number. -/
def passed : List (Nat × Op) :=
  [(0, .socketpair false false (some fun _ => 0) (some fun _ => 0)), (0, .sendmsg 3 [some [4]] [[65]]),
    (0, .recvmsg 4 (some 24) [1] false)]

/-- The tables after some calls on a fresh machine. -/
def after (cs : List (Nat × Op)) : World :=
  calls.run (World.boot (Ramfs64.ramfs64Init Ramfs64.roomy fun _ => Ramfs64.blankNode)) cs

set_option maxRecDepth 20000

theorem passed_exact : ((after passed).pipes 1).pipe.readers = 2 ∧ (after passed).Exact := by
  refine ⟨by with_unfolding_all decide, references_exact _ _ passed ?_⟩
  have hsend : ∀ w : World, (w.wantedAll 0 [some [4]]).1.length = 1 → (w.wantedAll 0 [some [4]]).2 = true →
      w.Settled 0 (.sendmsg 3 [some [4]] [[65]]) :=
    fun w hlen hok _ _ _ _ _ => ⟨by omega, Or.inl hok⟩
  have hrecv : ∀ w : World, w.fds 0 4 = some ⟨⟨.pipe, none, 0, some 1, some 0⟩, none, 0, false, false⟩ →
      (w.pipes 1).inflight.head? = some [⟨.pipe, none, 0, some 1, some 0⟩] →
      w.Settled 0 (.recvmsg 4 (some 24) [1] false) := by
    intro w hd hin d p batch hd' _ hp hbatch _
    rw [hd] at hd'
    cases hd'
    cases hp
    rw [hin] at hbatch
    cases hbatch
    intro t ht
    have hmem := List.mem_of_mem_drop ht
    rw [List.mem_singleton] at hmem
    rw [hmem]
    rfl
  exact ⟨trivial, hsend _ (by decide) (by decide), hrecv _ (by decide) (by decide),
    trivial⟩

theorem held_takeRef (w : World) (t : Target) (r : Res) : (w.takeRef t).held r = w.held r := by
  have hsame := SameTables.takeRef w t
  unfold held inTables inMessages inQueues
  rw [hsame.fds, hsame.socks]
  simp only [Channel.carried, Books.inflight_takeRef]

theorem sendmsg_refused {w : World} {p : Nat} {d s : Desc} (hrun : w.procs 0 = .running) (hd : w.fds 0 3 = some d)
    (hstream : d.isStream = true) (htx : d.tx = some p) (hs : w.fds 0 4 = some s) (hsock : s.socket = none)
    (hnone : w.fds 0 99 = none) : calls.run w [(0, .sendmsg 3 [some [4, 99]] [])] = w.takeRef s.toTarget := by
  have hnone' : (w.takeRef s.toTarget).fds 0 99 = none := by
    rw [(SameTables.takeRef w _).fds]
    exact hnone
  simp [Machine.run, calls, World.call, hrun, sysSendmsg, hd, hstream, htx, gatherAll, gather, hs, hsock, hnone']

theorem Exact.readers_takeRef {w : World} {t : Target} {p : Nat} (h : w.Exact) (h' : (w.takeRef t).Exact)
    (hu : (w.pipes p).pipe.used = true) :
    ((w.takeRef t).pipes p).pipe.readers = (w.pipes p).pipe.readers := by
  have hu' : ((w.takeRef t).pipes p).pipe.used = true := Books.live_takeRef (r := .reader p) hu
  have hheld := held_takeRef w t (.reader p)
  unfold held at hheld
  rw [h.readers p hu, h'.readers p hu', hheld]

/-- A good descriptor and then a bad one: `sendmsg` fails, and the reference
it took for the first stays. -/
theorem reference_lost :
    ¬ ∀ env mem cs, (calls.run (World.boot (Ramfs64.ramfs64Init env mem)) cs).Exact := by
  intro h
  have hpair : (after (passed.take 1)).Exact := h _ _ _
  have hlost : (after (passed.take 1 ++ [(0, .sendmsg 3 [some [4, 99]] [])])).Exact := h _ _ _
  have hsame := hpair.readers_takeRef hlost (p := 1) (by decide)
  exact absurd hsame (by decide)

end NovarisOS.Fd64.World
