/-
NovarisOS.Fd64.Books — the counters of pipes and nodes against those who hold
them.

`value` is what a counter says. Its holders are in three places: the
descriptor tables (`inTables`), the messages on the way (`inMessages`) and the
connections nobody accepted yet (`inQueues`).
-/
import NovarisOS.Fd64.Sockets
import NovarisOS.Ramfs64.OpenNodes
import NovarisOS.Lib.Sums

namespace NovarisOS.Fd64

open Function (update_apply update_of_ne)
open Ramfs64 (Fs Wired ramfs64UnrefNode)

/-- A record of one of the kinds that hold something: a file, and then no
pipe, or ends of pipes. -/
def Target.Plain (t : Target) : Prop :=
  t.kind = .file ∧ t.rx = none ∧ t.tx = none ∨ t.kind = .pipe ∨ t.kind = .socket

theorem Target.Plain.given {d : Desc} (h : d.toTarget.Plain) : d.given = d.ends := by
  unfold Desc.given
  rcases h with ⟨h, _, _⟩ | h | h <;> rw [h]

theorem Target.Plain.pipeEnds {t : Target} (h : t.Plain) : t.pipeEnds = t.ends ∨ t.pipeEnds = [] := by
  unfold Target.pipeEnds Target.ends
  rcases h with ⟨_, hr, ht⟩ | h | h
  · right
    rw [hr, ht]
    rfl
  · left
    rw [h]
  · left
    rw [h]

/-- The references in a place of a descriptor table. -/
def entry : Option Desc → List Res
  | none => []
  | some d => d.ends

namespace World

/-- What the counter of something says. -/
def value (w : World) : Res → Nat
  | .reader p => if (w.pipes p).pipe.used then (w.pipes p).pipe.readers else 0
  | .writer p => if (w.pipes p).pipe.used then (w.pipes p).pipe.writers else 0
  | .node n => if (w.fs.nodes n).used then (w.fs.nodes n).openers else 0

/-- The descriptors that name it, in all processes. -/
def inTables (w : World) (r : Res) : Nat :=
  sumTo PROC64_MAX fun me => sumTo FD_MAX fun fd => (entry (w.fds me fd)).count r

/-- The descriptors on the way that name it. -/
def inMessages (w : World) (r : Res) : Nat := sumTo PIPE64_MAX fun p => (w.pipes p).carried.count r

/-- The connections that wait and hold it. -/
def inQueues (w : World) (r : Res) : Nat := sumTo SOCK64_MAX fun s => (w.socks s).carried.count r

def held (w : World) (r : Res) : Nat := w.inTables r + w.inMessages r + w.inQueues r

/-- There is such a thing. -/
def Live (w : World) : Res → Prop
  | .reader p => (w.pipes p).pipe.used = true
  | .writer p => (w.pipes p).pipe.used = true
  | .node n => (w.fs.nodes n).used = true

/-- The tables are in order: nothing waits where nothing is, every index is in
its table, and a process that is not there has nothing open. No call has
written past its array. -/
structure Order (w : World) : Prop where
  whole : w.smashed = false
  wired : ∃ kids free, Wired w.fs kids free
  idle : ∀ p, (w.pipes p).pipe.used = false → (w.pipes p).inflight = []
  pipes : ∀ p, (w.pipes p).pipe.used = true → p < PIPE64_MAX
  batches : ∀ p, ∀ b ∈ (w.pipes p).inflight, b.length ≤ 8 ∧ ∀ t ∈ b, t.Plain
  closed : ∀ s, (w.socks s).used = false → (w.socks s).queue = []
  sockets : ∀ s, (w.socks s).used = true → s < SOCK64_MAX
  slots : ∀ me fd d, w.fds me fd = some d → me < PROC64_MAX ∧ fd < FD_MAX ∧ d.toTarget.Plain
  gone : ∀ me, w.procs me ≠ .running → ∀ fd, w.fds me fd = none

/-- The counters agree with the holders and with `hand`. -/
structure Books (w : World) (hand : List Res) : Prop where
  count : ∀ r, w.value r = w.held r + hand.count r
  order : w.Order

/-! ## How the totals move -/

theorem inTables_setFd (w : World) {me fd : Nat} (d : Option Desc) (hme : me < PROC64_MAX) (hfd : fd < FD_MAX)
    (r : Res) :
    (w.setFd me fd d).inTables r + (entry (w.fds me fd)).count r = w.inTables r + (entry d).count r := by
  have hrow : sumTo FD_MAX (fun b => (entry ((w.setFd me fd d).fds me b)).count r) + (entry (w.fds me fd)).count r =
      sumTo FD_MAX (fun b => (entry (w.fds me b)).count r) + (entry d).count r := by
    have h := sumTo_change (f := fun b => (entry (w.fds me b)).count r)
      (g := fun b => (entry ((w.setFd me fd d).fds me b)).count r) hfd
      (fun b hb => by simp [setFd, update_of_ne hb])
    simpa [setFd] using h
  have htable := sumTo_change (f := fun a => sumTo FD_MAX fun b => (entry (w.fds a b)).count r)
    (g := fun a => sumTo FD_MAX fun b => (entry ((w.setFd me fd d).fds a b)).count r) hme
    (fun a ha => by simp [setFd, update_of_ne ha])
  unfold inTables
  omega

theorem inMessages_setPipe (w : World) {p : Nat} (c : Channel) (hp : p < PIPE64_MAX) (r : Res) :
    (w.setPipe p c).inMessages r + (w.pipes p).carried.count r = w.inMessages r + c.carried.count r := by
  have h := sumTo_change (f := fun q => (w.pipes q).carried.count r)
    (g := fun q => ((w.setPipe p c).pipes q).carried.count r) hp
    (fun q hq => by simp [setPipe, update_of_ne hq])
  simpa [setPipe, inMessages] using h

theorem inQueues_setSock (w : World) {s : Nat} (x : Sock) (hs : s < SOCK64_MAX) (r : Res) :
    (w.setSock s x).inQueues r + (w.socks s).carried.count r = w.inQueues r + x.carried.count r := by
  have h := sumTo_change (f := fun t => (w.socks t).carried.count r)
    (g := fun t => ((w.setSock s x).socks t).carried.count r) hs
    (fun t ht => by simp [setSock, update_of_ne ht])
  simpa [setSock, inQueues] using h

theorem pending_eq (w : World) : w.pending = sumTo PIPE64_MAX fun p => (w.pipes p).carried.length := by
  unfold pending
  generalize PIPE64_MAX = n
  exact foldl_eq_sumTo n fun p => (w.pipes p).carried.length

theorem pending_setPipe (w : World) {p : Nat} (c : Channel) (hp : p < PIPE64_MAX) :
    (w.setPipe p c).pending + (w.pipes p).carried.length = w.pending + c.carried.length := by
  have h := sumTo_change (f := fun q => (w.pipes q).carried.length)
    (g := fun q => ((w.setPipe p c).pipes q).carried.length) hp
    (fun q hq => by simp [setPipe, update_of_ne hq])
  rw [pending_eq, pending_eq]
  simpa [setPipe] using h

/-! ## One assignment -/

namespace Books

variable {w : World} {hand hand' : List Res} {p s me fd : Nat}

theorem recount (h : Books w hand) (heq : ∀ r, hand'.count r = hand.count r) : Books w hand' :=
  ⟨fun r => by rw [heq, h.count r], h.order⟩

theorem live (h : Books w hand) {r : Res} (hr : 0 < w.held r + hand.count r) : w.Live r := by
  have hv : w.value r ≠ 0 := by
    rw [h.count r]
    omega
  cases r with
  | reader p =>
    by_contra hu
    exact hv (if_neg hu)
  | writer p =>
    by_contra hu
    exact hv (if_neg hu)
  | node n =>
    by_contra hu
    exact hv (if_neg hu)

theorem setPipe {c : Channel} (h : Books w hand) (hp : p < PIPE64_MAX)
    (hidle : c.pipe.used = false → c.inflight = []) (hbatches : ∀ b ∈ c.inflight, b.length ≤ 8 ∧ ∀ t ∈ b, t.Plain)
    (hmove : ∀ r, (w.setPipe p c).value r + (w.pipes p).carried.count r + hand.count r =
      w.value r + c.carried.count r + hand'.count r) : Books (w.setPipe p c) hand' := by
  have hget : ∀ q, (w.setPipe p c).pipes q = if q = p then c else w.pipes q := fun q => by
    simp [World.setPipe, update_apply]
  refine ⟨?_, ?_⟩
  · intro r
    have h₁ := hmove r
    have h₂ := w.inMessages_setPipe c hp r
    have h₃ := h.count r
    have htables : (w.setPipe p c).inTables r = w.inTables r := rfl
    have hqueues : (w.setPipe p c).inQueues r = w.inQueues r := rfl
    unfold held at h₃ ⊢
    omega
  · refine ⟨h.order.whole, h.order.wired, ?_, ?_, ?_, h.order.closed, h.order.sockets, h.order.slots, h.order.gone⟩
    · intro q
      rw [hget]
      split
      · exact hidle
      · exact h.order.idle q
    · intro q
      rw [hget]
      split
      · exact fun _ => ‹q = p› ▸ hp
      · exact h.order.pipes q
    · intro q
      rw [hget]
      split
      · exact hbatches
      · exact h.order.batches q

theorem setSock {x : Sock} (h : Books w hand) (hs : s < SOCK64_MAX) (hclosed : x.used = false → x.queue = [])
    (hmove : ∀ r, (w.socks s).carried.count r + hand.count r = x.carried.count r + hand'.count r) :
    Books (w.setSock s x) hand' := by
  have hget : ∀ t, (w.setSock s x).socks t = if t = s then x else w.socks t := fun t => by
    simp [World.setSock, update_apply]
  refine ⟨?_, ?_⟩
  · intro r
    have h₁ := hmove r
    have h₂ := w.inQueues_setSock x hs r
    have h₃ := h.count r
    have htables : (w.setSock s x).inTables r = w.inTables r := rfl
    have hmessages : (w.setSock s x).inMessages r = w.inMessages r := rfl
    have hvalue : (w.setSock s x).value r = w.value r := by cases r <;> rfl
    unfold held at h₃ ⊢
    omega
  · refine ⟨h.order.whole, h.order.wired, h.order.idle, h.order.pipes, h.order.batches, ?_, ?_,
        h.order.slots, h.order.gone⟩
    · intro t
      rw [hget]
      split
      · exact hclosed
      · exact h.order.closed t
    · intro t
      rw [hget]
      split
      · exact fun _ => ‹t = s› ▸ hs
      · exact h.order.sockets t

theorem setFd {d : Option Desc} (h : Books w hand) (hme : me < PROC64_MAX) (hfd : fd < FD_MAX)
    (hplain : ∀ x, d = some x → x.toTarget.Plain ∧ w.procs me = .running)
    (hmove : ∀ r, (entry (w.fds me fd)).count r + hand.count r = (entry d).count r + hand'.count r) :
    Books (w.setFd me fd d) hand' := by
  refine ⟨?_, ?_⟩
  · intro r
    have h₁ := hmove r
    have h₂ := w.inTables_setFd d hme hfd r
    have h₃ := h.count r
    have hqueues : (w.setFd me fd d).inQueues r = w.inQueues r := rfl
    have hmessages : (w.setFd me fd d).inMessages r = w.inMessages r := rfl
    have hvalue : (w.setFd me fd d).value r = w.value r := by cases r <;> rfl
    unfold held at h₃ ⊢
    omega
  · refine ⟨h.order.whole, h.order.wired, h.order.idle, h.order.pipes, h.order.batches,
        h.order.closed, h.order.sockets, ?_, ?_⟩
    · intro a b x hx
      by_cases hab : a = me ∧ b = fd
      · obtain ⟨rfl, rfl⟩ := hab
        rw [setFd_self] at hx
        exact ⟨hme, hfd, (hplain x hx).1⟩
      · rw [setFd_other _ _ hab] at hx
        exact h.order.slots a b x hx
    · intro a ha b
      by_cases hab : a = me ∧ b = fd
      · obtain ⟨rfl, rfl⟩ := hab
        rw [setFd_self]
        cases d with
        | none => rfl
        | some x => exact absurd (hplain x rfl).2 ha
      · rw [setFd_other _ _ hab]
        exact h.order.gone a ha b

theorem setFs {fs : Fs} (h : Books w hand) (hwired : ∃ kids free, Wired fs kids free)
    (hmove : ∀ r, value { w with fs := fs } r + hand.count r = w.value r + hand'.count r) :
    Books { w with fs := fs } hand' := by
  refine ⟨?_, ⟨h.order.whole, hwired, h.order.idle, h.order.pipes, h.order.batches, h.order.closed,
      h.order.sockets, h.order.slots,
    h.order.gone⟩⟩
  intro r
  have h₁ := hmove r
  have h₂ := h.count r
  have hheld : held { w with fs := fs } r = w.held r := rfl
  omega

end Books

/-! ## Taking and giving back -/

theorem value_setPipe_reader (w : World) (p q : Nat) (c : Channel) :
    (w.setPipe p c).value (.reader q) =
      if q = p then (if c.pipe.used then c.pipe.readers else 0) else w.value (.reader q) := by
  by_cases hq : q = p
  · subst hq
    simp [value, setPipe]
  · simp [value, setPipe, hq]

theorem value_setPipe_writer (w : World) (p q : Nat) (c : Channel) :
    (w.setPipe p c).value (.writer q) =
      if q = p then (if c.pipe.used then c.pipe.writers else 0) else w.value (.writer q) := by
  by_cases hq : q = p
  · subst hq
    simp [value, setPipe]
  · simp [value, setPipe, hq]

theorem value_setPipe_node (w : World) (p n : Nat) (c : Channel) :
    (w.setPipe p c).value (.node n) = w.value (.node n) := rfl

section Nodes

open Ramfs64 (Session valid)

/-- The file system beside what its counters say. -/
def session (w : World) : Session := ⟨w.fs, fun n => w.value (.node n), fun n => some (w.fs.nodes n).object⟩

theorem Order.session_held {w : World} (h : w.Order) : w.session.Held := by
  refine ⟨h.wired, ?_, ?_, fun _ _ => rfl⟩
  · intro n hu
    exact (if_pos hu).symm
  · intro n hu
    exact if_neg (by simp only [session] at hu; simp [hu])

theorem value_of_held {w : World} {s : Session} (h : s.Held) (hfs : w.fs = s.fs) (n : Nat) :
    w.value (.node n) = s.outstanding n := by
  unfold value
  rw [hfs]
  dsimp only
  split
  · exact h.counted n ‹_›
  · exact (h.unused n (by simp_all)).symm

end Nodes

namespace Books

variable {w : World} {hand hand' : List Res} {r : Res}

theorem setCounts {c : Channel} {p : Nat} (h : Books w hand) (hu : (w.pipes p).pipe.used = true)
    (hu' : c.pipe.used = true) (hin : c.inflight = (w.pipes p).inflight)
    (hreaders : c.pipe.readers + hand.count (.reader p) = (w.pipes p).pipe.readers + hand'.count (.reader p))
    (hwriters : c.pipe.writers + hand.count (.writer p) = (w.pipes p).pipe.writers + hand'.count (.writer p))
    (hother : ∀ r, r ≠ .reader p → r ≠ .writer p → hand'.count r = hand.count r) :
    Books (w.setPipe p c) hand' := by
  refine h.setPipe (h.order.pipes p hu) ?_ ?_ ?_
  · intro hnot
    rw [hu'] at hnot
    cases hnot
  · rw [hin]
    exact h.order.batches p
  · intro r
    have hcarried : c.carried = (w.pipes p).carried := by rw [Channel.carried, hin]; rfl
    rw [hcarried]
    cases r with
    | reader q =>
      by_cases hq : q = p
      · subst hq
        rw [value_setPipe_reader, if_pos rfl, if_pos hu', value, if_pos hu]
        omega
      · rw [value_setPipe_reader, if_neg hq, hother _ (by simpa using hq) (by simp)]
    | writer q =>
      by_cases hq : q = p
      · subst hq
        rw [value_setPipe_writer, if_pos rfl, if_pos hu', value, if_pos hu]
        omega
      · rw [value_setPipe_writer, if_neg hq, hother _ (by simp) (by simpa using hq)]
    | node n => rw [value_setPipe_node, hother _ (by simp) (by simp)]

theorem setNodes {fs : Fs} {s : Ramfs64.Session} {n : Nat} (h : Books w hand) (hs : s.Held) (hfs : s.fs = fs)
    (hself : s.outstanding n + hand.count (.node n) = w.value (.node n) + hand'.count (.node n))
    (hother : ∀ m, m ≠ n → s.outstanding m = w.value (.node m))
    (hhand : ∀ r, r ≠ .node n → hand'.count r = hand.count r) : Books { w with fs := fs } hand' := by
  subst hfs
  refine h.setFs hs.wired ?_
  intro r
  cases r with
  | reader q => rw [hhand _ (by simp)]; rfl
  | writer q => rw [hhand _ (by simp)]; rfl
  | node m =>
    rw [value_of_held hs rfl m]
    by_cases hm : m = n
    · subst hm
      exact hself
    · rw [hother m hm, hhand _ (by simpa using hm)]

theorem valid (h : Books w hand) {n : Nat} (hu : (w.fs.nodes n).used = true) : Ramfs64.valid w.fs n = true := by
  obtain ⟨kids, free, hw⟩ := h.order.wired
  rw [Ramfs64.valid_natCast, hu, decide_eq_true (hw.bound n hu)]
  rfl

theorem ref (h : Books w hand) (hlive : w.Live r) : Books (w.ref r) (r :: hand) := by
  cases r with
  | reader p =>
    have hu : (w.pipes p).pipe.used = true := hlive
    refine h.setCounts hu ?_ rfl ?_ ?_ ?_
    · simp [Pipe64.Pipe.ref, hu]
    · simp [Pipe64.Pipe.ref, hu]
      omega
    · simp [Pipe64.Pipe.ref, hu]
    · intro r hr _
      exact List.count_cons_of_ne hr.symm
  | writer p =>
    have hu : (w.pipes p).pipe.used = true := hlive
    refine h.setCounts hu ?_ rfl ?_ ?_ ?_
    · simp [Pipe64.Pipe.ref, hu]
    · simp [Pipe64.Pipe.ref, hu]
    · simp [Pipe64.Pipe.ref, hu]
      omega
    · intro r _ hr
      exact List.count_cons_of_ne hr.symm
  | node n =>
    have hvalid := h.valid hlive
    refine h.setNodes (n := n) (h.order.session_held.refNode n) ?_ ?_ ?_ ?_
    · simp [Ramfs64.Session.call, session, hvalid, Ramfs64.treeCall]
    · simp [Ramfs64.Session.call, session, hvalid]
      omega
    · intro m hm
      simp [Ramfs64.Session.call, session, hvalid, update_of_ne hm]
    · intro r hr
      exact List.count_cons_of_ne hr.symm

theorem freePipe {q : Pipe64.Pipe} {p : Nat} (h : Books w hand) (hu : (w.pipes p).pipe.used = true)
    (hfree : q.used = false)
    (hreaders : hand.count (.reader p) = (w.pipes p).pipe.readers + hand'.count (.reader p))
    (hwriters : hand.count (.writer p) = (w.pipes p).pipe.writers + hand'.count (.writer p))
    (hother : ∀ r, r ≠ .reader p → r ≠ .writer p → hand'.count r = hand.count r) :
    Books (w.setPipe p ⟨q, []⟩) ((w.pipes p).carried ++ hand') := by
  refine h.setPipe (h.order.pipes p hu) (fun _ => rfl) (by simp) ?_
  intro r
  have hnone : Channel.carried ⟨q, []⟩ = [] := rfl
  rw [hnone, List.count_append, List.count_nil]
  cases r with
  | reader m =>
    rw [value_setPipe_reader]
    by_cases hm : m = p
    · subst hm
      rw [if_pos rfl, if_neg (by simp [hfree]), value, if_pos hu]
      omega
    · rw [if_neg hm, hother _ (by simpa using hm) (by simp)]
      omega
  | writer m =>
    rw [value_setPipe_writer]
    by_cases hm : m = p
    · subst hm
      rw [if_pos rfl, if_neg (by simp [hfree]), value, if_pos hu]
      omega
    · rw [if_neg hm, hother _ (by simp) (by simpa using hm)]
      omega
  | node n =>
    rw [value_setPipe_node, hother _ (by simp) (by simp)]
    omega

theorem unrefPipe {p : Nat} {reader writer : Bool} (h : Books w hand) (hu : (w.pipes p).pipe.used = true)
    (hreaders : hand.count (.reader p) = reader.toNat + hand'.count (.reader p))
    (hwriters : hand.count (.writer p) = writer.toNat + hand'.count (.writer p))
    (hother : ∀ r, r ≠ .reader p → r ≠ .writer p → hand'.count r = hand.count r) :
    Books (w.unrefPipe p reader writer).2 ((w.unrefPipe p reader writer).1 ++ hand') := by
  have hr := h.count (.reader p)
  have hw := h.count (.writer p)
  simp only [value, hu, if_true] at hr hw
  have hr' : ((w.pipes p).pipe.unref reader writer).readers = (w.pipes p).pipe.readers - reader.toNat := by
    unfold Pipe64.Pipe.unref
    cases reader <;> simp [hu] <;> split <;> grind
  have hw' : ((w.pipes p).pipe.unref reader writer).writers = (w.pipes p).pipe.writers - writer.toNat := by
    unfold Pipe64.Pipe.unref
    cases writer <;> simp [hu] <;> split <;> grind
  have hused : ((w.pipes p).pipe.unref reader writer).used = true ∨
      ((w.pipes p).pipe.readers = reader.toNat ∧ (w.pipes p).pipe.writers = writer.toNat) := by
    unfold Pipe64.Pipe.unref
    cases reader <;> cases writer <;> simp [hu] <;> split <;> grind
  unfold World.unrefPipe
  dsimp only
  split
  · rename_i hfreed
    simp only [hu, Bool.true_and, Bool.not_eq_true'] at hfreed
    rcases hused with hused | ⟨hone, htwo⟩
    · rw [hfreed] at hused
      cases hused
    · exact h.freePipe hu hfreed (by omega) (by omega) hother
  · rename_i hkept
    have hused' : ((w.pipes p).pipe.unref reader writer).used = true := by simpa [hu] using hkept
    rw [List.nil_append]
    exact h.setCounts hu hused' rfl (by dsimp only; omega) (by dsimp only; omega) hother

theorem pending_unrefOne {rs : List Res} (h : Books w (r :: rs)) :
    (w.unrefOne r).2.pending + (w.unrefOne r).1.length ≤ w.pending := by
  have hlive : w.Live r := h.live (by simp)
  have hpipe : ∀ p reader writer, (w.pipes p).pipe.used = true →
      (w.unrefPipe p reader writer).2.pending + (w.unrefPipe p reader writer).1.length ≤ w.pending := by
    intro p reader writer hu
    have hp := h.order.pipes p hu
    unfold World.unrefPipe
    dsimp only
    split
    · have hset := w.pending_setPipe ⟨(w.pipes p).pipe.unref reader writer, []⟩ hp
      have hnone : Channel.carried ⟨(w.pipes p).pipe.unref reader writer, []⟩ = [] := rfl
      rw [hnone, List.length_nil] at hset
      dsimp only
      omega
    · have hset := w.pending_setPipe { w.pipes p with pipe := (w.pipes p).pipe.unref reader writer } hp
      have hsame : Channel.carried { w.pipes p with pipe := (w.pipes p).pipe.unref reader writer } =
          (w.pipes p).carried := rfl
      rw [hsame] at hset
      dsimp only at hset ⊢
      rw [List.length_nil]
      omega
  cases r with
  | reader p => exact hpipe p true false hlive
  | writer p => exact hpipe p false true hlive
  | node n =>
    have hsame : (w.unrefOne (.node n)).2.pending = w.pending := by rw [pending_eq, pending_eq]; rfl
    rw [hsame]
    exact Nat.le_refl _

theorem unrefOne (h : Books w (r :: hand)) : Books (w.unrefOne r).2 ((w.unrefOne r).1 ++ hand) := by
  have hlive : w.Live r := h.live (by simp)
  cases r with
  | reader p =>
    refine h.unrefPipe hlive ?_ ?_ ?_
    · simp
      omega
    · simp
    · intro r hr _
      exact (List.count_cons_of_ne hr.symm).symm
  | writer p =>
    refine h.unrefPipe hlive ?_ ?_ ?_
    · simp
    · simp
      omega
    · intro r _ hr
      exact (List.count_cons_of_ne hr.symm).symm
  | node n =>
    have hvalue := h.count (.node n)
    rw [List.count_cons_self] at hvalue
    have hheld := h.order.session_held.unrefNode n ⟨Int.natCast_nonneg n, by
      simp only [Int.toNat_natCast, session]
      omega⟩
    show Books { w with fs := ramfs64UnrefNode w.fs n } ([] ++ hand)
    refine h.setNodes (n := n) hheld ?_ ?_ ?_ ?_
    · rfl
    · simp [Ramfs64.Session.call, session]
      omega
    · intro m hm
      simp [Ramfs64.Session.call, session, update_of_ne hm]
    · intro r hr
      exact (List.count_cons_of_ne hr.symm).symm

theorem unrefAll : ∀ (fuel : Nat) (rs : List Res) (w : World), w.pending + rs.length ≤ fuel → Books w (rs ++ hand) →
    Books (World.unrefAll fuel rs w) hand
  | 0, rs, w, hfuel, h => by
    have hnil : rs = [] := List.eq_nil_of_length_eq_zero (by omega)
    rw [hnil] at h
    exact h
  | _ + 1, [], _, _, h => h
  | fuel + 1, r :: rest, w, hfuel, h => by
    have hone := h.unrefOne
    have hless := h.pending_unrefOne
    refine unrefAll fuel _ _ ?_ ?_
    · rw [List.length_cons] at hfuel
      rw [List.length_append]
      omega
    · rwa [List.append_assoc]

theorem unref {rs : List Res} (h : Books w (rs ++ hand)) : Books (w.unref rs) hand :=
  unrefAll _ rs w (Nat.le_refl _) h

end Books

end World

end NovarisOS.Fd64
