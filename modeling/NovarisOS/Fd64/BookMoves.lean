/-
NovarisOS.Fd64.BookMoves — what the descriptor layer does to the books.

Most functions of `kernel/syscall64.c` fill the place first and count
afterwards (`fds[new] = fds[old]`, then `fd_take_ref`), or give back first and
empty the place afterwards (`fd_release`). Between the two steps the counters
are wrong. Neither step looks at what the other writes, so the two may be
taken in the order in which the books are right all the time (`ref_setFd`,
`unref_setFd`, `unref_setSock`).
-/
import NovarisOS.Fd64.Books

namespace NovarisOS.Fd64.World

open Ramfs64 (Fs Stays SameTree)

/-! ## Steps that may change places -/

theorem ref_setFd (w : World) (me fd : Nat) (d : Option Desc) (r : Res) :
    (w.setFd me fd d).ref r = (w.ref r).setFd me fd d := by
  cases r <;> rfl

theorem takeRef_setFd (w : World) (me fd : Nat) (d : Option Desc) (t : Target) :
    (w.setFd me fd d).takeRef t = (w.takeRef t).setFd me fd d := by
  unfold takeRef
  generalize t.ends = rs
  induction rs generalizing w with
  | nil => rfl
  | cons r rest ih => rw [List.foldl_cons, List.foldl_cons, ref_setFd, ih]

theorem ref_setSock (w : World) (s : Nat) (x : Sock) (r : Res) : (w.setSock s x).ref r = (w.ref r).setSock s x := by
  cases r <;> rfl

theorem unrefOne_setFd (w : World) (me fd : Nat) (d : Option Desc) (r : Res) :
    (w.setFd me fd d).unrefOne r = ((w.unrefOne r).1, (w.unrefOne r).2.setFd me fd d) := by
  have hpipe : ∀ p reader writer, (w.setFd me fd d).unrefPipe p reader writer =
      ((w.unrefPipe p reader writer).1, (w.unrefPipe p reader writer).2.setFd me fd d) := by
    intro p reader writer
    have hpipes : (w.setFd me fd d).pipes = w.pipes := rfl
    unfold unrefPipe
    dsimp only
    rw [hpipes]
    split <;> rfl
  cases r with
  | reader p => exact hpipe p true false
  | writer p => exact hpipe p false true
  | node n => rfl

theorem unrefOne_setSock (w : World) (s : Nat) (x : Sock) (r : Res) :
    (w.setSock s x).unrefOne r = ((w.unrefOne r).1, (w.unrefOne r).2.setSock s x) := by
  have hpipe : ∀ p reader writer, (w.setSock s x).unrefPipe p reader writer =
      ((w.unrefPipe p reader writer).1, (w.unrefPipe p reader writer).2.setSock s x) := by
    intro p reader writer
    have hpipes : (w.setSock s x).pipes = w.pipes := rfl
    unfold unrefPipe
    dsimp only
    rw [hpipes]
    split <;> rfl
  cases r with
  | reader p => exact hpipe p true false
  | writer p => exact hpipe p false true
  | node n => rfl

theorem unrefAll_comm {f : World → World} (hf : ∀ w r, (f w).unrefOne r = ((w.unrefOne r).1, f (w.unrefOne r).2)) :
    ∀ (fuel : Nat) (rs : List Res) (w : World), unrefAll fuel rs (f w) = f (unrefAll fuel rs w)
  | 0, _, _ => rfl
  | _ + 1, [], _ => rfl
  | fuel + 1, r :: rest, w => by
    rw [unrefAll, unrefAll, hf, unrefAll_comm hf fuel]

theorem unref_setFd (w : World) (me fd : Nat) (d : Option Desc) (rs : List Res) :
    (w.unref rs).setFd me fd d = (w.setFd me fd d).unref rs := by
  have hpending : (w.setFd me fd d).pending = w.pending := by
    rw [pending_eq, pending_eq]
    rfl
  unfold unref
  rw [hpending]
  exact (unrefAll_comm (fun w r => unrefOne_setFd w me fd d r) _ rs w).symm

theorem unref_setSock (w : World) (s : Nat) (x : Sock) (rs : List Res) :
    (w.unref rs).setSock s x = (w.setSock s x).unref rs := by
  have hpending : (w.setSock s x).pending = w.pending := by
    rw [pending_eq, pending_eq]
    rfl
  unfold unref
  rw [hpending]
  exact (unrefAll_comm (fun w r => unrefOne_setSock w s x r) _ rs w).symm

theorem live_ref {w : World} {r r' : Res} (h : w.Live r') : (w.ref r).Live r' := by
  have hpipe : ∀ p q reader writer, (w.pipes q).pipe.used = true →
      ((w.setPipe p { w.pipes p with pipe := (w.pipes p).pipe.ref reader writer }).pipes q).pipe.used = true := by
    intro p q reader writer hu
    by_cases hq : q = p
    · subst hq
      simp [setPipe, Pipe64.Pipe.ref, hu]
    · simp [setPipe, hq, hu]
  cases r with
  | reader p =>
    cases r' with
    | reader q => exact hpipe p q true false h
    | writer q => exact hpipe p q true false h
    | node n => exact h
  | writer p =>
    cases r' with
    | reader q => exact hpipe p q false true h
    | writer q => exact hpipe p q false true h
    | node n => exact h
  | node n =>
    cases r' with
    | reader q => exact h
    | writer q => exact h
    | node m =>
      show ((Ramfs64.ramfs64RefNode w.fs n).nodes m).used = true
      have hu : (w.fs.nodes m).used = true := h
      unfold Ramfs64.ramfs64RefNode
      split
      · by_cases hm : m = n
        · subst hm
          simpa using hu
        · simpa [hm] using hu
      · exact hu

namespace Books

variable {w : World} {hand hand' : List Res} {me fd p s : Nat}

/-! ## Descriptors -/

theorem takeRefs (rs : List Res) (h : Books w hand) (hlive : ∀ r ∈ rs, w.Live r) :
    Books (rs.foldl World.ref w) (rs ++ hand) := by
  induction rs generalizing w hand with
  | nil => exact h
  | cons r rest ih =>
    have hone := h.ref (hlive r (by simp))
    have hrest := ih hone fun r' hr' => live_ref (hlive r' (by simp [hr']))
    refine hrest.recount ?_
    intro r'
    simp only [List.cons_append, List.count_append, List.count_cons]
    omega

theorem takeRef {t : Target} (h : Books w hand) (hlive : ∀ r ∈ t.ends, w.Live r) :
    Books (w.takeRef t) (t.ends ++ hand) := h.takeRefs t.ends hlive

theorem live_desc {d : Desc} {r : Res} (h : Books w hand) (hd : w.fds me fd = some d) (hr : r ∈ d.ends) :
    w.Live r := by
  obtain ⟨hme, hfd, _⟩ := h.order.slots me fd d hd
  refine h.live ?_
  have hcount : 0 < (entry (w.fds me fd)).count r := by
    rw [hd]
    exact List.count_pos_iff.mpr hr
  have hrow := le_sumTo (fun b => (entry (w.fds me b)).count r) hfd
  have htable := le_sumTo (fun a => sumTo FD_MAX fun b => (entry (w.fds a b)).count r) hme
  unfold held inTables
  omega

theorem put {d : Desc} (h : Books w (d.ends ++ hand)) (hme : me < PROC64_MAX) (hfd : fd < FD_MAX)
    (hfree : w.fds me fd = none) (hplain : d.toTarget.Plain) (hrun : w.procs me = .running) :
    Books (w.setFd me fd (some d)) hand := by
  refine h.setFd hme hfd ?_ ?_
  · rintro x hx
    cases hx
    exact ⟨hplain, hrun⟩
  · intro r
    rw [hfree]
    simp [entry, List.count_append]

theorem take {d : Desc} (h : Books w hand) (hd : w.fds me fd = some d) :
    Books (w.setFd me fd none) (d.ends ++ hand) := by
  obtain ⟨hme, hfd, _⟩ := h.order.slots me fd d hd
  refine h.setFd hme hfd (by simp) ?_
  intro r
  rw [hd]
  simp [entry, List.count_append]

theorem sock64Destroy (h : Books w hand) (s : Nat) : Books (w.sock64Destroy s) hand := by
  unfold World.sock64Destroy
  dsimp only
  split
  · rename_i hu
    rw [unref_setSock]
    refine (h.setSock (h.order.sockets s hu) (fun _ => rfl) ?_).unref
    intro r
    simp [Sock.carried, List.count_append]
  · exact h

theorem dropSocket_fds (w : World) (d : Desc) : (w.dropSocket d).fds = w.fds := by
  unfold World.dropSocket
  split
  · exact (w.sock64Destroy_fields _).1
  · rfl

theorem dropSocket {d : Desc} (h : Books w hand) : Books (w.dropSocket d) hand := by
  unfold World.dropSocket
  split
  · exact h.sock64Destroy _
  · exact h

theorem fdRelease (h : Books w hand) (me fd : Nat) : Books (w.fdRelease me fd) hand := by
  unfold World.fdRelease
  split
  · exact h
  · rename_i d hd
    have hd' : (w.dropSocket d).fds me fd = some d := by
      rw [dropSocket_fds w d]
      exact hd
    rw [unref_setFd, (h.order.slots me fd d hd).2.2.given]
    exact (h.dropSocket.take hd').unref

theorem fdAlloc_spec {lowest : Nat} (halloc : w.fdAlloc me lowest = some fd) : fd < FD_MAX ∧ w.fds me fd = none := by
  have hmem := List.mem_of_find?_eq_some halloc
  have hnone := List.find?_some halloc
  rw [List.mem_range'_1] at hmem
  exact ⟨by omega, by simpa using hnone⟩

theorem fdCopy {d : Desc} {old new : Nat} (h : Books w hand) (hd : w.fds me old = some d) (hnew : new < FD_MAX)
    (hfree : w.fds me new = none) (hrun : w.procs me = .running) (cloexec : Bool) :
    Books (w.fdCopy me new d cloexec) hand := by
  obtain ⟨hme, _, hplain⟩ := h.order.slots me old d hd
  unfold World.fdCopy
  rw [takeRef_setFd]
  have hsame := SameTables.takeRef w d.toTarget
  have htaken : Books (w.takeRef d.toTarget) (Target.ends { d with cloexec := cloexec }.toTarget ++ hand) :=
    h.takeRef fun r hr => h.live_desc hd hr
  refine htaken.put hme hnew ?_ hplain ?_
  · rw [hsame.fds]
    exact hfree
  · rw [hsame.procs]
    exact hrun

theorem fdInitPipe {rx tx : Option Nat} (h : Books w hand) (hme : me < PROC64_MAX) (hfd : fd < FD_MAX)
    (hfree : w.fds me fd = none) (hrun : w.procs me = .running) (hrx : ∀ p ∈ rx, (w.pipes p).pipe.used = true)
    (htx : ∀ p ∈ tx, (w.pipes p).pipe.used = true) (nonblock cloexec : Bool) :
    Books (w.fdInitPipe me fd rx tx nonblock cloexec) hand := by
  unfold World.fdInitPipe
  rw [takeRef_setFd]
  have hsame := SameTables.takeRef w ⟨.pipe, none, 0, rx, tx⟩
  have hlive : ∀ r ∈ Target.ends ⟨.pipe, none, 0, rx, tx⟩, w.Live r := by
    intro r hr
    simp only [Target.ends, List.mem_append, List.mem_map, Option.mem_toList] at hr
    rcases hr with ⟨p, hp, rfl⟩ | ⟨p, hp, rfl⟩
    · exact hrx p hp
    · exact htx p hp
  refine (h.takeRef hlive).put hme hfd ?_ (Or.inr (Or.inl rfl)) ?_
  · rw [hsame.fds]
    exact hfree
  · rw [hsame.procs]
    exact hrun

/-! ## Pipes -/

theorem pipe64Create_spec {heap : Option Mem} {w' : World} (h : Books w hand)
    (hmake : w.pipe64Create heap = (some p, w')) :
    Books w' hand ∧ p < PIPE64_MAX ∧ (w.pipes p).pipe.used = false ∧
      ∃ buf, w' = w.setPipe p ⟨Pipe64.create buf, []⟩ := by
  unfold pipe64Create at hmake
  split at hmake
  · cases hmake
  · rename_i q hq
    split at hmake
    · cases hmake
    · rename_i buf
      cases hmake
      have hp : p < PIPE64_MAX := List.mem_range.mp (List.mem_of_find?_eq_some hq)
      have hfree : (w.pipes p).pipe.used = false := by simpa using List.find?_some hq
      refine ⟨?_, hp, hfree, buf, rfl⟩
      refine h.setPipe hp (fun _ => rfl) (by simp) ?_
      intro r
      have hidle : (w.pipes p).carried = [] := by rw [Channel.carried, h.order.idle p hfree]; rfl
      have hnew : Channel.carried ⟨Pipe64.create buf, []⟩ = [] := rfl
      rw [hidle, hnew]
      cases r with
      | reader q =>
        rw [value_setPipe_reader]
        split
        · rename_i heq
          simp [heq, value, hfree, Pipe64.create]
        · rfl
      | writer q =>
        rw [value_setPipe_writer]
        split
        · rename_i heq
          simp [heq, value, hfree, Pipe64.create]
        · rfl
      | node n => rw [value_setPipe_node]

theorem pipe64Create_none {heap : Option Mem} {w' : World} (hmake : w.pipe64Create heap = (none, w')) : w' = w := by
  unfold pipe64Create at hmake
  split at hmake
  · cases hmake
    rfl
  · split at hmake
    · cases hmake
      rfl
    · cases hmake

theorem pipe64Drop (h : Books w hand) (p : Nat) (hempty : (w.pipes p).inflight = []) :
    Books (w.pipe64Drop p) hand := by
  have hcarried : (w.pipes p).carried = [] := by rw [Channel.carried, hempty]; rfl
  unfold World.pipe64Drop
  by_cases hu : (w.pipes p).pipe.used = true
  · have hdrop : Books (w.unrefPipe p false false).2 ((w.unrefPipe p false false).1 ++ hand) :=
      h.unrefPipe hu (by simp) (by simp) fun _ _ _ => rfl
    have hnil : (w.unrefPipe p false false).1 = [] := by
      unfold World.unrefPipe
      dsimp only
      split
      · exact hcarried
      · rfl
    rwa [hnil] at hdrop
  · have hsame : (w.unrefPipe p false false).2 = w := by
      have hq : (w.pipes p).pipe.unref false false = (w.pipes p).pipe := by simp [Pipe64.Pipe.unref, hu]
      unfold World.unrefPipe
      rw [if_neg (by simp [hu]), hq]
      simp [World.setPipe]
    rw [hsame]
    exact h

/-! ## Messages -/

theorem carried_append (c : Channel) (batch : List Target) :
    Channel.carried { c with inflight := c.inflight ++ [batch] } = c.carried ++ batch.flatMap Target.ends := by
  simp [Channel.carried, List.flatMap_append]

theorem setInflight {l : List (List Target)} (h : Books w hand) (hu : (w.pipes p).pipe.used = true)
    (hbatches : ∀ b ∈ l, b.length ≤ 8 ∧ ∀ t ∈ b, t.Plain)
    (hmove : ∀ r, (w.pipes p).carried.count r + hand.count r =
      (Channel.carried ⟨(w.pipes p).pipe, l⟩).count r + hand'.count r) :
    Books (w.setPipe p ⟨(w.pipes p).pipe, l⟩) hand' := by
  refine h.setPipe (h.order.pipes p hu) ?_ hbatches ?_
  · intro hnot
    rw [hu] at hnot
    cases hnot
  · intro r
    have hvalue : (w.setPipe p ⟨(w.pipes p).pipe, l⟩).value r = w.value r := by
      cases r with
      | reader q =>
        rw [value_setPipe_reader]
        split <;> simp_all [value]
      | writer q =>
        rw [value_setPipe_writer]
        split <;> simp_all [value]
      | node n => rw [value_setPipe_node]
    have := hmove r
    rw [hvalue]
    omega

theorem sendFds {batch : List Target} {w' : World} (h : Books w (batch.flatMap Target.ends ++ hand))
    (hplain : ∀ t ∈ batch, t.Plain) (hsend : w.pipe64SendFds p batch = (true, w')) : Books w' hand := by
  unfold pipe64SendFds at hsend
  dsimp only at hsend
  split at hsend
  · cases hsend
  · rename_i hok
    cases hsend
    simp only [Bool.or_eq_true, Bool.not_eq_true', decide_eq_true_eq, not_or, Bool.not_eq_false] at hok
    obtain ⟨⟨⟨hu, _⟩, hlen⟩, _⟩ := hok
    refine h.setInflight hu ?_ ?_
    · intro b hb
      rcases List.mem_append.mp hb with hb | hb
      · exact h.order.batches p b hb
      · obtain rfl := List.mem_singleton.mp hb
        exact ⟨by omega, hplain⟩
    · intro r
      rw [carried_append, List.count_append, List.count_append]
      omega

theorem recvFds (h : Books w hand) (p : Nat) :
    Books (w.pipe64RecvFds p).2 ((w.pipe64RecvFds p).1.flatMap Target.ends ++ hand) ∧
      ∀ t ∈ (w.pipe64RecvFds p).1, t.Plain := by
  unfold pipe64RecvFds
  dsimp only
  split
  · exact ⟨h, by simp⟩
  · rename_i batch rest hin
    split
    · exact ⟨h, by simp⟩
    · rename_i hu
      have hu' : (w.pipes p).pipe.used = true := by simpa using hu
      have hall := h.order.batches p
      rw [hin] at hall
      obtain ⟨hlen, hplain⟩ := hall batch (by simp)
      rw [List.take_of_length_le hlen, List.drop_of_length_le hlen]
      refine ⟨Books.unref ?_, hplain⟩
      refine h.setInflight hu' (fun b hb => hall b (by simp [hb])) ?_
      intro r
      simp only [Channel.carried, hin, List.flatten_cons, List.flatMap_append, List.count_append, List.flatMap_nil,
        List.nil_append]
      omega

theorem setBytes {q : Pipe64.Pipe} (h : Books w hand) (hu : q.used = (w.pipes p).pipe.used)
    (hr : q.readers = (w.pipes p).pipe.readers) (hw : q.writers = (w.pipes p).pipe.writers)
    (hsame : (w.pipes p).pipe.used = false → q = (w.pipes p).pipe) :
    Books (w.setPipe p { w.pipes p with pipe := q }) hand := by
  by_cases hused : (w.pipes p).pipe.used = true
  · exact h.setCounts hused (hu.trans hused) rfl (by rw [hr]) (by rw [hw]) fun _ _ _ => rfl
  · rw [hsame (by simpa using hused)]
    have heq : w.setPipe p { w.pipes p with pipe := (w.pipes p).pipe } = w := by simp [World.setPipe]
    rw [heq]
    exact h

theorem write (h : Books w hand) (data : Mem) (n : Nat) :
    Books (w.setPipe p { w.pipes p with pipe := ((w.pipes p).pipe.write data n).2 }) hand := by
  refine h.setBytes ?_ ?_ ?_ ?_ <;> unfold Pipe64.Pipe.write <;> grind

theorem read (h : Books w hand) (n : Nat) :
    Books (w.setPipe p { w.pipes p with pipe := ((w.pipes p).pipe.read n).2 }) hand := by
  refine h.setBytes ?_ ?_ ?_ ?_ <;> unfold Pipe64.Pipe.read <;> grind

/-! ## Files -/

theorem stays {fs : Fs} (h : Books w hand) (hs : Stays w.fs fs) : Books { w with fs := fs } hand := by
  refine h.setFs hs.2 ?_
  intro r
  cases r with
  | reader q => rfl
  | writer q => rfl
  | node n =>
    have hheld := h.order.session_held.stays hs
    rw [value_of_held hheld rfl n]
    rfl

theorem sameTree {fs : Fs} (h : Books w hand) (hs : SameTree w.fs fs) : Books { w with fs := fs } hand := by
  obtain ⟨kids, free, hw⟩ := h.order.wired
  refine h.setFs ⟨kids, free, hs.wired hw⟩ ?_
  intro r
  cases r with
  | reader q => rfl
  | writer q => rfl
  | node n =>
    have hused : (fs.nodes n).used = (w.fs.nodes n).used := congrArg Ramfs64.Wires.used (hs.wires n)
    simp only [value, hused, hs.openers n]

end Books

end NovarisOS.Fd64.World
