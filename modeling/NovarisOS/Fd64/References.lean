/-
NovarisOS.Fd64.References — the calls that make, copy and drop descriptors
keep the books.

One lemma for each call: from books that agree it goes to books that agree,
whatever tables are full and whatever the heap answers.
-/
import NovarisOS.Fd64.BookMoves

namespace NovarisOS.Fd64.World

open Ramfs64 (Fs SameTree Wired ramfs64Create ramfs64Lookup ramfs64SetMode text)

/-! ## Files and pipes -/

theorem create_used {fs fs' : Fs} {kids : Nat → List Nat} {free : List Nat} (hw : Wired fs kids free)
    {path : List UInt8} {isDir : Bool} {n : Nat} (h : ramfs64Create fs path isDir = (some n, fs')) :
    (fs'.nodes n).used = true := by
  unfold ramfs64Create at h
  split at h
  · cases h
  · rename_i p name hwalk
    obtain ⟨hreach, _⟩ := Ramfs64.walk_reached hw hwalk
    split at h
    · rename_i existing hfind
      cases h
      exact hw.kid_used (Ramfs64.findChild_some hw hfind).2.1
    · obtain ⟨_, _, hcore, _⟩ := hw.alloc (hreach.used hw) h
      exact (congrArg Ramfs64.Node64.used hcore :)

theorem lookup_used {fs : Fs} {kids : Nat → List Nat} {free : List Nat} (hw : Wired fs kids free)
    {path : List UInt8} {n : Nat} (h : ramfs64Lookup fs path = some n) : (fs.nodes n).used = true := by
  obtain ⟨⟨m, name⟩, hwalk, rfl⟩ := Option.map_eq_some_iff.mp h
  exact (Ramfs64.walk_reached hw hwalk).1.used hw

namespace Books

variable {w w' : World} {hand : List Res} {me fd p : Nat}

theorem of_fields (h : Books w hand) (hfs : w'.fs = w.fs) (hpipes : w'.pipes = w.pipes) (hsocks : w'.socks = w.socks)
    (hprocs : w'.procs = w.procs) (hfds : w'.fds = w.fds) (hwhole : w'.smashed = w.smashed) : Books w' hand := by
  cases w
  cases w'
  subst hfs hpipes hsocks hprocs hfds hwhole
  refine ⟨?_, ⟨h.order.whole, h.order.wired, h.order.idle, h.order.pipes, h.order.batches,
      h.order.closed, h.order.sockets,
    h.order.slots, h.order.gone⟩⟩
  intro r
  have hcount := h.count r
  cases r <;> exact hcount

theorem create (h : Books w hand) (path : List UInt8) (isDir : Bool) :
    Books { w with fs := (ramfs64Create w.fs path isDir).2 } hand := by
  obtain ⟨kids, free, hw⟩ := h.order.wired
  exact h.stays (Ramfs64.stays_create hw path isDir)

theorem setMode (h : Books w hand) (node mode : Nat) :
    Books { w with fs := ramfs64SetMode w.fs node mode } hand :=
  h.sameTree (Ramfs64.setMode_same w.fs node mode)

theorem refreshMeminfo (h : Books w hand) : Books { w with fs := World.refreshMeminfo w.fs } hand := by
  obtain ⟨kids, free, hw⟩ := h.order.wired
  unfold World.refreshMeminfo
  split
  · exact h
  · have hdir := h.stays (Ramfs64.stays_mkdirp hw (text "/proc"))
    have hmade := hdir.create (text "/proc/meminfo") false
    split
    · rename_i fs heq
      rw [heq] at hmade
      exact hmade
    · rename_i node fs heq
      rw [heq] at hmade
      exact hmade.setMode node 0o444

theorem openNode (h : Books w hand) (path : List UInt8) (flags : OpenFlags) (mode : Nat) :
    Books { w with fs := (World.openNode w.fs path flags mode).2 } hand ∧
      ∀ n, (World.openNode w.fs path flags mode).1 = .ok n →
        ((World.openNode w.fs path flags mode).2.nodes n).used = true := by
  have hfresh : Books { w with fs := if path = text "/proc/meminfo" then World.refreshMeminfo w.fs else w.fs } hand := by
    split
    · exact h.refreshMeminfo
    · exact h
  unfold World.openNode
  dsimp only
  generalize (if path = text "/proc/meminfo" then World.refreshMeminfo w.fs else w.fs) = fs at hfresh
  obtain ⟨kids, free, hw⟩ := hfresh.order.wired
  split
  · rename_i node hlook
    have hu := lookup_used hw hlook
    have htrunc : SameTree fs (fs.modify node fun nd => (Ramfs64.ramfs64Truncate nd).2) :=
      SameTree.modify fs node rfl rfl rfl rfl
    split
    · refine ⟨hfresh.sameTree htrunc, ?_⟩
      rintro n hn
      cases hn
      have hsame := congrArg Ramfs64.Wires.used (htrunc.wires node)
      exact hsame.trans hu
    · refine ⟨hfresh, ?_⟩
      rintro n hn
      cases hn
      exact hu
  · split
    · exact ⟨hfresh, by simp⟩
    · have hmade := hfresh.create path false
      split
      · rename_i fs' heq
        rw [heq] at hmade
        exact ⟨hmade, by simp⟩
      · rename_i node fs' heq
        rw [heq] at hmade
        refine ⟨hmade.setMode node mode, ?_⟩
        rintro n hn
        cases hn
        have hsame := congrArg Ramfs64.Wires.used ((Ramfs64.setMode_same fs' node mode).wires node)
        exact hsame.trans (create_used hw heq)

theorem sysOpen (h : Books w hand) (hme : me < PROC64_MAX) (hrun : w.procs me = .running) (path : List UInt8)
    (flags : OpenFlags) (mode : Nat) : Books (w.sysOpen me path flags mode).2 hand := by
  obtain ⟨hopen, hused⟩ := h.openNode path flags mode
  unfold World.sysOpen
  split
  · rename_i e fs heq
    rw [heq] at hopen
    exact hopen
  · rename_i node fs heq
    rw [heq] at hopen hused
    dsimp only
    split
    · exact hopen
    · rename_i nfd hfd
      obtain ⟨hlt, hfree⟩ := fdAlloc_spec hfd
      have htaken := hopen.takeRef (t := ⟨.file, some node, if flags.append = true then (fs.nodes node).size else 0,
        none, none⟩) (fun r hr => by
          simp only [Target.ends, Option.toList_some, List.map_cons, List.map_nil, List.mem_singleton] at hr
          subst hr
          exact hused node rfl)
      have hsame := SameTables.takeRef { w with fs := fs }
        ⟨.file, some node, if flags.append = true then (fs.nodes node).size else 0, none, none⟩
      refine htaken.put hme hlt ?_ (Or.inl ⟨rfl, rfl, rfl⟩) ?_
      · rw [hsame.fds]
        exact hfree
      · rw [hsame.procs]
        exact hrun

theorem sysClose (h : Books w hand) (me fd : Nat) : Books (w.sysClose me fd).2 hand := by
  unfold World.sysClose
  split
  · exact h
  · exact h.fdRelease me fd

theorem initPipe (h : Books w hand) (rx tx : Option Nat) (hme : me < PROC64_MAX) (hrun : w.procs me = .running)
    (hfd : w.fdAlloc me 3 = some fd) (hrx : ∀ p ∈ rx, (w.pipes p).pipe.used = true)
    (htx : ∀ p ∈ tx, (w.pipes p).pipe.used = true) (nonblock cloexec : Bool) :
    Books (w.fdInitPipe me fd rx tx nonblock cloexec) hand ∧
      (w.fdInitPipe me fd rx tx nonblock cloexec).procs me = .running ∧
      (∀ p ∈ rx, ((w.fdInitPipe me fd rx tx nonblock cloexec).pipes p).pipe.used = true) ∧
      ∀ p ∈ tx, ((w.fdInitPipe me fd rx tx nonblock cloexec).pipes p).pipe.used = true := by
  obtain ⟨hlt, hfree⟩ := fdAlloc_spec hfd
  have hbooks := h.fdInitPipe hme hlt hfree hrun hrx htx nonblock cloexec
  have hsame := SameTables.takeRef (w.setFd me fd (some ⟨⟨.pipe, none, 0, rx, tx⟩, none, 0, nonblock, cloexec⟩))
    ⟨.pipe, none, 0, rx, tx⟩
  have hself : (w.fdInitPipe me fd rx tx nonblock cloexec).fds me fd =
      some ⟨⟨.pipe, none, 0, rx, tx⟩, none, 0, nonblock, cloexec⟩ := by
    unfold World.fdInitPipe
    rw [hsame.fds, setFd_self]
  refine ⟨hbooks, ?_, ?_, ?_⟩
  · unfold World.fdInitPipe
    rw [hsame.procs]
    exact hrun
  · intro p hp
    exact hbooks.live_desc (r := .reader p) hself (by simpa [Target.ends] using hp)
  · intro p hp
    exact hbooks.live_desc (r := .writer p) hself (by simpa [Target.ends] using hp)

theorem sysPipe2 (h : Books w hand) (hme : me < PROC64_MAX) (hrun : w.procs me = .running) (nonblock cloexec : Bool)
    (heap : Option Mem) : Books (w.sysPipe2 me nonblock cloexec heap).2 hand := by
  unfold World.sysPipe2
  split
  · rename_i w₁ hmake
    rw [pipe64Create_none hmake]
    exact h
  · rename_i p w₁ hmake
    obtain ⟨hmade, _, _, buf, rfl⟩ := h.pipe64Create_spec hmake
    have hself : (w.setPipe p ⟨Pipe64.create buf, []⟩).pipes p = ⟨Pipe64.create buf, []⟩ := by simp [World.setPipe]
    have hused : ∀ q ∈ some p, ((w.setPipe p ⟨Pipe64.create buf, []⟩).pipes q).pipe.used = true := by
      rintro q hq
      cases hq
      rw [hself]
      rfl
    split
    · exact hmade.pipe64Drop p (by rw [hself])
    · rename_i rd hrd
      obtain ⟨hfirst, hrun', hused', _⟩ := hmade.initPipe (some p) none hme hrun hrd hused (by simp) nonblock cloexec
      dsimp only
      split
      · exact hfirst.fdRelease me rd
      · rename_i wr hwr
        exact (hfirst.initPipe none (some p) hme hrun' hwr (by simp) hused' nonblock cloexec).1

/-! Giving back takes messages out of pipes and puts none in. -/

theorem inflight_unrefPipe (w : World) (p q : Nat) (reader writer : Bool) (h : (w.pipes q).inflight = []) :
    ((w.unrefPipe p reader writer).2.pipes q).inflight = [] := by
  unfold World.unrefPipe
  dsimp only
  split
  · by_cases hq : q = p
    · subst hq
      simp [World.setPipe]
    · simpa [World.setPipe, hq] using h
  · by_cases hq : q = p
    · subst hq
      simpa [World.setPipe] using h
    · simpa [World.setPipe, hq] using h

theorem inflight_unrefAll (q : Nat) : ∀ (fuel : Nat) (rs : List Res) (w : World), (w.pipes q).inflight = [] →
    ((World.unrefAll fuel rs w).pipes q).inflight = []
  | 0, _, _, h => h
  | _ + 1, [], _, h => h
  | fuel + 1, r :: rest, w, h => by
    refine inflight_unrefAll q fuel _ _ ?_
    cases r with
    | reader p => exact inflight_unrefPipe w p q true false h
    | writer p => exact inflight_unrefPipe w p q false true h
    | node n => exact h

theorem inflight_fdRelease (w : World) (me fd q : Nat) (h : (w.pipes q).inflight = []) :
    ((w.fdRelease me fd).pipes q).inflight = [] := by
  have hdrop : ∀ d, ((w.dropSocket d).pipes q).inflight = [] := by
    intro d
    unfold World.dropSocket
    split
    · unfold World.sock64Destroy
      dsimp only
      split
      · exact inflight_unrefAll q _ _ w h
      · exact h
    · exact h
  unfold World.fdRelease
  split
  · exact h
  · rename_i d _
    exact inflight_unrefAll q _ _ _ (hdrop d)

theorem inflight_ref (w : World) (r : Res) (q : Nat) : ((w.ref r).pipes q).inflight = (w.pipes q).inflight := by
  have hpipe : ∀ p reader writer,
      ((w.setPipe p { w.pipes p with pipe := (w.pipes p).pipe.ref reader writer }).pipes q).inflight =
        (w.pipes q).inflight := by
    intro p reader writer
    by_cases hq : q = p
    · subst hq
      simp [World.setPipe]
    · simp [World.setPipe, hq]
  cases r with
  | reader p => exact hpipe p true false
  | writer p => exact hpipe p false true
  | node n => rfl

theorem inflight_takeRef (w : World) (t : Target) (q : Nat) :
    ((w.takeRef t).pipes q).inflight = (w.pipes q).inflight := by
  unfold World.takeRef
  generalize t.ends = rs
  induction rs generalizing w with
  | nil => rfl
  | cons r rest ih => rw [List.foldl_cons, ih, inflight_ref]

theorem sysSocketpair (h : Books w hand) (hme : me < PROC64_MAX) (hrun : w.procs me = .running)
    (nonblock cloexec : Bool) (heap₁ heap₂ : Option Mem) :
    Books (w.sysSocketpair me nonblock cloexec heap₁ heap₂).2 hand := by
  unfold World.sysSocketpair
  split
  · rename_i w₁ hmake
    rw [pipe64Create_none hmake]
    exact h
  · rename_i p w₁ hmake
    obtain ⟨hmade, _, _, buf, hw₁⟩ := h.pipe64Create_spec hmake
    have hself : w₁.pipes p = ⟨Pipe64.create buf, []⟩ := by simp [hw₁, World.setPipe]
    have hrun₁ : w₁.procs me = .running := by rw [hw₁]; exact hrun
    split
    · rename_i w₂ hmake₂
      rw [pipe64Create_none hmake₂]
      exact hmade.pipe64Drop p (by rw [hself])
    · rename_i q w₂ hmake₂
      obtain ⟨hmade₂, _, hfree, buf₂, hw₂⟩ := hmade.pipe64Create_spec hmake₂
      have hne : p ≠ q := by
        rintro rfl
        rw [hself] at hfree
        cases hfree
      have hq : w₂.pipes q = ⟨Pipe64.create buf₂, []⟩ := by simp [hw₂, World.setPipe]
      have hp : w₂.pipes p = ⟨Pipe64.create buf, []⟩ := by simp [hw₂, World.setPipe, hne, hself]
      have hrun₂ : w₂.procs me = .running := by rw [hw₂]; exact hrun₁
      have husedp : ∀ x ∈ some p, (w₂.pipes x).pipe.used = true := by
        rintro x hx
        cases hx
        rw [hp]
        rfl
      have husedq : ∀ x ∈ some q, (w₂.pipes x).pipe.used = true := by
        rintro x hx
        cases hx
        rw [hq]
        rfl
      split
      · refine (hmade₂.pipe64Drop p (by rw [hp])).pipe64Drop q ?_
        exact inflight_unrefPipe w₂ p q false false (by rw [hq])
      · rename_i s₀ hs₀
        obtain ⟨hfirst, hrun', husedp', husedq'⟩ := hmade₂.initPipe (some p) (some q) hme hrun₂ hs₀ husedp husedq
          nonblock cloexec
        dsimp only
        split
        · refine (hfirst.fdRelease me s₀).pipe64Drop q ?_
          refine inflight_fdRelease _ me s₀ q ?_
          unfold World.fdInitPipe
          rw [inflight_takeRef]
          show (w₂.pipes q).inflight = []
          rw [hq]
        · rename_i s₁ hs₁
          exact (hfirst.initPipe (some q) (some p) hme hrun' hs₁ husedq' husedp' nonblock cloexec).1

/-! ## Listening sockets -/

theorem putEmpty {d : Desc} (h : Books w hand) (hme : me < PROC64_MAX) (hrun : w.procs me = .running)
    (hfd : w.fdAlloc me 3 = some fd) (hplain : d.toTarget.Plain) (hends : d.ends = []) :
    Books (w.setFd me fd (some d)) hand := by
  obtain ⟨hlt, hfree⟩ := fdAlloc_spec hfd
  refine Books.put ?_ hme hlt hfree hplain hrun
  rw [hends]
  exact h

theorem setState {x : Sock} {s : Nat} (h : Books w hand) (hu : (w.socks s).used = true) (hx : x.used = true)
    (hqueue : x.queue = (w.socks s).queue) : Books (w.setSock s x) hand := by
  refine h.setSock (h.order.sockets s hu) ?_ ?_
  · intro hnot
    rw [hx] at hnot
    cases hnot
  · intro r
    rw [Sock.carried, Sock.carried, hqueue]

theorem sysSocket (h : Books w hand) (hme : me < PROC64_MAX) (hrun : w.procs me = .running) (nonblock cloexec : Bool) :
    Books (w.sysSocket me nonblock cloexec).2 hand := by
  unfold World.sysSocket sock64Create
  split
  · rename_i w₁ heq
    split at heq
    · cases heq
      exact h
    · cases heq
  · rename_i s w₁ heq
    split at heq
    · cases heq
    · rename_i hfind
      cases heq
      have hs : s < SOCK64_MAX := List.mem_range.mp (List.mem_of_find?_eq_some hfind)
      have hfree : (w.socks s).used = false := by simpa using List.find?_some hfind
      have hmade : Books (w.setSock s ⟨.unbound, none, 0, [], true, w.stamp⟩) hand := by
        refine h.setSock hs (by simp) ?_
        intro r
        rw [Sock.carried, Sock.carried, h.order.closed s hfree]
      have hstamped : Books { w.setSock s ⟨.unbound, none, 0, [], true, w.stamp⟩ with stamp := w.stamp + 1 } hand :=
        hmade.of_fields rfl rfl rfl rfl rfl rfl
      split
      · exact hstamped.sock64Destroy s
      · rename_i nfd hnfd
        exact hstamped.putEmpty hme hrun hnfd (Or.inr (Or.inr rfl)) rfl

theorem sysBind (h : Books w hand) (me fd : Nat) (path : List UInt8) : Books (w.sysBind me fd path).2 hand := by
  unfold World.sysBind
  split
  · exact h
  · rename_i s _
    split
    · exact h
    · have hmade := h.create path false
      split
      · rename_i fs heq
        rw [heq] at hmade
        exact hmade
      · rename_i node fs heq
        rw [heq] at hmade
        dsimp only at hmade ⊢
        have hnode := (hmade.sameTree (Ramfs64.setDevice_same fs node RAMFS64_DEV_SOCK)).setMode node 0o755
        split
        · rename_i hu
          refine hnode.setState hu ?_ ?_
          · unfold Sock.bind
            split <;> exact hu
          · unfold Sock.bind
            split <;> rfl
        · exact hnode

theorem sysListen (h : Books w hand) (me fd : Nat) (backlog : Int) : Books (w.sysListen me fd backlog).2 hand := by
  unfold World.sysListen
  split
  · exact h
  · rename_i s _
    split
    · rename_i hu
      refine h.setState hu ?_ ?_
      · unfold Sock.listen
        split <;> exact hu
      · unfold Sock.listen
        split <;> rfl
    · exact h

theorem sockOf_ok {s : Nat} (h : w.sockOf me fd = .ok s) :
    ∃ d, w.fds me fd = some d ∧ d.kind = .socket ∧ d.sock = some s := by
  unfold sockOf at h
  split at h
  · cases h
  · rename_i d hd
    split at h
    · cases h
    · rename_i s' hs
      cases h
      unfold Desc.socket at hs
      split at hs
      · exact ⟨d, hd, ‹_›, hs⟩
      · cases hs

theorem push {a b l : Nat} (h : Books w (.writer b :: .reader a :: hand)) (hu : (w.socks l).used = true) :
    Books (w.setSock l ((w.socks l).push (a, b))) hand := by
  refine h.setSock (h.order.sockets l hu) ?_ ?_
  · intro hnot
    have hpushed : ((w.socks l).push (a, b)).used = (w.socks l).used := rfl
    rw [hpushed, hu] at hnot
    cases hnot
  · intro r
    simp only [Sock.carried, Sock.push, List.flatMap_append, List.flatMap_cons, List.flatMap_nil, List.append_nil,
      List.count_append, List.count_cons, List.count_nil]
    omega

/-- What `sock64_connect` leaves in the caller's hands. -/
inductive Joined (w : World) (hand : List Res) : Int × Option (Nat × Nat) × World → Prop where
  | refused {rc : Int} {w₁ : World} (h : Books w₁ hand) : Joined w hand (rc, none, w₁)
  | made {a b : Nat} {w₁ : World} (h : Books w₁ (.reader b :: .writer a :: hand)) (hfds : w₁.fds = w.fds)
      (hprocs : w₁.procs = w.procs) : Joined w hand (0, some (b, a), w₁)

theorem sock64Connect (h : Books w hand) (s l : Nat) (heap₁ heap₂ : Option Mem) :
    Joined w hand (w.sock64Connect s l heap₁ heap₂) := by
  unfold World.sock64Connect
  split
  · exact .refused h
  · rename_i hs
    split
    · exact .refused h
    · split
      · exact .refused h
      · rename_i hl
        simp only [Bool.or_eq_true, Bool.not_eq_true', decide_eq_true_eq, not_or, Bool.not_eq_false] at hl
        split
        · exact .refused h
        · split
          · rename_i w₁ hmake
            rw [pipe64Create_none hmake]
            exact .refused h
          · rename_i a w₁ hmake
            obtain ⟨hmade, _, _, buf, hw₁⟩ := h.pipe64Create_spec hmake
            have hself : w₁.pipes a = ⟨Pipe64.create buf, []⟩ := by simp [hw₁, World.setPipe]
            split
            · rename_i w₂ hmake₂
              rw [pipe64Create_none hmake₂]
              exact .refused (hmade.pipe64Drop a (by rw [hself]))
            · rename_i b w₂ hmake₂
              obtain ⟨hmade₂, _, hfree, buf₂, hw₂⟩ := hmade.pipe64Create_spec hmake₂
              have hne : a ≠ b := by
                rintro rfl
                rw [hself] at hfree
                cases hfree
              have hb : (w₂.pipes b).pipe.used = true := by simp [hw₂, World.setPipe, Pipe64.create]
              have ha : (w₂.pipes a).pipe.used = true := by simp [hw₂, World.setPipe, hne, hself, Pipe64.create]
              have hsocks : w₂.socks = w.socks := by rw [hw₂, hw₁]; rfl
              have hall := hmade₂.takeRefs [.reader b, .writer a, .reader a, .writer b] (by
                intro r hr
                simp only [List.mem_cons, List.not_mem_nil, or_false] at hr
                rcases hr with rfl | rfl | rfl | rfl
                · exact hb
                · exact ha
                · exact ha
                · exact hb)
              have hsame := (((SameTables.ref w₂ (.reader b)).trans (SameTables.ref _ (.writer a))).trans
                (SameTables.ref _ (.reader a))).trans (SameTables.ref _ (.writer b))
              have hsame₂ := (SameTables.ref w₂ (.reader b)).trans (SameTables.ref _ (.writer a))
              simp only [List.foldl_cons, List.foldl_nil] at hall
              dsimp only
              rw [ref_setSock, ref_setSock, hsame₂.socks, ← hsame.socks]
              generalize (((w₂.ref (.reader b)).ref (.writer a)).ref (.reader a)).ref (.writer b) = w₃ at hall hsame ⊢
              have hl₃ : (w₃.socks l).used = true := by rw [hsame.socks, hsocks]; exact hl.1
              have hpushed : Books (w₃.setSock l ((w₃.socks l).push (a, b))) (.reader b :: .writer a :: hand) := by
                refine Books.push (hall.recount ?_) hl₃
                intro r
                simp only [List.cons_append, List.nil_append, List.count_cons]
                omega
              refine .made (hpushed.setState ?_ ?_ rfl) ?_ ?_
              · by_cases hsl : s = l
                · subst hsl
                  simpa [World.setSock, Sock.push] using hl₃
                · simpa [World.setSock, hsl, hsame.socks, hsocks] using hs
              · by_cases hsl : s = l
                · subst hsl
                  simpa [World.setSock, Sock.push] using hl₃
                · simpa [World.setSock, hsl, hsame.socks, hsocks] using hs
              · rw [setSock_fds, setSock_fds, hsame.fds, hw₂, hw₁]
                rfl
              · show w₃.procs = w.procs
                rw [hsame.procs, hw₂, hw₁]
                rfl

theorem sysConnect (h : Books w hand) (hrun : w.procs me = .running) (fd : Nat) (path : List UInt8)
    (heap₁ heap₂ : Option Mem) :
    ∃ lost, Books (w.sysConnect me fd path heap₁ heap₂).2 (lost ++ hand) ∧
      ((∀ s l d, w.sockOf me fd = .ok s → w.listenerAt path = .ok l →
        (w.sock64Connect s l heap₁ heap₂).2.1.isSome → w.fds me fd = some d → d.rx = none ∧ d.tx = none) →
        lost = []) := by
  unfold World.sysConnect
  split
  · exact ⟨[], h, fun _ => rfl⟩
  · rename_i s hs
    split
    · exact ⟨[], h, fun _ => rfl⟩
    · rename_i l hl
      have hjoined := h.sock64Connect s l heap₁ heap₂
      generalize hres : w.sock64Connect s l heap₁ heap₂ = res at hjoined
      cases hjoined with
      | refused h₁ => exact ⟨[], h₁, fun _ => rfl⟩
      | made h₁ hfds hprocs =>
        rename_i a b w₁
        obtain ⟨d, hd, hkind, hsock⟩ := sockOf_ok hs
        obtain ⟨hme, hfd, _⟩ := h.order.slots me fd d hd
        have hd₁ : w₁.fds me fd = some d := by
          rw [hfds]
          exact hd
        dsimp only
        rw [hd₁, Option.map_some]
        refine ⟨d.ends, h₁.setFd hme hfd ?_ ?_, ?_⟩
        · rintro x hx
          cases hx
          refine ⟨Or.inr (Or.inr hkind), ?_⟩
          rw [hprocs]
          exact hrun
        · intro r
          have hnew : Target.ends { d with rx := some b, tx := some a }.toTarget = [.reader b, .writer a] := by
            simp [Target.ends, hkind]
          rw [hd₁]
          unfold entry
          dsimp only
          rw [hnew]
          simp only [List.count_append, List.count_cons, List.count_nil]
          omega
        · intro hfree
          obtain ⟨hrx, htx⟩ := hfree s l d hs hl (by rw [hres]; rfl) hd
          simp [Target.ends, hkind, hrx, htx]

theorem sysAccept4 (h : Books w hand) (hme : me < PROC64_MAX) (hrun : w.procs me = .running) (fd : Nat)
    (nonblock cloexec : Bool) : Books (w.sysAccept4 me fd nonblock cloexec).2 hand := by
  unfold World.sysAccept4
  split
  · exact h
  · rename_i s _
    split
    · exact h
    · rename_i hu
      have hu : (w.socks s).used = true := by simpa using hu
      unfold Sock.accept
      split
      · exact h
      · rename_i rx tx x heq
        split at heq
        · cases heq
        · split at heq
          · cases heq
          · rename_i c rest hqueue
            cases heq
            have htaken : Books (w.setSock s { w.socks s with queue := rest }) ([.reader rx, .writer tx] ++ hand) := by
              refine h.setSock (h.order.sockets s hu) ?_ ?_
              · intro hnot
                rw [hu] at hnot
                cases hnot
              · intro r
                simp only [Sock.carried, hqueue, List.flatMap_cons, List.count_append]
                omega
            dsimp only
            split
            · exact htaken.unref
            · rename_i nfd hnfd
              obtain ⟨hlt, hfree⟩ := fdAlloc_spec hnfd
              exact Books.put htaken hme hlt hfree (Or.inr (Or.inr rfl)) hrun

/-! ## Copies -/

theorem sysDup (h : Books w hand) (hrun : w.procs me = .running) (fd : Nat) : Books (w.sysDup me fd).2 hand := by
  unfold World.sysDup
  split
  · exact h
  · rename_i d hd
    split
    · exact h
    · rename_i nfd hnfd
      obtain ⟨hlt, hfree⟩ := fdAlloc_spec hnfd
      exact h.fdCopy hd hlt hfree hrun false

theorem sysDupfd (h : Books w hand) (hrun : w.procs me = .running) (fd lowest : Nat) (cloexec : Bool) :
    Books (w.sysDupfd me fd lowest cloexec).2 hand := by
  unfold World.sysDupfd
  split
  · exact h
  · rename_i d hd
    split
    · exact h
    · rename_i nfd hnfd
      obtain ⟨hlt, hfree⟩ := fdAlloc_spec hnfd
      exact h.fdCopy hd hlt hfree hrun cloexec

theorem fdRelease_procs (w : World) (me fd : Nat) : (w.fdRelease me fd).procs = w.procs := by
  have hdrop : ∀ d, (w.dropSocket d).procs = w.procs := by
    intro d
    unfold World.dropSocket
    split
    · unfold World.sock64Destroy
      dsimp only
      split
      · exact (SameTables.unref w _).procs
      · rfl
    · rfl
  unfold World.fdRelease
  split
  · rfl
  · rename_i d _
    exact (SameTables.unref _ _).procs.trans (hdrop d)

theorem sysDup2 (h : Books w hand) (hrun : w.procs me = .running) (old new : Nat) (three cloexec : Bool) :
    Books (w.sysDup2 me old new three cloexec).2 hand := by
  unfold World.sysDup2
  split
  · exact h
  · rename_i d hd
    split
    · exact h
    · rename_i hnew
      split
      · exact h
      · rename_i hne
        have hrel := released_fdRelease w me new
        have hold : (w.fdRelease me new).fds me old = some d := by
          rw [hrel.kept me old (fun hx => hne hx.2)]
          exact hd
        refine (h.fdRelease me new).fdCopy hold (by omega) (hrel.gone new rfl) ?_ _
        rw [fdRelease_procs]
        exact hrun

/-! ## Processes -/

theorem releaseLoop (me : Nat) {step : World → Nat → World}
    (hstep : ∀ w fd, step w fd = w ∨ step w fd = w.fdRelease me fd) (l : List Nat) (h : Books w hand) :
    Books (l.foldl step w) hand ∧ (l.foldl step w).procs = w.procs := by
  induction l generalizing w with
  | nil => exact ⟨h, rfl⟩
  | cons fd rest ih =>
    rw [List.foldl_cons]
    rcases hstep w fd with heq | heq
    · rw [heq]
      exact ih h
    · rw [heq]
      obtain ⟨hbooks, hprocs⟩ := ih (h.fdRelease me fd)
      exact ⟨hbooks, hprocs.trans (fdRelease_procs w me fd)⟩

theorem sysExec (h : Books w hand) (me : Nat) : Books (w.sysExec me).2 hand := by
  unfold World.sysExec
  generalize List.range FD_MAX = l
  refine (releaseLoop me ?_ l h).1
  intro w fd
  split
  · exact Or.inr rfl
  · exact Or.inl rfl

theorem closeAllFiles (h : Books w hand) (me : Nat) :
    Books (w.closeAllFiles me) hand ∧ (w.closeAllFiles me).procs = w.procs := by
  unfold World.closeAllFiles
  generalize List.range FD_MAX = l
  exact releaseLoop me (fun _ _ => Or.inr rfl) l h

theorem setProc (h : Books w hand) (hnone : ∀ fd, w.fds me fd = none) (x : Slot) :
    Books { w with procs := Function.update w.procs me x } hand := by
  refine ⟨?_, ⟨h.order.whole, h.order.wired, h.order.idle, h.order.pipes, h.order.batches,
      h.order.closed, h.order.sockets,
    h.order.slots, ?_⟩⟩
  · intro r
    have hcount := h.count r
    cases r <;> exact hcount
  · intro a ha fd
    by_cases hme : a = me
    · subst hme
      exact hnone fd
    · refine h.order.gone a ?_ fd
      simpa [hme] using ha

theorem exited {w₁ : World} (h : Books w₁ hand) (hgone : ∀ fd, fd ∈ List.range FD_MAX → w₁.fds me fd = none)
    (x : Slot) : Books { w₁ with procs := Function.update w₁.procs me x } hand := by
  refine h.setProc ?_ x
  intro fd
  by_contra hsome
  obtain ⟨d, hd⟩ := Option.ne_none_iff_exists'.mp hsome
  rw [hgone fd (List.mem_range.mpr (h.order.slots me fd d hd).2.1)] at hd
  cases hd

theorem sysExit (h : Books w hand) (me : Nat) : Books (w.sysExit me).2 hand :=
  (h.closeAllFiles me).1.exited (released_closeAllFiles w me).gone .exited

/-- The references in a process's table. -/
def tableEnds (w : World) (me : Nat) : List Res := (List.range FD_MAX).flatMap fun fd => entry (w.fds me fd)

theorem count_flatMap_range (f : Nat → List Res) (r : Res) (n : Nat) :
    ((List.range n).flatMap f).count r = sumTo n fun i => (f i).count r := by
  induction n with
  | zero => simp [sumTo_zero]
  | succ n ih => rw [List.range_succ, List.flatMap_append, List.count_append, ih, sumTo_succ]; simp

theorem forget (h : Books w hand) (child : Nat) : Books (w.forget child) (tableEnds w child ++ hand) := by
  have hget : ∀ a b, (w.forget child).fds a b = if a = child then none else w.fds a b := by
    intro a b
    by_cases ha : a = child
    · subst ha
      simp [World.forget]
    · simp [World.forget, ha]
  refine ⟨?_, ⟨h.order.whole, h.order.wired, h.order.idle, h.order.pipes, h.order.batches, h.order.closed,
    h.order.sockets, ?_, ?_⟩⟩
  · intro r
    have hrow : (tableEnds w child).count r = sumTo FD_MAX fun fd => (entry (w.fds child fd)).count r :=
      count_flatMap_range _ r FD_MAX
    have htables : (w.forget child).inTables r + (tableEnds w child).count r = w.inTables r := by
      by_cases hchild : child < PROC64_MAX
      · have hmove := sumTo_change (f := fun a => sumTo FD_MAX fun b => (entry (w.fds a b)).count r)
          (g := fun a => sumTo FD_MAX fun b => (entry ((w.forget child).fds a b)).count r) hchild
          (fun a ha => by simp only [hget, if_neg ha])
        have hempty : (sumTo FD_MAX fun b => (entry ((w.forget child).fds child b)).count r) = 0 :=
          sumTo_eq_zero fun b _ => by rw [hget, if_pos rfl]; rfl
        unfold inTables
        omega
      · have hnone : ∀ b, w.fds child b = none := by
          intro b
          cases hb : w.fds child b with
          | none => rfl
          | some d => exact absurd (h.order.slots child b d hb).1 hchild
        have hempty : (sumTo FD_MAX fun b => (entry (w.fds child b)).count r) = 0 :=
          sumTo_eq_zero fun b _ => by rw [hnone]; rfl
        have hsame : (w.forget child).inTables r = w.inTables r := by
          refine sumTo_congr fun a ha => sumTo_congr fun b _ => ?_
          have hne : a ≠ child := fun heq => hchild (heq ▸ ha)
          rw [hget, if_neg hne]
        omega
    have hmessages : (w.forget child).inMessages r = w.inMessages r := rfl
    have hqueues : (w.forget child).inQueues r = w.inQueues r := rfl
    have hvalue : (w.forget child).value r = w.value r := by cases r <;> rfl
    have hcount := h.count r
    rw [List.count_append]
    unfold held at hcount ⊢
    omega
  · intro a b d hd
    rw [hget] at hd
    split at hd
    · cases hd
    · exact h.order.slots a b d hd
  · intro a ha b
    rw [hget]
    split
    · rfl
    · rename_i hne
      refine h.order.gone a ?_ b
      simpa [World.forget, hne] using ha

theorem tableEnds_nil {child : Nat} (hnone : ∀ fd, entry (w.fds child fd) = []) : tableEnds w child = [] := by
  unfold tableEnds
  generalize List.range FD_MAX = l
  rw [List.flatMap_eq_nil_iff]
  exact fun fd _ => hnone fd

theorem forkFds {child : Nat} (hne : child ≠ me) (hchild : child < PROC64_MAX) :
    ∀ (l : List Nat) (w : World), l.Nodup → (∀ fd ∈ l, fd < FD_MAX ∧ w.fds child fd = none) →
      w.procs child = .running → Books w hand →
      Books (World.forkFds me child l w) hand ∧
        ∀ fd, (World.forkFds me child l w).fds child fd = if fd ∈ l then w.fds me fd else w.fds child fd
  | [], w, _, _, _, h => ⟨h, fun fd => by simp [World.forkFds]⟩
  | fd :: rest, w, hnd, hfree, hrun, h => by
    have hnd' := List.nodup_cons.mp hnd
    obtain ⟨hlt, hnone⟩ := hfree fd (by simp)
    -- What one turn leaves: the parent's table, and the child's but for this place.
    have hturn : ∀ (w₁ : World) (x : Option Desc), Books w₁ hand → w₁.procs child = .running →
        w₁.fds = (w.setFd child fd x).fds → x = w.fds me fd →
        Books (World.forkFds me child rest w₁) hand ∧
          ∀ b, (World.forkFds me child rest w₁).fds child b =
            if b ∈ fd :: rest then w.fds me b else w.fds child b := by
      intro w₁ x h₁ hrun₁ hfds hx
      have hother : ∀ b, b ≠ fd → w₁.fds child b = w.fds child b := by
        intro b hb
        rw [hfds, setFd_other _ _ (by simp [hb])]
      have hparent : ∀ b, w₁.fds me b = w.fds me b := by
        intro b
        rw [hfds, setFd_other _ _ (by simp [hne.symm])]
      obtain ⟨hbooks, hcopied⟩ := forkFds hne hchild rest w₁ hnd'.2 (by
        intro b hb
        have hbf : b ≠ fd := fun heq => hnd'.1 (heq ▸ hb)
        rw [hother b hbf]
        exact hfree b (by simp [hb])) hrun₁ h₁
      refine ⟨hbooks, ?_⟩
      intro b
      rw [hcopied b, hparent b]
      by_cases hb : b = fd
      · subst hb
        rw [if_neg hnd'.1, if_pos (by simp), hfds, setFd_self, hx]
      · rw [hother b hb]
        simp [hb]
    unfold World.forkFds
    split
    · rename_i hd
      refine hturn _ none ?_ hrun rfl hd.symm
      refine h.setFd hchild hlt (by simp) ?_
      intro r
      rw [hnone]
    · rename_i d hd
      have hsame := SameTables.takeRef (w.setFd child fd (some d)) d.toTarget
      refine hturn _ (some d) ?_ (by rw [hsame.procs]; exact hrun) hsame.fds hd.symm
      rw [takeRef_setFd]
      have hsame' := SameTables.takeRef w d.toTarget
      refine (h.takeRef fun r hr => h.live_desc hd hr).put hchild hlt ?_ (h.order.slots me fd d hd).2.2 ?_
      · rw [hsame'.fds]
        exact hnone
      · rw [hsame'.procs]
        exact hrun

theorem sysFork (h : Books w hand) (hrun : w.procs me = .running) (how : ForkEnd) :
    ∃ lost, Books (w.sysFork me how).2 (lost ++ hand) ∧
      ((how = .noSpace → (∃ p, p < PROC64_MAX ∧ w.procs p = .free) → ∀ fd d, w.fds me fd = some d → d.ends = []) →
        lost = []) := by
  unfold World.sysFork
  split
  · exact ⟨[], h, fun _ => rfl⟩
  · rename_i child hfind
    have hlt : child < PROC64_MAX := List.mem_range.mp (List.mem_of_find?_eq_some hfind)
    have hfree : w.procs child = .free := by simpa using List.find?_some hfind
    have hne : child ≠ me := by
      rintro rfl
      rw [hrun] at hfree
      cases hfree
    have hnone : ∀ fd, w.fds child fd = none := h.order.gone child (by rw [hfree]; simp)
    have hstart := h.setProc hnone .running
    have hfork := forkFds hne hlt (List.range FD_MAX) { w with procs := Function.update w.procs child .running }
      List.nodup_range (fun fd hfd => ⟨List.mem_range.mp hfd, hnone fd⟩) (by simp) hstart
    dsimp only
    generalize World.forkFds me child (List.range FD_MAX)
        { w with procs := Function.update w.procs child .running } = w₁
      at hfork ⊢
    cases how with
    | done => exact ⟨[], hfork.1, fun _ => rfl⟩
    | noTask => exact ⟨[], hfork.1, fun _ => rfl⟩
    | noSpace =>
      refine ⟨tableEnds w₁ child, hfork.1.forget child, ?_⟩
      intro hhow
      refine tableEnds_nil ?_
      intro fd
      rw [hfork.2 fd]
      split
      · cases hd : w.fds me fd with
        | none => rfl
        | some d => exact hhow rfl ⟨child, hlt, hfree⟩ fd d hd
      · rw [hnone fd]
        rfl

theorem reap (h : Books w hand) (child : Nat) (hexited : w.procs child = .exited) : Books (w.forget child) hand := by
  have hforgotten := h.forget child
  rwa [tableEnds_nil fun fd => by rw [h.order.gone child (by rw [hexited]; simp) fd]; rfl] at hforgotten

end Books

end NovarisOS.Fd64.World
