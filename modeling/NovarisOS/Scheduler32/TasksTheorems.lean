/-
NovarisOS.Scheduler32.TasksTheorems — a blocked task runs again only for its own
reason (`blocked_own_reason`).

The promise on a call (`Proper`) is that the trap frame it is given is on the
running task's stack, where the processor has pushed it, that a new task's stack
is memory nobody has and its directory is one, and that the batch is entered and
reaped by the shell, when nothing of it runs.
-/
import NovarisOS.Scheduler32.Waking

namespace NovarisOS.Scheduler32

variable {k k' : Kernel} {p : Process} {m : Mem} {i me next regs : Nat} {f : Process → Process} {a : Act}
variable {why : Process → Int → Prop}

/-! ## What holds between calls -/

/-- One task runs while the scheduler is active and none otherwise, nobody waits when
it is not, and whatever was switched to could run. -/
structure Inv (k : Kernel) : Prop extends Sound k where
  running : ∀ me, k.current = some me → ∃ p, k.process_table[me]? = some p ∧ p.state = .running
  active : k.active = k.current.isSome
  idle : k.current = none → ∀ p ∈ k.process_table, p.state ≠ .blocked
  handed : ∀ st ∈ k.handed, st.runnable

/-- The frame is on the running task's stack. -/
def OnStack (k : Kernel) (regs : Nat) : Prop :=
  ∀ p ∈ k.running, p.kernel_stack_base ≤ regs ∧ regs + FRAME_SIZE ≤ p.kernel_stack_base + PROC_KSTACK_SIZE

def Proper (k : Kernel) : Act → Prop
  | .block regs _ _ => OnStack k regs
  | .block_retry regs _ _ => OnStack k regs
  | .block_retry_multi regs _ _ _ => OnStack k regs
  | .tick regs user => user = true → OnStack k regs
  | .yield_from_trap regs => OnStack k regs
  | .spawn kstack pd _ => pd ≠ 0 ∧ ∀ base ∈ kstack, ∀ p ∈ k.process_table, ApartAt p.kernel_stack_base base
  | .run_until_idle => k.active = false
  | .reap_all => k.active = false
  | _ => True

theorem Inv.booted (m : Mem) : Inv (booted m) where
  apart := List.Pairwise.nil
  tasks := by simp [Scheduler32.booted]
  running := by simp [Scheduler32.booted]
  active := rfl
  idle := by simp [Scheduler32.booted]
  handed := by simp [Scheduler32.booted]

theorem Inv.runs (h : Inv k) (hme : k.current = some me) : Runs k me := by
  obtain ⟨p, hp, hstate⟩ := h.running me hme
  exact ⟨p, hp, by rw [hstate]; rfl⟩

theorem Inv.awake (h : Inv k) (hme : k.current = some me) (hp : k.process_table[me]? = some p) :
    p.state = .running := by
  obtain ⟨q, hq, hstate⟩ := h.running me hme
  rw [hq] at hp
  exact Option.some.inj hp ▸ hstate

theorem Inv.switch (h : Sound k) (hhanded : ∀ st ∈ k.handed, st.runnable) (hactive : k.active = true)
    (hnext : Runs k next) : Inv (switch_to next k) := by
  obtain ⟨p, hp, hruns⟩ := hnext
  refine { toSound := ?_, running := ?_, active := ?_, idle := ?_, handed := ?_ }
  · have hset := h.set (i := next) (f := fun p => { p with state := .running }) fun q hq =>
      ⟨(h.tasks q (List.mem_of_getElem? hq)).of_awake rfl rfl rfl (by simp), rfl⟩
    exact ⟨hset.apart, hset.tasks⟩
  · intro me hme
    cases hme
    exact ⟨{ p with state := .running }, by simp [switch_to, Kernel.set, hp], rfl⟩
  · exact hactive
  · intro hnone
    cases hnone
  · intro st hst
    simp only [switch_to, hp, Option.map_some, Option.toList_some, List.mem_append, List.mem_singleton] at hst
    rcases hst with hst | rfl
    · exact hhanded st hst
    · exact hruns

/-! ## Parking and giving way -/

/-- The running task is written and another one is switched to, or nothing happens. -/
inductive Parked (f : Process → Process) (k : Kernel) : Kernel → Prop
  | no : Parked f k k
  | yes (me next : Nat) (hme : k.current = some me) (hactive : k.active = true) (hnext : Runs k next) (hne : next ≠ me) :
      Parked f k (switch_to next { k.set me f with tick_countdown := SCHED_TICKS_PER_SLICE })

theorem block_common_parked (h : Inv k) (regs : Nat) (addrs : List Nat) (n : Int) (deadline : Nat) (retry : Bool) :
    Parked (fun p =>
      { p with
        esp := regs
        wait_addr := addrs.take (min n PROC_WAIT_MAX).toNat
        wait_deadline := deadline
        wait_retry := retry
        state := .blocked
        due := tick_of k deadline }) k (block_common regs addrs n deadline retry k).1 := by
  unfold block_common
  split
  · rename_i me hactive hme
    obtain ⟨next, hpick, hnext⟩ := pick_next_ready_of_runs (h.runs hme)
    rw [hpick]
    dsimp only
    split
    · exact .no
    · exact .yes me next hme hactive hnext ‹_›
  · exact .no

theorem yield_parked (h : Inv k) (regs : Nat) :
    Parked (fun p => { p with esp := regs, state := .ready }) k (scheduler_yield_from_trap regs k).1 := by
  unfold scheduler_yield_from_trap
  split
  · rename_i me hactive hme
    obtain ⟨next, hpick, hnext⟩ := pick_next_ready_of_runs (h.runs hme)
    rw [hpick]
    dsimp only
    split
    · exact .no
    · exact .yes me next hme hactive hnext ‹_›
  · exact .no

theorem Runs.set (h : Runs k i) (hne : i ≠ me) : Runs (k.set me f) i := by
  obtain ⟨p, hp, hruns⟩ := h
  exact ⟨p, by simp [Kernel.set, hp, hne.symm], hruns⟩

theorem Parked.moves (h : Inv k) (hp : Parked f k k') (hf : ∀ p, (f p).kernel_stack_base = p.kernel_stack_base) :
    Moves why k k' := by
  cases hp with
  | no => exact .refl k
  | yes me next hme _ hnext hne =>
    have hset : Moves why k (k.set me f) := (Moves.refl k).set (fun p hp => by simp [h.awake hme hp]) hf
    exact Moves.switch (k := { k.set me f with tick_countdown := SCHED_TICKS_PER_SLICE }) hset (hnext.set hne)

theorem Parked.inv (h : Inv k) (hp : Parked f k k')
    (hf : ∀ p ∈ k.running, Good k.ticks (f p) ∧ (f p).kernel_stack_base = p.kernel_stack_base) : Inv k' := by
  cases hp with
  | no => exact h
  | yes me next hme hactive hnext hne =>
    have hset := h.toSound.set (i := me) (f := f) fun p hp => hf p (by simp [Kernel.running, hme, hp])
    exact Inv.switch (k := { k.set me f with tick_countdown := SCHED_TICKS_PER_SLICE }) ⟨hset.apart, hset.tasks⟩
      h.handed hactive (hnext.set hne)

/-! ## The reasons -/

/-- Why call `a` may wake task `p`, and what the task then finds as the answer of the
call it waits in. -/
inductive Reason (k : Kernel) : Act → Process → Int → Prop
  | wake {p : Process} {addr : Nat} {max result : Int} (hzero : addr ≠ 0) (hreg : addr ∈ p.wait_addr) :
      Reason k (.wake_on addr max result) p result
  | wake_local {p : Process} {addr : Nat} {max result : Int} (hzero : addr ≠ 0) (hreg : addr ∈ p.wait_addr)
      (hspace : ∃ me ∈ k.running, me.page_directory = p.page_directory) :
      Reason k (.wake_on_local addr max result) p result
  | deadline {p : Process} {regs : Nat} {user : Bool} (hzero : p.wait_deadline ≠ 0) (hdue : p.due ≤ k.ticks + 1) :
      Reason k (.tick regs user) p (-ETIMEDOUT)
  | stuck {p : Process} (hnone : ∀ j q, k.process_table[j]? = some q → k.current ≠ some j → ¬ q.state.runnable) :
      Reason k .exit_current p (-EAGAIN)

/-! ## The wakers -/

theorem waits_on_blocked (pd addr : Nat) : ∀ p, waits_on pd addr p → p.state = .blocked := by
  intro p hp
  simp only [waits_on, Bool.and_eq_true, decide_eq_true_eq] at hp
  exact hp.1.1

theorem every_blocked : ∀ p : Process, decide (p.state = .blocked) → p.state = .blocked :=
  fun _ h => of_decide_eq_true h

theorem expired_blocked (now : Nat) :
    ∀ p : Process, (p.state = .blocked && p.wait_deadline ≠ 0 && 0 ≤ since now p.wait_deadline) →
      p.state = .blocked := by
  intro p hp
  simp only [Bool.and_eq_true, decide_eq_true_eq] at hp
  exact hp.1.1

theorem Inv.wake_each {hit : Process → Bool} {max : Nat} {result : Int} (h : Inv k)
    (hblocked : ∀ p, hit p → p.state = .blocked) : Inv (k.wake_each hit max result).1 where
  toSound := h.toSound.wake_each hblocked
  running := by
    intro me hme
    obtain ⟨p, hp, hstate⟩ := h.running me hme
    exact ⟨p, h.toSound.wake_each_get hblocked hp (by simp [hstate]), hstate⟩
  active := h.active
  idle := by
    intro hnone p' hp'
    obtain ⟨p, hp, hswept⟩ := forall₂_mem (h.swept hblocked max result).1 p' hp'
    cases hswept with
    | kept _ => exact h.idle hnone p' hp
    | woken _ _ => simp [Process.wake]
  handed := h.handed

theorem wake_on_common_inv (h : Inv k) (pd addr : Nat) (max result : Int) :
    Inv (wake_on_common pd addr max result k).1 := by
  unfold wake_on_common
  split
  · exact h
  · exact h.wake_each (waits_on_blocked pd addr)

theorem wake_on_common_moves (h : Inv k) (pd addr : Nat) (max result : Int) :
    Moves (fun p v => addr ≠ 0 ∧ waits_on pd addr p ∧ v = result) k (wake_on_common pd addr max result k).1 := by
  unfold wake_on_common
  split
  · exact .refl k
  · rename_i hzero
    exact (h.moves_wake_each (waits_on_blocked pd addr)).mono fun p v _ _ hv => ⟨hzero, hv⟩

theorem current_space (h : Inv k) :
    (∃ me ∈ k.running, scheduler_current_address_space k = me.page_directory ∧ me.page_directory ≠ 0) ∨
    scheduler_current_address_space k = 0 ∧ ∀ p ∈ k.process_table, p.state ≠ .blocked := by
  cases hme : k.current with
  | none => exact .inr ⟨by simp [scheduler_current_address_space, Kernel.running, hme], h.idle hme⟩
  | some me =>
    obtain ⟨p, hp, _⟩ := h.running me hme
    have hrun : k.running = some p := by simp [Kernel.running, hme, hp]
    exact .inl ⟨p, hrun, by simp [scheduler_current_address_space, hrun],
        (h.tasks p (List.mem_of_getElem? hp)).directory⟩

theorem wake_on_local_eq (addr : Nat) (max result : Int) (k : Kernel) :
    scheduler_wake_on_local addr max result k =
      wake_on_common (scheduler_current_address_space k) addr max result k := by
  unfold scheduler_wake_on_local
  dsimp only
  split
  · rw [‹scheduler_current_address_space k = 0›]
  · rfl

/-! ## The clock -/

theorem Good.tick {ticks : Nat} (h : Good ticks p) : Good (ticks + 1) p :=
  ⟨h.framed, h.directory, fun hb => (h.due hb).tick⟩

theorem Inv.tick (h : Inv k) : Inv { k with ticks := k.ticks + 1 } where
  apart := h.apart
  tasks := fun p hp => (h.tasks p hp).tick
  running := h.running
  active := h.active
  idle := h.idle
  handed := h.handed

/-- After the deadlines have been looked at. -/
def expired (k : Kernel) : Kernel := (scheduler_expire_waits (pit_get_ticks k) (-ETIMEDOUT) k).1

theorem Inv.expired (h : Inv k) : Inv (expired k) := h.wake_each (expired_blocked _)

theorem expired_moves (h : Inv k) :
    Moves (fun p v => p.wait_deadline ≠ 0 ∧ 0 ≤ since (pit_get_ticks k) p.wait_deadline ∧
      v = -ETIMEDOUT) k (expired k) := by
  refine (h.moves_wake_each (expired_blocked _)).mono fun p v _ _ hv => ?_
  obtain ⟨hhit, rfl⟩ := hv
  simp only [Bool.and_eq_true, decide_eq_true_eq] at hhit
  exact ⟨hhit.1.2, hhit.2, rfl⟩

/-- A tick: the deadlines, and then a switch or not. -/
inductive Ticked (regs : Nat) (user : Bool) (k : Kernel) : Kernel → Prop
  | idle : Ticked regs user k k
  | stays (c : Nat) : Ticked regs user k { expired k with tick_countdown := c }
  | switches (me next : Nat) (huser : user = true) (hme : k.current = some me) (hactive : k.active = true)
      (hnext : Runs ((expired k).set me fun p => { p with esp := regs, state := .ready }) next) :
      Ticked regs user k (switch_to next
        { (expired k).set me (fun p => { p with esp := regs, state := .ready }) with
          tick_countdown := SCHED_TICKS_PER_SLICE })

theorem scheduler_tick_ticked (h : Inv k) (regs : Nat) (user : Bool) :
    Ticked regs user k (scheduler_tick regs user k) := by
  unfold scheduler_tick
  split
  · rename_i me hactive hme
    change Ticked regs user k (if !user then expired k else _)
    split
    · exact .stays (expired k).tick_countdown
    · rename_i huser
      split
      · exact .stays _
      · obtain ⟨p, hp, _⟩ := h.expired.running me hme
        -- the task that gives way is itself one that can run
        have hready : Runs ({ expired k with tick_countdown := SCHED_TICKS_PER_SLICE }.set me
            fun p => { p with esp := regs, state := .ready }) me :=
          ⟨{ p with esp := regs, state := .ready }, by simp [Kernel.set, hp], rfl⟩
        obtain ⟨next, hpick, hnext⟩ := pick_next_ready_of_runs hready
        dsimp only
        split
        · rename_i hnone
          cases hpick.symm.trans hnone
        · rename_i hsome
          cases hpick.symm.trans hsome
          exact .switches me next (by simpa using huser) hme hactive hnext
  · exact .idle

theorem Ticked.moves (h : Inv k) {user : Bool} (ht : Ticked regs user k k') :
    Moves (fun p v => p.wait_deadline ≠ 0 ∧ 0 ≤ since (pit_get_ticks k) p.wait_deadline ∧ v = -ETIMEDOUT) k k' := by
  cases ht with
  | idle => exact .refl k
  | stays c => exact expired_moves h
  | switches me next _ hme _ hnext =>
    have hset := (expired_moves h).set (i := me) (f := fun p => { p with esp := regs, state := .ready })
      (fun p hp => by simp [h.awake hme hp]) fun _ => rfl
    exact Moves.switch (k := { (expired k).set me (fun p => { p with esp := regs, state := .ready }) with
      tick_countdown := SCHED_TICKS_PER_SLICE }) hset hnext

theorem Ticked.inv (h : Inv k) {user : Bool} (hregs : user = true → OnStack k regs)
    (ht : Ticked regs user k k') : Inv k' := by
  cases ht with
  | idle => exact h
  | stays c => exact ⟨⟨h.expired.apart, h.expired.tasks⟩, h.expired.running, h.expired.active, h.expired.idle, h.expired.handed⟩
  | switches me next huser hme hactive hnext =>
    obtain ⟨q, hq, hstate⟩ := h.running me hme
    have hkept : (expired k).process_table[me]? = some q :=
      h.wake_each_get (expired_blocked _) hq (by simp [hstate])
    have hset := h.expired.toSound.set (i := me) (f := fun p => { p with esp := regs, state := .ready }) fun p hp => by
      obtain rfl : q = p := Option.some.inj (hkept.symm.trans hp)
      have hgood := h.tasks q (List.mem_of_getElem? hq)
      exact ⟨⟨hregs huser q (by simp [Kernel.running, hme, hq]), hgood.directory, by simp⟩, rfl⟩
    exact Inv.switch (k := { (expired k).set me (fun p => { p with esp := regs, state := .ready }) with
      tick_countdown := SCHED_TICKS_PER_SLICE }) ⟨hset.apart, hset.tasks⟩ h.handed hactive hnext

/-! ## Leaving -/

/-- The task is a zombie, and the rest of the table is as it was. -/
def leaving (k : Kernel) (me : Nat) : Kernel := k.set me fun p => { p with state := .zombie }

/-- Everyone who waits has been woken, for nobody else can run. -/
def rescued (k : Kernel) (me : Nat) : Kernel := (wake_every_blocked (-EAGAIN) (leaving k me)).1

/-- An exit: the scan's choice, or everyone is woken, and then a switch or the end of the batch. -/
inductive Exited (k : Kernel) : Kernel → Prop
  | nobody (hme : k.current = none) : Exited k k
  | next (me i : Nat) (hme : k.current = some me) (hnext : Runs (leaving k me) i) :
      Exited k (switch_to i (leaving k me))
  | stuck (me i : Nat) (hme : k.current = some me) (hnone : ∀ p ∈ (leaving k me).process_table, ¬ p.state.runnable)
      (hnext : Runs (rescued k me) i) : Exited k (switch_to i (rescued k me))
  | ends (me : Nat) (hme : k.current = some me) (hnone : ∀ p ∈ (leaving k me).process_table, ¬ p.state.runnable) :
      Exited k { rescued k me with active := false, current := none }

theorem scheduler_exit_exited (k : Kernel) : Exited k (scheduler_exit_current k) := by
  unfold scheduler_exit_current
  split
  · exact .nobody ‹_›
  · rename_i me hme
    split
    · rename_i k₁ hpick
      rcases pick_next_ready_spec (k := leaving k me) hpick with ⟨-, i, heq, -⟩ | ⟨hnone, rfl, -⟩
      · cases heq
      · exact .ends me hme hnone
    · rename_i k₁ i hpick
      rcases pick_next_ready_spec (k := leaving k me) hpick with ⟨rfl, i, heq, hi⟩ | ⟨hnone, rfl, hnext⟩
      · cases heq
        exact .next me i hme hi
      · exact .stuck me i hme hnone (hnext i rfl)

theorem Inv.leaving (h : Inv k) (me : Nat) : Sound (leaving k me) :=
  h.toSound.set fun p hp => ⟨(h.tasks p (List.mem_of_getElem? hp)).of_awake rfl rfl rfl (by simp), rfl⟩

theorem leaving_moves (h : Inv k) (hme : k.current = some me) (hmoves : Moves why (leaving k me) k') : Moves why k k' :=
  hmoves.after_set (fun p hp => by simp [h.awake hme hp]) (fun _ => rfl) (by simp)

theorem Inv.rescued (h : Inv k) (me : Nat) : Sound (rescued k me) := (h.leaving me).wake_each every_blocked

theorem rescued_moves (h : Inv k) (hme : k.current = some me)
    (hnone : ∀ p ∈ (leaving k me).process_table, ¬ p.state.runnable) :
    Moves (Reason k .exit_current) k (rescued k me) := by
  have hwalk : Moves (fun p v => p.state = .blocked ∧ v = -EAGAIN) (leaving k me) (rescued k me) :=
    ((h.leaving me).moves_wake_each every_blocked).mono fun p v _ hb hv => ⟨hb, hv.2⟩
  refine (leaving_moves h hme hwalk).mono ?_
  rintro p v - - ⟨-, rfl⟩
  refine .stuck fun j q hq hj => hnone q (List.mem_of_getElem? (i := j) ?_)
  have hne : me ≠ j := fun he => hj (he ▸ hme)
  simp [Scheduler32.leaving, Kernel.set, hq, hne]

theorem Exited.moves (h : Inv k) (he : Exited k k') : Moves (Reason k .exit_current) k k' := by
  cases he with
  | nobody _ => exact .refl k
  | next me i hme hnext => exact leaving_moves h hme ((Moves.refl _).switch hnext)
  | stuck me i hme hnone hnext => exact (rescued_moves h hme hnone).switch hnext
  | ends me hme hnone => exact rescued_moves h hme hnone

theorem Exited.inv (h : Inv k) (he : Exited k k') : Inv k' := by
  cases he with
  | nobody _ => exact h
  | next me i hme hnext => exact Inv.switch (h.leaving me) h.handed (h.active.trans (by simp [hme])) hnext
  | stuck me i hme hnone hnext => exact Inv.switch (h.rescued me) h.handed (h.active.trans (by simp [hme])) hnext
  | ends me hme hnone =>
    refine { toSound := ⟨(h.rescued me).apart, (h.rescued me).tasks⟩, running := ?_, active := rfl, idle := ?_,
             handed := h.handed }
    · intro me hme
      cases hme
    · intro _ p hp
      have hall := wake_each_all (fun p : Process => p.state = .blocked) (-EAGAIN)
          (fun p => by simp [Process.wake]) _ _ (leaving k me).mem (Nat.le_refl _) p hp
      simpa using hall

/-! ## Creation, and the batch -/

theorem spawn_inv (h : Inv k) (kstack : Option Nat) (pd : Nat) (frame : Mem)
    (hproper : Proper k (.spawn kstack pd frame)) :
    Inv (scheduler_spawn kstack pd frame k).1 := by
  unfold scheduler_spawn
  split
  · exact h
  · cases kstack with
    | none => exact h
    | some base =>
      obtain ⟨hpd, hfresh⟩ := hproper
      refine { apart := ?_, tasks := ?_, running := ?_, active := h.active, idle := ?_, handed := h.handed }
      · simp only [spawn_common, bases, List.map_append, List.map_cons, List.map_nil]
        refine List.pairwise_append.mpr ⟨h.apart, List.pairwise_singleton _ _, ?_⟩
        intro a ha b hb
        obtain ⟨p, hp, rfl⟩ := List.mem_map.mp ha
        rw [List.mem_singleton] at hb
        exact hb ▸ hfresh base rfl p hp
      · intro p hp
        simp only [spawn_common, List.mem_append, List.mem_singleton] at hp
        rcases hp with hp | rfl
        · exact h.tasks p hp
        · refine ⟨?_, hpd, by simp⟩
          simp only [Process.Framed, PROC_KSTACK_SIZE, FRAME_SIZE]
          omega
      · intro me hme
        obtain ⟨p, hp, hstate⟩ := h.running me hme
        exact ⟨p, by simp [spawn_common, List.getElem?_append_left (List.getElem?_eq_some_iff.mp hp).1, hp], hstate⟩
      · intro hnone p hp
        simp only [spawn_common, List.mem_append, List.mem_singleton] at hp
        rcases hp with hp | rfl
        · exact h.idle hnone p hp
        · simp

theorem spawn_moves (kstack : Option Nat) (pd : Nat) (frame : Mem) (hproper : Proper k (.spawn kstack pd frame)) :
    Moves why k (scheduler_spawn kstack pd frame k).1 := by
  unfold scheduler_spawn
  split
  · exact .refl k
  · cases kstack with
    | none => exact .refl k
    | some base =>
      intro i p hp
      have hfresh := hproper.2 base rfl p (List.mem_of_getElem? hp)
      refine ⟨p, ?_, rfl, .same (fun _ => rfl) fun b hb => Mem.copyAt_outside ?_⟩
      · simp [spawn_common, List.getElem?_append_left (List.getElem?_eq_some_iff.mp hp).1, hp]
      · unfold ApartAt at hfresh
        unfold Process.stack at hb
        simp only [PROC_KSTACK_SIZE, FRAME_SIZE] at *
        omega

theorem run_until_idle_inv (h : Inv k) : Inv (run_until_idle k) := by
  unfold run_until_idle
  split
  · exact h
  · rename_i hlen
    obtain ⟨p, hp⟩ : ∃ p, k.process_table[0]? = some p := ⟨_, List.getElem?_eq_getElem (by omega)⟩
    have hset := h.toSound.set (i := 0) (f := fun p => { p with state := .running }) fun q hq =>
      ⟨(h.tasks q (List.mem_of_getElem? hq)).of_awake rfl rfl rfl (by simp), rfl⟩
    refine { toSound := ⟨hset.apart, hset.tasks⟩, running := ?_, active := rfl, idle := ?_, handed := h.handed }
    · intro me hme
      cases hme
      exact ⟨{ p with state := .running }, by simp [Kernel.set, hp], rfl⟩
    · intro hcur
      cases hcur

theorem run_until_idle_moves (h : Inv k) (hidle : k.active = false) : Moves why k (run_until_idle k) := by
  have hnone : k.current = none := by simpa [h.active] using hidle
  unfold run_until_idle
  split
  · exact .refl k
  · exact (Moves.refl k).set (i := 0) (fun p hp => h.idle hnone p (List.mem_of_getElem? hp)) fun _ => rfl

theorem yield_would_switch_same (h : Inv k) : (scheduler_yield_would_switch k).1 = k := by
  unfold scheduler_yield_would_switch
  split
  · rename_i me hactive hme
    obtain ⟨next, hpick, _⟩ := pick_next_ready_of_runs (h.runs hme)
    rw [hpick]
  · rfl

/-! ## A step -/

theorem step_moves (h : Inv k) (hproper : Proper k a) (hreap : a ≠ .reap_all) : Moves (Reason k a) k (step k a).1 := by
  cases a with
  | block regs addr deadline => exact (block_common_parked h _ _ _ _ _).moves h fun _ => rfl
  | block_retry regs addr deadline => exact (block_common_parked h _ _ _ _ _).moves h fun _ => rfl
  | block_retry_multi regs addrs n deadline => exact (block_common_parked h _ _ _ _ _).moves h fun _ => rfl
  | wake_on addr max result =>
    refine (wake_on_common_moves h 0 addr max result).mono ?_
    rintro p v - - ⟨hzero, hhit, rfl⟩
    simp only [waits_on, Bool.and_eq_true] at hhit
    exact .wake hzero (by simpa using hhit.2)
  | wake_on_local addr max result =>
    change Moves _ k (scheduler_wake_on_local addr max result k).1
    rw [wake_on_local_eq]
    rcases current_space h with ⟨me, hme, hspace, hpd⟩ | ⟨_, hall⟩
    · refine (wake_on_common_moves h _ addr max result).mono ?_
      rintro p v - - ⟨hzero, hhit, rfl⟩
      rw [hspace] at hhit
      simp only [waits_on, hpd, decide_false, Bool.false_or, Bool.and_eq_true, decide_eq_true_eq] at hhit
      exact .wake_local hzero (by simpa using hhit.2) ⟨me, hme, hhit.1.2.symm⟩
    · exact (wake_on_common_moves h _ addr max result).mono fun p v hp hblocked _ => absurd hblocked (hall p hp)
  | tick regs user =>
    have htick : Ticked regs user { k with ticks := k.ticks + 1 } (step k (.tick regs user)).1 :=
      scheduler_tick_ticked h.tick regs user
    have hmoves : Moves (fun p v => p.wait_deadline ≠ 0 ∧ 0 ≤ since ((k.ticks + 1) % 4294967296) p.wait_deadline ∧
        v = -ETIMEDOUT) k (step k (.tick regs user)).1 :=
      Ticked.moves (k := { k with ticks := k.ticks + 1 }) h.tick htick
    refine hmoves.mono fun p v hp hblocked hv => ?_
    obtain ⟨hzero, hsince, rfl⟩ := hv
    exact .deadline hzero (((h.tasks p hp).due hblocked).tick.expired hsince)
  | spawn kstack pd frame => exact spawn_moves kstack pd frame hproper
  | exit_current => exact (scheduler_exit_exited k).moves h
  | yield_would_switch =>
    change Moves _ k (scheduler_yield_would_switch k).1
    rw [yield_would_switch_same h]
    exact .refl k
  | yield_from_trap regs => exact (yield_parked h regs).moves h fun _ => rfl
  | run_until_idle => exact run_until_idle_moves h hproper
  | reap_all => exact absurd rfl hreap

theorem Inv.block (h : Inv k) (regs : Nat) (addrs : List Nat) (n : Int) (deadline : Nat)
    (retry : Bool) (hregs : OnStack k regs) :
    Inv (block_common regs addrs n deadline retry k).1 := by
  refine (block_common_parked h regs addrs n deadline retry).inv h fun p hp => ⟨⟨hregs p hp, ?_, fun _ => ?_⟩, rfl⟩
  · obtain ⟨me, _, hme⟩ := Option.bind_eq_some_iff.mp hp
    exact (h.tasks p (List.mem_of_getElem? hme)).directory
  · exact due_tick_of k deadline rfl rfl

theorem step_inv (h : Inv k) (hproper : Proper k a) : Inv (step k a).1 := by
  cases a with
  | block regs addr deadline => exact h.block regs _ _ deadline _ hproper
  | block_retry regs addr deadline => exact h.block regs _ _ deadline _ hproper
  | block_retry_multi regs addrs n deadline => exact h.block regs addrs n deadline _ hproper
  | wake_on addr max result => exact wake_on_common_inv h 0 addr max result
  | wake_on_local addr max result =>
    change Inv (scheduler_wake_on_local addr max result k).1
    rw [wake_on_local_eq]
    exact wake_on_common_inv h _ addr max result
  | tick regs user => exact (scheduler_tick_ticked h.tick regs user).inv h.tick hproper
  | spawn kstack pd frame => exact spawn_inv h kstack pd frame hproper
  | exit_current => exact (scheduler_exit_exited k).inv h
  | yield_would_switch =>
    change Inv (scheduler_yield_would_switch k).1
    rw [yield_would_switch_same h]
    exact h
  | yield_from_trap regs =>
    refine (yield_parked h regs).inv h fun p hp => ⟨⟨hproper p hp, ?_, by simp⟩, rfl⟩
    obtain ⟨me, _, hme⟩ := Option.bind_eq_some_iff.mp hp
    exact (h.tasks p (List.mem_of_getElem? hme)).directory
  | run_until_idle => exact run_until_idle_inv h
  | reap_all =>
    have hnone : k.current = none := by
      have hidle : k.active = false := hproper
      simpa [h.active] using hidle
    exact { apart := List.Pairwise.nil, tasks := by simp [step, reap_all], running := by simp [step, reap_all, hnone],
            active := h.active, idle := by simp [step, reap_all], handed := h.handed }

/-! ## How many a wake wakes -/

/-- The task waits on the address, which is not zero, and its address space is one of `scope`. -/
def Registered (scope : Nat → Bool) (addr : Nat) (p : Process) : Bool :=
  p.state = .blocked && addr ≠ 0 && p.wait_addr.contains addr && scope p.page_directory

/-- Whom a call is for: every address space, or that of the running task. -/
def scopeOf (k : Kernel) : Act → Option (Nat × Int × (Nat → Bool))
  | .wake_on addr max _ => some (addr, max, fun _ => true)
  | .wake_on_local addr max _ => some (addr, max, fun pd => k.running.any (·.page_directory = pd))
  | _ => none

theorem wake_on_common_count (h : Inv k) (pd addr : Nat) (max result : Int) (scope : Nat → Bool)
    (hscope : ∀ p ∈ k.process_table, p.state = .blocked → (pd = 0 ∨ p.page_directory = pd ↔ scope p.page_directory)) :
    (wake_on_common pd addr max result k).2 = min max.toNat (k.process_table.countP (Registered scope addr)) ∧
    made k.process_table (wake_on_common pd addr max result k).1.process_table =
      (wake_on_common pd addr max result k).2 := by
  unfold wake_on_common
  split
  · rename_i hzero
    refine ⟨?_, made_self _⟩
    have hnone : k.process_table.countP (Registered scope addr) = 0 := by
      rw [List.countP_eq_zero]
      intro p _
      simp [Registered, hzero]
    simp [hnone]
  · rename_i hzero
    obtain ⟨_, hcount, hmade⟩ := h.swept (waits_on_blocked pd addr) max.toNat result
    refine ⟨hcount.trans ?_, hmade⟩
    congr 1
    apply List.countP_congr
    intro p hp
    simp only [waits_on, Registered, Bool.and_eq_true, Bool.or_eq_true, decide_eq_true_eq, List.any_eq_true,
      List.contains_iff_mem, exists_eq_right]
    constructor
    · rintro ⟨⟨hb, hpd⟩, haddr⟩
      exact ⟨⟨⟨hb, hzero⟩, haddr⟩, (hscope p hp hb).mp hpd⟩
    · rintro ⟨⟨⟨hb, _⟩, haddr⟩, hin⟩
      exact ⟨⟨hb, (hscope p hp hb).mpr hin⟩, haddr⟩

theorem step_count (h : Inv k) {addr : Nat} {max : Int} {scope : Nat → Bool}
    (ha : scopeOf k a = some (addr, max, scope)) :
    (step k a).2 = min max.toNat (k.process_table.countP (Registered scope addr)) ∧
    (made k.process_table (step k a).1.process_table : Int) = (step k a).2 := by
  cases a with
  | wake_on addr max result =>
    cases ha
    obtain ⟨hcount, hmade⟩ := wake_on_common_count h 0 addr max result (fun _ => true) (by simp)
    exact ⟨congrArg Nat.cast hcount, congrArg Nat.cast hmade⟩
  | wake_on_local addr max result =>
    cases ha
    change ((scheduler_wake_on_local addr max result k).2 : Int) = _ ∧
      (made k.process_table (scheduler_wake_on_local addr max result k).1.process_table : Int) =
        (scheduler_wake_on_local addr max result k).2
    rw [wake_on_local_eq]
    obtain ⟨hcount, hmade⟩ := wake_on_common_count h (scheduler_current_address_space k) addr max result
      (fun pd => k.running.any (·.page_directory = pd)) fun p hp hb => by
        rcases current_space h with ⟨me, hme, hspace, hpd⟩ | ⟨_, hall⟩
        · rw [Option.mem_def] at hme
          simp [hme, hspace, hpd, eq_comm]
        · exact absurd hb (hall p hp)
    exact ⟨congrArg Nat.cast hcount, congrArg Nat.cast hmade⟩
  | _ => cases ha

/-! ## Every run -/

/-- What call `a` did to those who wait, where it led from `k` to `k'` and answered `r`. -/
structure OwnReason (k : Kernel) (a : Act) (k' : Kernel) (r : Int) : Prop where
  fates : a ≠ .reap_all → Moves (Reason k a) k k'
  reaped : a = .reap_all → (∀ p ∈ k.process_table, p.state ≠ .blocked) ∧ k'.mem = k.mem
  counted : ∀ addr max scope, scopeOf k a = some (addr, max, scope) →
    r = min max.toNat (k.process_table.countP (Registered scope addr)) ∧
    (made k.process_table k'.process_table : Int) = r
  handed : ∀ st ∈ k'.handed, st.runnable

instance : DecidableRel ApartAt := fun _ _ => inferInstanceAs (Decidable (_ ∨ _))

instance (k : Kernel) (regs : Nat) : Decidable (OnStack k regs) := inferInstanceAs (Decidable (∀ p ∈ k.running, _))

instance decidableProper (k : Kernel) : ∀ a, Decidable (Proper k a)
  | .block regs _ _ => inferInstanceAs (Decidable (OnStack k regs))
  | .block_retry regs _ _ => inferInstanceAs (Decidable (OnStack k regs))
  | .block_retry_multi regs _ _ _ => inferInstanceAs (Decidable (OnStack k regs))
  | .tick regs user => inferInstanceAs (Decidable (user = true → OnStack k regs))
  | .yield_from_trap regs => inferInstanceAs (Decidable (OnStack k regs))
  | .spawn kstack pd _ => inferInstanceAs (Decidable
      (pd ≠ 0 ∧ ∀ base ∈ kstack, ∀ p ∈ k.process_table, ApartAt p.kernel_stack_base base))
  | .run_until_idle => inferInstanceAs (Decidable (k.active = false))
  | .reap_all => inferInstanceAs (Decidable (k.active = false))
  | .wake_on _ _ _ => inferInstanceAs (Decidable True)
  | .wake_on_local _ _ _ => inferInstanceAs (Decidable True)
  | .exit_current => inferInstanceAs (Decidable True)
  | .yield_would_switch => inferInstanceAs (Decidable True)

/-- **A blocked task runs again only for its own reason**, in every run. -/
theorem blocked_own_reason (m : Mem) (as : List Act) (a : Act)
    (hrun : scheduler.Guarded Proper (booted m) (as ++ [a])) :
    OwnReason (scheduler.run (booted m) as) a (scheduler.step (scheduler.run (booted m) as) a).1
      (scheduler.step (scheduler.run (booted m) as) a).2 := by
  obtain ⟨has, ha, _⟩ := (scheduler.guarded_append as [a] (booted m)).mp hrun
  have hstep : ∀ k a, Inv k → Proper k a → Inv (scheduler.step k a).1 := fun k a h hp => step_inv h hp
  have h := scheduler.invariant_of_step hstep as (booted m) (Inv.booted m) has
  refine ⟨step_moves h ha, ?_, fun addr max scope => step_count h, (step_inv h ha).handed⟩
  rintro rfl
  have hidle : (scheduler.run (booted m) as).active = false := ha
  exact ⟨h.idle (by simpa [h.active] using hidle), rfl⟩

/-- Two threads of one process: the first waits on an address, the second wakes it. -/
def two_threads : List Act :=
  [.spawn (some 0x100000) 0x1000 (fun _ => 0), .spawn (some 0x200000) 0x1000 (fun _ => 0), .run_until_idle,
   .block 0x101FB4 0x5000 0]

theorem blocked_own_reason_two_threads :
    (scheduler.step (scheduler.run (booted fun _ => 0) two_threads) (.wake_on_local 0x5000 7 0)).2 = 1 ∧
    OwnReason (scheduler.run (booted fun _ => 0) two_threads) (.wake_on_local 0x5000 7 0)
      (scheduler.step (scheduler.run (booted fun _ => 0) two_threads) (.wake_on_local 0x5000 7 0)).1
      (scheduler.step (scheduler.run (booted fun _ => 0) two_threads) (.wake_on_local 0x5000 7 0)).2 :=
  ⟨by decide, blocked_own_reason _ two_threads _ (by decide)⟩

end NovarisOS.Scheduler32
