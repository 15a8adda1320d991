/-
NovarisOS.Scheduler32.Waking — what one call of the scheduler can do to a task
that waits.

Everything that ends a wait is one walk over the table (`wake_each`), and
`wake_each_spec` says what a walk does: which tasks it wakes, what it writes,
how many it counts. What else a call does to the table it does to the task
that is running, which is not blocked, or to the task it switches to, which
the scan has found runnable.
-/
import Mathlib.Data.List.Forall2
import NovarisOS.Scheduler32.Tasks

namespace NovarisOS.Scheduler32

open ProcessState

/-! ## Stacks and frames -/

/-- Byte `b` is on the task's kernel stack. -/
def Process.stack (p : Process) (b : Nat) : Prop :=
  p.kernel_stack_base ≤ b ∧ b < p.kernel_stack_base + PROC_KSTACK_SIZE

/-- The saved frame is on the task's own stack. -/
def Process.Framed (p : Process) : Prop :=
  p.kernel_stack_base ≤ p.esp ∧ p.esp + FRAME_SIZE ≤ p.kernel_stack_base + PROC_KSTACK_SIZE

/-- Two stacks do not overlap. -/
def ApartAt (a b : Nat) : Prop := a + PROC_KSTACK_SIZE ≤ b ∨ b + PROC_KSTACK_SIZE ≤ a

/-- The kernel stacks of a table, slot by slot. -/
def bases (ps : List Process) : List Nat := ps.map (·.kernel_stack_base)

variable {k k' k₁ : Kernel} {p p' q : Process} {ps : List Process} {m m' : Mem} {b i me next : Nat}
variable {hit : Process → Bool} {result : Int} {f : Process → Process}

theorem answer_outside (hp : p.Framed) (hb : ¬ p.stack b) : p.answer result m b = m b := by
  unfold Process.answer
  split
  · rfl
  · apply Mem.wr32_outside
    unfold Process.Framed at hp
    unfold Process.stack at hb
    simp only [FRAME_EAX, FRAME_SIZE, PROC_KSTACK_SIZE] at *
    omega

theorem not_stack_of_apart (h : ApartAt p.kernel_stack_base q.kernel_stack_base) (hb : p.stack b) : ¬ q.stack b := by
  unfold ApartAt at h
  unfold Process.stack at *
  omega

/-! ## One walk over the table -/

/-- What a walk may have done to a task: nothing, or it was one of those looked for and is awake. -/
inductive Swept (hit : Process → Bool) (result : Int) (m m' : Mem) (p : Process) : Process → Prop
  | kept (hmem : ∀ b, p.stack b → m' b = m b) : Swept hit result m m' p p
  | woken (hhit : hit p) (hmem : ∀ b, p.stack b → m' b = p.answer result m b) : Swept hit result m m' p p.wake

theorem answer_congr {m₀ : Mem} (h : m b = m₀ b) : p.answer result m b = p.answer result m₀ b := by
  unfold Process.answer
  split
  · exact h
  · simp only [Mem.wr32, h]

theorem Swept.before {m₀ : Mem} (h : Swept hit result m m' p p') (hm : ∀ b, p.stack b → m b = m₀ b) :
    Swept hit result m₀ m' p p' := by
  cases h with
  | kept hmem => exact .kept fun b hb => (hmem b hb).trans (hm b hb)
  | woken hhit hmem => exact .woken hhit fun b hb => (hmem b hb).trans (answer_congr (hm b hb))

/-- How many tasks blocked in one table are not in another. -/
def made (ps ps' : List Process) : Nat :=
  (ps.zip ps').countP fun x => x.1.state = .blocked && x.2.state ≠ .blocked

theorem made_cons (p p' : Process) (ps ps' : List Process) :
    made (p :: ps) (p' :: ps') = made ps ps' + if p.state = .blocked ∧ p'.state ≠ .blocked then 1 else 0 := by
  simp [made, List.countP_cons]

theorem made_self (ps : List Process) : made ps ps = 0 := by
  induction ps with
  | nil => rfl
  | cons p ps ih => rw [made_cons, ih, if_neg (fun h => h.2 h.1)]

theorem wake_each_spec (hblocked : ∀ p, hit p → p.state = .blocked) :
    ∀ (ps : List Process) (max : Nat) (m : Mem), (bases ps).Pairwise ApartAt → (∀ p ∈ ps, p.Framed) →
      ∀ r, wake_each hit result max ps m = r →
        ps.Forall₂ (Swept hit result m r.2.1) r.1 ∧
        (∀ b, (∀ p ∈ ps, ¬ p.stack b) → r.2.1 b = m b) ∧
        r.2.2 = min max (ps.countP hit) ∧ made ps r.1 = r.2.2 := by
  intro ps
  induction ps with
  | nil =>
    rintro max m - - r rfl
    simp [wake_each, made]
  | cons p ps ih =>
    intro max m hapart hframed r hr
    obtain ⟨hhead, htail⟩ := List.pairwise_cons.mp hapart
    obtain ⟨hp, hps⟩ := List.forall_mem_cons.mp hframed
    have haway : ∀ q ∈ ps, ApartAt p.kernel_stack_base q.kernel_stack_base :=
      fun q hq => hhead _ (List.mem_map.mpr ⟨q, hq, rfl⟩)
    have hsame : ∀ b, p.stack b → ∀ q ∈ ps, ¬ q.stack b := fun b hb q hq => not_stack_of_apart (haway q hq) hb
    cases max with
    | zero =>
      subst hr
      exact ⟨List.forall₂_same.mpr fun q _ => .kept fun b _ => rfl, fun b _ => rfl, by simp [wake_each], made_self _⟩
    | succ max =>
      rw [wake_each] at hr
      split at hr
      · rename_i hhit
        obtain ⟨hfates, hrest, hcount, hmade⟩ := ih max (p.answer result m) htail hps _ rfl
        generalize wake_each hit result max ps (p.answer result m) = r₁ at *
        subst hr
        dsimp only at hfates hrest hcount hmade ⊢
        refine ⟨.cons (.woken hhit fun b hb => hrest b (hsame b hb)) ?_, ?_, ?_, ?_⟩
        · refine ((List.forall₂_and_left _ _).mpr ⟨haway, hfates⟩).imp fun q q' h => h.2.before fun b hb => ?_
          exact answer_outside hp fun hb' => not_stack_of_apart h.1 hb' hb
        · intro b hb
          obtain ⟨hbp, hbps⟩ := List.forall_mem_cons.mp hb
          exact (hrest b hbps).trans (answer_outside hp hbp)
        · rw [List.countP_cons_of_pos hhit, hcount]
          omega
        · rw [made_cons, hmade, if_pos ⟨hblocked p hhit, by simp [Process.wake]⟩]
      · rename_i hmiss
        obtain ⟨hfates, hrest, hcount, hmade⟩ := ih (max + 1) m htail hps _ rfl
        generalize wake_each hit result (max + 1) ps m = r₁ at *
        subst hr
        refine ⟨.cons (.kept fun b hb => hrest b (hsame b hb)) hfates, ?_, ?_, ?_⟩
        · exact fun b hb => hrest b (List.forall_mem_cons.mp hb).2
        · rw [List.countP_cons_of_neg hmiss, hcount]
        · rw [made_cons, hmade, if_neg (fun h => h.2 h.1), Nat.add_zero]

theorem wake_each_all (hit : Process → Bool) (result : Int) (hwake : ∀ p : Process, ¬ hit p.wake) :
    ∀ (ps : List Process) (max : Nat) (m : Mem), ps.length ≤ max →
    ∀ p ∈ (wake_each hit result max ps m).1, ¬ hit p := by
  intro ps
  induction ps with
  | nil =>
    intro max m _ p hp
    simp [wake_each] at hp
  | cons q ps ih =>
    intro max m hmax p hp
    obtain ⟨max, rfl⟩ : ∃ n, max = n + 1 := ⟨max - 1, by simp at hmax; omega⟩
    simp only [List.length_cons] at hmax
    rw [wake_each] at hp
    split at hp
    · rcases List.mem_cons.mp hp with rfl | hp
      · exact hwake q
      · exact ih max _ (by omega) p hp
    · rcases List.mem_cons.mp hp with rfl | hp
      · assumption
      · exact ih (max + 1) _ (by omega) p hp

/-! ## Deadlines -/

/-- A deadline not yet due is the tick it stands for, as far as 32 bits tell. -/
def Process.Due (ticks : Nat) (p : Process) : Prop :=
  p.due ≤ ticks ∨ p.due ≤ ticks + 2147483648 ∧ p.due % 4294967296 = p.wait_deadline % 4294967296

theorem Process.Due.tick {ticks : Nat} (h : p.Due ticks) : p.Due (ticks + 1) := by
  unfold Process.Due at *
  omega

theorem since_spec (now deadline : Nat) : since now deadline % 4294967296 = ((now : Int) - deadline) % 4294967296 ∧
    -2147483648 ≤ since now deadline ∧ since now deadline < 2147483648 := by
  unfold since
  have hlo := Int.le_bmod (x := (now : Int) - deadline) (m := 4294967296) (by decide)
  have hhi := Int.bmod_lt (x := (now : Int) - deadline) (m := 4294967296) (by decide)
  exact ⟨Int.bmod_emod, by omega, by omega⟩

theorem Process.Due.expired {ticks : Nat} (h : p.Due ticks) (hsince : 0 ≤ since (ticks % 4294967296) p.wait_deadline) :
    p.due ≤ ticks := by
  rcases h with h | ⟨hle, hmod⟩
  · exact h
  · obtain ⟨hmod', hlo, hhi⟩ := since_spec (ticks % 4294967296) p.wait_deadline
    omega

theorem due_tick_of (k : Kernel) (deadline : Nat) (hdue : p.due = tick_of k deadline)
    (hd : p.wait_deadline = deadline) :
    p.Due k.ticks := by
  unfold Process.Due
  rw [hdue, hd]
  obtain ⟨hmod, hlo, hhi⟩ := since_spec (pit_get_ticks k) deadline
  unfold tick_of
  unfold pit_get_ticks at *
  omega

/-! ## The table -/

structure Good (ticks : Nat) (p : Process) : Prop where
  framed : p.Framed
  directory : p.page_directory ≠ 0
  due : p.state = .blocked → p.Due ticks

/-- Frames on their own stacks, stacks apart, deadlines known. -/
structure Sound (k : Kernel) : Prop where
  apart : (bases k.process_table).Pairwise ApartAt
  tasks : ∀ p ∈ k.process_table, Good k.ticks p

theorem Good.of_awake {ticks : Nat} (h : Good ticks p) (hesp : q.esp = p.esp)
    (hbase : q.kernel_stack_base = p.kernel_stack_base)
    (hpd : q.page_directory = p.page_directory) (hstate : q.state ≠ .blocked) : Good ticks q :=
  ⟨by unfold Process.Framed; rw [hesp, hbase]; exact h.framed, by rw [hpd]; exact h.directory,
    fun hb => absurd hb hstate⟩

theorem Good.wake {ticks : Nat} (h : Good ticks p) : Good ticks p.wake :=
  h.of_awake rfl rfl rfl (by simp [Process.wake])

theorem get_modify (ps : List Process) (i j : Nat) (f : Process → Process) :
    (ps.modify i f)[j]? = (ps[j]?).map (if i = j then f else id) := by
  rw [List.getElem?_modify]
  split <;> simp

theorem bases_modify (hf : ∀ p, ps[i]? = some p → (f p).kernel_stack_base = p.kernel_stack_base) :
    bases (ps.modify i f) = bases ps := by
  unfold bases
  apply List.ext_getElem?
  intro j
  simp only [List.getElem?_map, get_modify]
  cases hj : ps[j]? with
  | none => rfl
  | some p =>
    by_cases hij : i = j
    · subst hij
      simp [hf p hj]
    · simp [hij]

theorem Sound.set (h : Sound k) (hf : ∀ p, k.process_table[i]? = some p →
    Good k.ticks (f p) ∧ (f p).kernel_stack_base = p.kernel_stack_base) : Sound (k.set i f) where
  apart := by
    rw [Kernel.set, bases_modify fun p hp => (hf p hp).2]
    exact h.apart
  tasks := by
    intro p hp
    obtain ⟨j, hj⟩ := List.mem_iff_getElem?.mp hp
    rw [Kernel.set, get_modify, Option.map_eq_some_iff] at hj
    obtain ⟨q, hq, rfl⟩ := hj
    split
    · subst_vars
      exact (hf q hq).1
    · exact h.tasks q (List.mem_of_getElem? hq)

/-! ## What a call may do to a task -/

/-- A task is as it was, or it was blocked and has been woken: `why` says which
tasks are, and with what answer. -/
inductive Fate (why : Process → Int → Prop) (m m' : Mem) (p p' : Process) : Prop
  | same (hstate : p.state = .blocked → p' = p) (hmem : ∀ b, p.stack b → m' b = m b)
  | woken (v : Int) (hblocked : p.state = .blocked) (hruns : p'.state.runnable) (hwhy : why p v)
      (hmem : ∀ b, p.stack b → m' b = p.answer v m b)

/-- Every task of one table is still in its slot of the other, and met its fate in between. -/
def Moves (why : Process → Int → Prop) (k k' : Kernel) : Prop :=
  ∀ (i : Nat) (p : Process), k.process_table[i]? = some p → ∃ p', k'.process_table[i]? = some p' ∧
    p'.kernel_stack_base = p.kernel_stack_base ∧ Fate why k.mem k'.mem p p'

variable {why why' : Process → Int → Prop}

theorem Moves.refl (k : Kernel) : Moves why k k :=
  fun _ p hp => ⟨p, hp, rfl, .same (fun _ => rfl) fun _ _ => rfl⟩

theorem Moves.mono (h : Moves why k k')
    (hwhy : ∀ p v, p ∈ k.process_table → p.state = .blocked → why p v → why' p v) : Moves why' k k' := by
  intro i p hp
  obtain ⟨p', hp', hbase, hfate⟩ := h i p hp
  refine ⟨p', hp', hbase, ?_⟩
  cases hfate with
  | same hstate hmem => exact .same hstate hmem
  | woken v hblocked hruns hv hmem =>
    exact .woken v hblocked hruns (hwhy p v (List.mem_of_getElem? hp) hblocked hv) hmem

theorem Moves.set (h : Moves why k₁ k) (hme : ∀ p, k₁.process_table[i]? = some p → p.state ≠ .blocked)
    (hf : ∀ p, (f p).kernel_stack_base = p.kernel_stack_base) : Moves why k₁ (k.set i f) := by
  intro j p hp
  obtain ⟨p', hp', hbase, hfate⟩ := h j p hp
  by_cases hij : i = j
  · subst hij
    refine ⟨f p', by simp [Kernel.set, hp'], (hf p').trans hbase, ?_⟩
    cases hfate with
    | same hstate hmem => exact .same (fun hb => absurd hb (hme p hp)) hmem
    | woken v hblocked hruns hv hmem => exact absurd hblocked (hme p hp)
  · exact ⟨p', by simp [Kernel.set, hp', hij], hbase, hfate⟩

theorem Moves.after_set (h : Moves why (k.set i f) k') (hme : ∀ p, k.process_table[i]? = some p → p.state ≠ .blocked)
    (hf : ∀ p, (f p).kernel_stack_base = p.kernel_stack_base) (hstate : ∀ p, (f p).state ≠ .blocked) :
    Moves why k k' := by
  intro j p hp
  by_cases hij : i = j
  · subst hij
    obtain ⟨p', hp', hbase, hfate⟩ := h i (f p) (by simp [Kernel.set, hp])
    refine ⟨p', hp', hbase.trans (hf p), ?_⟩
    cases hfate with
    | same _ hmem =>
      refine .same (fun hb => absurd hb (hme p hp)) fun b hb => hmem b ?_
      unfold Process.stack at *
      rwa [hf p]
    | woken v hblocked hruns hv hmem => exact absurd hblocked (hstate p)
  · exact h j p (by simp [Kernel.set, hp, hij])

/-- The slot holds a task that can run. -/
def Runs (k : Kernel) (i : Nat) : Prop := ∃ p, k.process_table[i]? = some p ∧ p.state.runnable

theorem Moves.switch (h : Moves why k₁ k) (hnext : Runs k next) : Moves why k₁ (switch_to next k) := by
  intro j p hp
  obtain ⟨p', hp', hbase, hfate⟩ := h j p hp
  by_cases hij : next = j
  · subst hij
    obtain ⟨q, hq, hruns⟩ := hnext
    obtain rfl : q = p' := Option.some.inj (hq.symm.trans hp')
    refine ⟨{ q with state := .running }, by simp [switch_to, Kernel.set, hp'], hbase, ?_⟩
    cases hfate with
    | same hstate hmem =>
      refine .same (fun hb => ?_) hmem
      rw [hstate hb, hb] at hruns
      exact absurd hruns (by decide)
    | woken v hblocked _ hv hmem => exact .woken v hblocked rfl hv hmem
  · exact ⟨p', by simp [switch_to, Kernel.set, hp', hij], hbase, hfate⟩

/-! ## One walk, seen from the kernel -/

theorem forall₂_get {R : Process → Process → Prop} : ∀ {ps ps' : List Process}, ps.Forall₂ R ps' →
    ∀ (i : Nat) (p : Process), ps[i]? = some p → ∃ p', ps'[i]? = some p' ∧ R p p'
  | _, _, .nil, i, p, hp => by simp at hp
  | _, _, .cons h hs, 0, p, hp => ⟨_, rfl, by simp at hp; exact hp ▸ h⟩
  | _, _, .cons h hs, i + 1, p, hp => forall₂_get hs i p hp

theorem forall₂_mem {R : Process → Process → Prop} : ∀ {ps ps' : List Process}, ps.Forall₂ R ps' →
    ∀ p' ∈ ps', ∃ p ∈ ps, R p p'
  | _, _, .nil, p', hp' => by simp at hp'
  | _, _, .cons h hs, p', hp' => by
    rcases List.mem_cons.mp hp' with rfl | hp'
    · exact ⟨_, List.mem_cons_self, h⟩
    · obtain ⟨p, hp, hR⟩ := forall₂_mem hs p' hp'
      exact ⟨p, List.mem_cons_of_mem _ hp, hR⟩

theorem Swept.base (h : Swept hit result m m' p p') : p'.kernel_stack_base = p.kernel_stack_base := by
  cases h <;> rfl

theorem bases_of_forall₂ {ps ps' : List Process} (h : ps.Forall₂ (Swept hit result m m') ps') :
    bases ps' = bases ps := by
  induction h with
  | nil => rfl
  | cons h _ ih => rw [bases, bases, List.map_cons, List.map_cons, h.base]; exact congrArg _ ih

variable {max : Nat}

theorem Sound.swept (h : Sound k) (hblocked : ∀ p, hit p → p.state = .blocked) (max : Nat) (result : Int) :
    k.process_table.Forall₂ (Swept hit result k.mem (k.wake_each hit max result).1.mem)
      (k.wake_each hit max result).1.process_table ∧
    (k.wake_each hit max result).2 = min max (k.process_table.countP hit) ∧
    made k.process_table (k.wake_each hit max result).1.process_table = (k.wake_each hit max result).2 := by
  obtain ⟨hfates, _, hcount, hmade⟩ := wake_each_spec hblocked k.process_table max k.mem h.apart
    (fun p hp => (h.tasks p hp).framed) _ rfl
  exact ⟨hfates, hcount, hmade⟩

theorem Sound.wake_each (h : Sound k) (hblocked : ∀ p, hit p → p.state = .blocked) :
    Sound (k.wake_each hit max result).1 := by
  obtain ⟨hfates, _⟩ := h.swept hblocked max result
  constructor
  · rw [bases_of_forall₂ hfates]
    exact h.apart
  · intro p' hp'
    obtain ⟨p, hp, hswept⟩ := forall₂_mem hfates p' hp'
    cases hswept with
    | kept _ => exact h.tasks p' hp
    | woken _ _ => exact (h.tasks p hp).wake

theorem Sound.moves_wake_each (h : Sound k) (hblocked : ∀ p, hit p → p.state = .blocked) :
    Moves (fun p v => hit p ∧ v = result) k (k.wake_each hit max result).1 := by
  intro i p hp
  obtain ⟨hfates, _⟩ := h.swept hblocked max result
  obtain ⟨p', hp', hswept⟩ := forall₂_get hfates i p hp
  refine ⟨p', hp', hswept.base, ?_⟩
  cases hswept with
  | kept hmem => exact .same (fun _ => rfl) hmem
  | woken hhit hmem => exact .woken result (hblocked p hhit) rfl ⟨hhit, rfl⟩ hmem

theorem Sound.wake_each_get (h : Sound k) (hblocked : ∀ p, hit p → p.state = .blocked)
    (hp : k.process_table[i]? = some p) (hstate : p.state ≠ .blocked) :
    (k.wake_each hit max result).1.process_table[i]? = some p := by
  obtain ⟨hfates, _⟩ := h.swept hblocked max result
  obtain ⟨p', hp', hswept⟩ := forall₂_get hfates i p hp
  cases hswept with
  | kept _ => exact hp'
  | woken hhit _ => exact absurd (hblocked p hhit) hstate

/-! ## Choosing -/

theorem scan_runnable_some (h : scan_runnable i k = some next) : Runs k next := by
  have hruns := List.find?_some h
  simp only [Option.any_eq_true] at hruns
  exact hruns

theorem scan_runnable_none (h : scan_runnable i k = none) : ∀ p ∈ k.process_table, ¬ p.state.runnable := by
  intro p hp hruns
  obtain ⟨j, hj⟩ := List.mem_iff_getElem?.mp hp
  have hlt : j < k.process_table.length := (List.getElem?_eq_some_iff.mp hj).1
  unfold scan_runnable at h
  generalize k.process_table.length = n at h hlt
  have hn : 0 < n := by omega
  have hc : i % n < n := Nat.mod_lt _ hn
  -- the round comes to slot `j` after this many steps
  have hround : ∃ off, off < n ∧ (i + (off + 1)) % n = j := by
    rcases Nat.lt_or_ge (i % n) j with hlow | hhigh
    · refine ⟨j - 1 - i % n, by omega, ?_⟩
      rw [← Nat.mod_add_mod, show i % n + (j - 1 - i % n + 1) = j by omega, Nat.mod_eq_of_lt hlt]
    · refine ⟨j + n - 1 - i % n, by omega, ?_⟩
      rw [← Nat.mod_add_mod, show i % n + (j + n - 1 - i % n + 1) = j + n by omega, Nat.add_mod_right,
        Nat.mod_eq_of_lt hlt]
  obtain ⟨off, hoff, hj'⟩ := hround
  rw [List.find?_eq_none] at h
  refine h j (List.mem_map.mpr ⟨off, List.mem_range.mpr hoff, hj'⟩) ?_
  simp [hj, hruns]

theorem pick_next_ready_spec {next : Option Nat} (h : pick_next_ready k = (k', next)) :
    (k' = k ∧ ∃ i, next = some i ∧ Runs k i) ∨
    ((∀ p ∈ k.process_table, ¬ p.state.runnable) ∧ k' = (wake_every_blocked (-EAGAIN) k).1 ∧
      ∀ i, next = some i → Runs k' i) := by
  unfold pick_next_ready at h
  dsimp only at h
  split at h
  · rename_i i hi
    cases h
    exact .inl ⟨rfl, i, rfl, scan_runnable_some hi⟩
  · rename_i hnone
    split at h
    · cases h
      exact .inr ⟨scan_runnable_none hnone, rfl, fun i hi => scan_runnable_some hi⟩
    · cases h
      exact .inr ⟨scan_runnable_none hnone, rfl, fun i hi => by simp at hi⟩

theorem pick_next_ready_of_runs (hruns : Runs k i) : ∃ j, pick_next_ready k = (k, some j) ∧ Runs k j := by
  rcases hpick : pick_next_ready k with ⟨k', next⟩
  rcases pick_next_ready_spec hpick with ⟨rfl, j, rfl, hj⟩ | ⟨hnone, _⟩
  · exact ⟨j, rfl, hj⟩
  · obtain ⟨p, hp, hstate⟩ := hruns
    exact absurd hstate (hnone p (List.mem_of_getElem? hp))

end NovarisOS.Scheduler32
