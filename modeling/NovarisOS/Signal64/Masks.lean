/-
NovarisOS.Signal64.Masks — masks come back, and two signals are never in one.

Any number of threads call the functions of `Signal64.Signals` in any order. A
call that changes the mask for its duration is watched from its first
`signal64_push_mask` to the `signal64_pop_mask` or the delivery that ends it,
and what the thread's mask was before it is kept beside the tables
(`Watched.calls`).
-/
import NovarisOS.Signal64.Frames

namespace NovarisOS.Signal64

open Function (update update_eq_self update_of_ne update_self)

inductive Op where
  | sigprocmask (cur : Option Nat) (how : Nat) (set : Option Word) (setsize : Nat)
  | push (cur : Option Nat) (userSet : Word)
  | pop (cur : Option Nat)
  | deliver (cur : Option Nat) (slot sig : Nat) (thr : Thread) (faultAddr : Word)
  | sigreturn (cur : Option Nat) (userRsp : Word) (thr : Thread)
  | taskStart (tid : Nat) (fromTid : Option Nat)
  | exec (cur : Option Nat) (slot : Nat)
  | sigaction (slot sig : Nat) (act : Action)
  | sigaltstack (cur : Option Nat) (disable : Bool) (sp size curRsp : Word)

/-- The tables after it. -/
def Signals.after (s : Signals) : Op → Signals
  | .sigprocmask cur how set setsize => (s.sigprocmask cur how set setsize).2
  | .push cur userSet => s.pushMask cur userSet
  | .pop cur => (s.popMask cur).2
  | .deliver cur slot sig thr faultAddr => (s.deliver cur slot sig thr faultAddr).2.1
  | .sigreturn cur userRsp thr => (s.sigreturn cur userRsp thr).1
  | .taskStart tid fromTid => s.taskStart tid fromTid
  | .exec cur slot => s.exec cur slot
  | .sigaction slot sig act => (s.sigaction slot sig act).2
  | .sigaltstack cur disable sp size curRsp => (s.sigaltstack cur disable sp size curRsp).2

structure Watched where
  signals : Signals
  /-- The mask a thread had before the first push of the call it is in. -/
  calls : Nat → Option Word

/-- The first push begins a call; a pop, a delivery that goes through and a
new thread in the slot end it. -/
def Watched.note (w : Watched) : Op → Nat → Option Word
  | .push (some t) _ => update w.calls t (some ((w.calls t).getD (w.signals.blocked t)))
  | .pop (some t) => update w.calls t none
  | .deliver (some t) slot sig thr faultAddr =>
    if (w.signals.deliver (some t) slot sig thr faultAddr).1 = 1 then update w.calls t none else w.calls
  | .taskStart tid _ => update w.calls tid none
  | _ => w.calls

def watched : Machine Watched Op Unit := ⟨fun w op => (⟨w.signals.after op, w.note op⟩, ())⟩

def Watched.init : Watched := ⟨Signals.init, fun _ => none⟩

/-- Ending the call that `t` is in gives it the mask `m` back: a pop at once, a
delivery when its `rt_sigreturn` finds the mask it wrote, whatever happened in
between. -/
structure Watched.Restores (w : Watched) (t : Nat) (m : Word) : Prop where
  pop : (w.signals.popMask (some t)).2.blocked t = m
  deliver : ∀ slot sig thr faultAddr, (w.signals.deliver (some t) slot sig thr faultAddr).1 = 1 →
    ∀ (later : Signals) (thr' : Thread),
      thr'.mem.word ((w.signals.deliver (some t) slot sig thr faultAddr).2.2.regs.rsp + 304) =
        (w.signals.deliver (some t) slot sig thr faultAddr).2.2.mem.word
          ((w.signals.deliver (some t) slot sig thr faultAddr).2.2.regs.rsp + 304) →
      (later.sigreturn (some t)
        ((w.signals.deliver (some t) slot sig thr faultAddr).2.2.regs.rsp + 8) thr').1.blocked t = m

/-! ## Signal sets -/

/-- Neither of the two signals, nor a signal zero. -/
structure Clean (k : Word) : Prop where
  zero : k.getLsbD 0 = false
  kill : k.getLsbD SIG64_KILLSIG = false
  stop : k.getLsbD SIG64_STOP = false

theorem Clean.empty : Clean 0 := ⟨by decide, by decide, by decide⟩

theorem getLsbD_unblockable : ∀ i < 64,
    UNBLOCKABLE.getLsbD i = (decide (i = SIG64_KILLSIG) || decide (i = SIG64_STOP)) := by decide

theorem Clean.of_masked {k : Word} (h : k.getLsbD 0 = false) : Clean (k &&& ~~~UNBLOCKABLE) := by
  refine ⟨?_, ?_, ?_⟩
  · rw [BitVec.getLsbD_and, h]
    rfl
  · rw [BitVec.getLsbD_and, BitVec.getLsbD_not, getLsbD_unblockable _ (by decide)]
    simp
  · rw [BitVec.getLsbD_and, BitVec.getLsbD_not, getLsbD_unblockable _ (by decide)]
    simp

theorem Clean.fromUser (u : Word) : Clean (fromUserSet u) := by
  apply Clean.of_masked
  simp

theorem Clean.or {k k' : Word} (h : Clean k) (h' : Clean k') : Clean (k ||| k') :=
  ⟨by rw [BitVec.getLsbD_or, h.zero, h'.zero]; rfl, by rw [BitVec.getLsbD_or, h.kill, h'.kill]; rfl,
    by rw [BitVec.getLsbD_or, h.stop, h'.stop]; rfl⟩

theorem Clean.and {k : Word} (h : Clean k) (k' : Word) : Clean (k &&& k') :=
  ⟨by rw [BitVec.getLsbD_and, h.zero]; rfl, by rw [BitVec.getLsbD_and, h.kill]; rfl,
    by rw [BitVec.getLsbD_and, h.stop]; rfl⟩

theorem Clean.roundTrip {k : Word} (h : Clean k) : fromUserSet (toUserSet k) = k := by
  apply BitVec.eq_of_getLsbD_eq
  intro i hi
  rw [fromUserSet, toUserSet, BitVec.getLsbD_and, BitVec.getLsbD_not, BitVec.getLsbD_shiftLeft,
    BitVec.getLsbD_ushiftRight, getLsbD_unblockable i hi]
  by_cases hzero : i = 0
  · subst hzero
    rw [h.zero]
    simp
  · have hback : 1 + (i - 1) = i := by omega
    have hpos : ¬ i < 1 := by omega
    rw [hback]
    by_cases hkill : i = SIG64_KILLSIG
    · subst hkill
      simp [h.kill]
    · by_cases hstop : i = SIG64_STOP
      · subst hstop
        simp [h.stop]
      · simp [hi, hpos, hkill, hstop]

theorem Clean.handlerMask {was : Word} (h : Clean was) {sig : Nat} (hsig : sig ≠ 0) (act : Action) :
    Clean (Signals.handlerMask was sig act) := by
  apply Clean.of_masked
  have hor := h.or (.fromUser act.mask)
  split
  · exact hor.zero
  · rw [BitVec.getLsbD_or, hor.zero, bit, BitVec.getLsbD_shiftLeft]
    simpa using Nat.pos_of_ne_zero hsig

/-! ## What every call keeps -/

structure Watched.Ok (w : Watched) : Prop where
  blocked : ∀ t, Clean (w.signals.blocked t)
  calling : ∀ t m, w.calls t = some m → w.signals.hasSaved t = true ∧ w.signals.saved t = m ∧ Clean m
  idle : ∀ t, w.calls t = none → w.signals.hasSaved t = false

namespace Watched.Ok

variable {w : Watched}

theorem init : Watched.init.Ok := ⟨fun _ => .empty, fun _ _ h => (by cases h), fun _ _ => rfl⟩

theorem myBlocked (h : w.Ok) (cur : Option Nat) : Clean (w.signals.myBlocked cur) := by
  cases cur with
  | none => exact .empty
  | some t => exact h.blocked t

theorem frame (h : w.Ok) {s' : Signals} (hb : s'.blocked = w.signals.blocked) (hs : s'.saved = w.signals.saved)
    (hh : s'.hasSaved = w.signals.hasSaved) : Watched.Ok ⟨s', w.calls⟩ :=
  ⟨by rw [hb]; exact h.blocked, by rw [hs, hh]; exact h.calling, by rw [hh]; exact h.idle⟩

theorem clean_update {f : Nat → Word} (h : ∀ t, Clean (f t)) {mask : Word} (hm : Clean mask) (t t' : Nat) :
    Clean (update f t mask t') := by
  by_cases ht : t' = t
  · subst ht
    rw [update_self]
    exact hm
  · rw [update_of_ne ht]
    exact h t'

theorem setBlocked (h : w.Ok) (cur : Option Nat) {mask : Word} (hm : Clean mask) :
    Watched.Ok ⟨w.signals.setBlocked cur mask, w.calls⟩ := by
  cases cur with
  | none => exact h
  | some t => exact ⟨clean_update h.blocked hm t, h.calling, h.idle⟩

theorem sigprocmask (h : w.Ok) (cur : Option Nat) (how : Nat) (set : Option Word) (setsize : Nat) :
    Watched.Ok ⟨(w.signals.sigprocmask cur how set setsize).2, w.calls⟩ := by
  have hwas := h.myBlocked cur
  unfold Signals.sigprocmask
  split
  · exact h
  · cases set with
    | none => exact h
    | some u =>
      simp only
      split
      · exact h.setBlocked cur (hwas.or (.fromUser u))
      · split
        · exact h.setBlocked cur (hwas.and _)
        · split
          · exact h.setBlocked cur (.fromUser u)
          · exact h

theorem push (h : w.Ok) (t : Nat) (u : Word) :
    Watched.Ok ⟨w.signals.pushMask (some t) u,
      update w.calls t (some ((w.calls t).getD (w.signals.blocked t)))⟩ := by
  have hclean : ∀ t', Clean (update w.signals.blocked t (fromUserSet u) t') :=
    clean_update h.blocked (.fromUser u) t
  unfold Signals.pushMask
  cases hcall : w.calls t with
  | none =>
    -- the first push: nothing is saved yet
    have hnot : (!w.signals.hasSaved t) = true := by rw [h.idle t hcall]; rfl
    simp only [hnot, if_pos]
    refine ⟨hclean, fun t' m hm => ?_, fun t' hm => ?_⟩
    · by_cases ht : t' = t
      · subst ht
        simp only [update_self, Option.getD_none, Option.some.injEq] at hm
        subst hm
        exact ⟨update_self .., update_self .., h.blocked t'⟩
      · simp only [update_of_ne ht] at hm
        have hold := h.calling t' m hm
        refine ⟨?_, ?_, hold.2.2⟩
        · exact (update_of_ne ht _ _).trans hold.1
        · exact (update_of_ne ht _ _).trans hold.2.1
    · by_cases ht : t' = t
      · subst ht
        simp only [update_self] at hm
        cases hm
      · simp only [update_of_ne ht] at hm
        exact (update_of_ne ht _ _).trans (h.idle t' hm)
  | some m₀ =>
    have hyes : (!w.signals.hasSaved t) = false := by rw [(h.calling t m₀ hcall).1]; rfl
    simp only [hyes]
    have hsame : update w.calls t (some ((some m₀).getD (w.signals.blocked t))) = w.calls := by
      rw [Option.getD_some, ← hcall, update_eq_self]
    rw [hsame]
    exact ⟨hclean, h.calling, h.idle⟩

theorem finish (h : w.Ok) {t : Nat} {s' : Signals} (hb : ∀ t', Clean (s'.blocked t')) (hs : s'.saved = w.signals.saved)
    (hh : s'.hasSaved = update w.signals.hasSaved t false) :
    Watched.Ok ⟨s', update w.calls t none⟩ := by
  refine ⟨hb, fun t' m hm => ?_, fun t' hm => ?_⟩
  · by_cases ht : t' = t
    · subst ht
      simp only [update_self] at hm
      cases hm
    · simp only [update_of_ne ht] at hm
      rw [hs, hh, update_of_ne ht]
      exact h.calling t' m hm
  · show s'.hasSaved t' = false
    by_cases ht : t' = t
    · subst ht
      rw [hh, update_self]
    · simp only [update_of_ne ht] at hm
      rw [hh, update_of_ne ht]
      exact h.idle t' hm

theorem hasSaved_of_idle {t : Nat} (hs : w.signals.hasSaved t = false) :
    update w.signals.hasSaved t false = w.signals.hasSaved := by
  rw [← hs, update_eq_self]

theorem pop (h : w.Ok) (t : Nat) :
    Watched.Ok ⟨(w.signals.popMask (some t)).2, update w.calls t none⟩ := by
  cases hs : w.signals.hasSaved t with
  | false =>
    have hpop : w.signals.popMask (some t) = (0, w.signals) := by simp [Signals.popMask, hs]
    rw [hpop]
    exact h.finish h.blocked rfl (hasSaved_of_idle hs).symm
  | true =>
    have hpop : w.signals.popMask (some t) = (1, { w.signals.setBlocked (some t) (w.signals.saved t) with
        hasSaved := update w.signals.hasSaved t false }) := by
      simp [Signals.popMask, hs]
    rw [hpop]
    have hclean : Clean (w.signals.saved t) := by
      cases hcall : w.calls t with
      | none => rw [h.idle t hcall] at hs; cases hs
      | some m =>
        obtain ⟨-, hm, hc⟩ := h.calling t m hcall
        rw [hm]
        exact hc
    exact h.finish (clean_update h.blocked hclean t) rfl rfl

theorem deliver (h : w.Ok) (cur : Option Nat) (slot sig : Nat) (thr : Thread) (faultAddr : Word) :
    Watched.Ok ⟨(w.signals.deliver cur slot sig thr faultAddr).2.1, w.note (.deliver cur slot sig thr faultAddr)⟩ := by
  have hcase := w.signals.deliver_cases cur slot sig thr faultAddr
  cases cur with
  | none =>
    show Watched.Ok ⟨(w.signals.deliver none slot sig thr faultAddr).2.1, w.calls⟩
    generalize w.signals.deliver none slot sig thr faultAddr = r at hcase
    cases hcase with
    | refused => exact h
    | delivered hd => exact h.frame hd.blocked hd.saved hd.hasSaved
  | some t =>
    show Watched.Ok ⟨(w.signals.deliver (some t) slot sig thr faultAddr).2.1,
      if (w.signals.deliver (some t) slot sig thr faultAddr).1 = 1 then update w.calls t none else w.calls⟩
    generalize w.signals.deliver (some t) slot sig thr faultAddr = r at hcase
    cases hcase with
    | refused => exact h
    | delivered hd =>
      refine h.finish (fun t' => ?_) hd.saved ?_
      · rw [hd.blocked]
        exact (h.setBlocked (some t) ((h.myBlocked (some t)).handlerMask hd.sig_ne
          (w.signals.handlers slot sig))).blocked t'
      · rw [hd.hasSaved]
        unfold Signals.maskBack
        simp only
        split
        · rfl
        · rename_i hs
          exact (hasSaved_of_idle (by simpa using hs)).symm

theorem taskStart (h : w.Ok) (tid : Nat) (fromTid : Option Nat) :
    Watched.Ok ⟨w.signals.taskStart tid fromTid, update w.calls tid none⟩ :=
  h.finish (clean_update h.blocked (h.myBlocked fromTid) tid) rfl rfl

theorem step (h : w.Ok) (op : Op) : (watched.step w op).1.Ok := by
  show Watched.Ok ⟨w.signals.after op, w.note op⟩
  cases op with
  | sigprocmask cur how set setsize => exact h.sigprocmask cur how set setsize
  | push cur userSet =>
    cases cur with
    | none => exact h
    | some t => exact h.push t userSet
  | pop cur =>
    cases cur with
    | none => exact h
    | some t => exact h.pop t
  | deliver cur slot sig thr faultAddr => exact h.deliver cur slot sig thr faultAddr
  | sigreturn cur userRsp thr => exact h.setBlocked cur (.fromUser _)
  | taskStart tid fromTid => exact h.taskStart tid fromTid
  | exec cur slot => cases cur <;> exact h.frame rfl rfl rfl
  | sigaction slot sig act =>
    show Watched.Ok ⟨(w.signals.sigaction slot sig act).2, w.calls⟩
    unfold Signals.sigaction
    split
    · exact h
    · split
      · exact h
      · exact h.frame rfl rfl rfl
  | sigaltstack cur disable sp size curRsp =>
    show Watched.Ok ⟨(w.signals.sigaltstack cur disable sp size curRsp).2, w.calls⟩
    unfold Signals.sigaltstack
    cases cur with
    | none => exact h
    | some t =>
      simp only
      split
      · exact h
      · split
        · exact h.frame rfl rfl rfl
        · split
          · exact h
          · exact h.frame rfl rfl rfl

theorem restores (h : w.Ok) {t : Nat} {m : Word} (hcall : w.calls t = some m) : w.Restores t m := by
  obtain ⟨hhas, hsaved, hclean⟩ := h.calling t m hcall
  refine ⟨?_, fun slot sig thr faultAddr hone later thr' hsame => ?_⟩
  · unfold Signals.popMask
    simp only [hhas]
    show update w.signals.blocked t (w.signals.saved t) t = m
    rw [update_self, hsaved]
  · have hcase := w.signals.deliver_cases (some t) slot sig thr faultAddr
    generalize w.signals.deliver (some t) slot sig thr faultAddr = r at hcase hone hsame ⊢
    cases hcase with
    | refused =>
      omega
    | delivered hd =>
      rename_i s₁ thr₁
      have hback : (w.signals.maskBack (some t)).1 = m := by
        simp only [Signals.maskBack, hhas, if_pos, hsaved]
      have hfield := hd.field (show 38 < 70 by decide)
      rw [hback] at hfield
      have hfield : thr₁.mem.word (thr₁.regs.rsp + 304) = toUserSet m := hfield
      have haddr : thr₁.regs.rsp + 8 + BitVec.ofNat 64 (8 * 37) = thr₁.regs.rsp + 304 := by
        rw [BitVec.add_assoc]
        rfl
      show update later.blocked t (fromUserSet (thr'.mem.word (thr₁.regs.rsp + 8 + BitVec.ofNat 64 (8 * 37)))) t = m
      rw [update_self, haddr, hsame, hfield]
      exact hclean.roundTrip

end Watched.Ok

/-! ## Every run -/

/-- **Two signals are never blocked, and a mask replaced for a call comes
back.** -/
theorem masks_restored (ops : List Op) :
    (∀ t, ((watched.run Watched.init ops).signals.blocked t).getLsbD SIG64_KILLSIG = false ∧
      ((watched.run Watched.init ops).signals.blocked t).getLsbD SIG64_STOP = false) ∧
    ∀ t m, (watched.run Watched.init ops).calls t = some m → (watched.run Watched.init ops).Restores t m := by
  have hrun := watched.invariant_of_step (fun (w : Watched) op (h : w.Ok) _ => h.step op) ops Watched.init
    Watched.Ok.init (watched.guarded_true _ ops)
  exact ⟨fun t => ⟨(hrun.blocked t).kill, (hrun.blocked t).stop⟩, fun t m hcall => hrun.restores hcall⟩

/-- Thread 3 blocks signal 2 and suspends with signal 5 blocked, twice. -/
theorem masks_restored_suspended :
    ∃ m, m = bit 2 ∧ (watched.run Watched.init
      [.sigprocmask (some 3) SIG64_BLOCK (some 2) 8, .push (some 3) 16, .push (some 3) 16]).Restores 3 m :=
  ⟨bit 2, rfl, (masks_restored _).2 3 (bit 2) (by decide)⟩

end NovarisOS.Signal64
