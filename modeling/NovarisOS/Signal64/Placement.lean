/-
NovarisOS.Signal64.Placement — where a delivery writes.

The frame and the floating-point state go below a word that the program has
chosen: its stack pointer less the red zone, or the end of its alternate
stack. Nothing but the presence of the pages is asked for, and the kernel's
are present. `Placed` is that every byte written is one of the program's own;
`Room` is when the two words leave room for that.

A byte is written if what it held before makes no difference (`Writes`).
-/
import NovarisOS.Page
import NovarisOS.Signal64.Masks

namespace NovarisOS.Signal64


namespace Signals

/-! ## What is written -/

/-- The alternate stack that the frame goes to, with its size. -/
def altstackFor (s : Signals) (cur : Option Nat) (act : Action) (rsp : Word) : Option (Word × Word) :=
  match cur with
  | some t =>
    if onStack act.flags && s.sasSize t ≠ 0 && !s.onAltstack cur rsp then some (s.sasSp t, s.sasSize t) else none
  | none => none

/-- The word that the floating-point state goes below. -/
def topFor (s : Signals) (cur : Option Nat) (act : Action) (rsp : Word) : Word :=
  match s.altstackFor cur act rsp with
  | some (sp, size) => sp + size
  | none => rsp - 128

/-- A delivery writes the byte. -/
def Writes (s : Signals) (cur : Option Nat) (slot sig : Nat) (thr : Thread) (faultAddr a : Word) : Prop :=
  ∀ m m' : Space, (s.deliver cur slot sig { thr with mem := m } faultAddr).2.2.mem a =
    (s.deliver cur slot sig { thr with mem := m' } faultAddr).2.2.mem a

/-- What is written is the program's, is not in the red zone, and is in the
alternate stack if the frame goes there. -/
def Placed (s : Signals) (cur : Option Nat) (slot sig : Nat) (thr : Thread) (faultAddr : Word) : Prop :=
  ∀ a, s.Writes cur slot sig thr faultAddr a →
    a.toNat < USPACE64_LIMIT ∧ 128 ≤ (a - (thr.regs.rsp - 128)).toNat ∧
    ∀ sp size, s.altstackFor cur (s.handlers slot sig) thr.regs.rsp = some (sp, size) →
      sp.toNat ≤ a.toNat ∧ a.toNat < sp.toNat + size.toNat

/-- Both blocks fit between zero and the limit; and an alternate stack does
not go round the end of the address space, and leaves the red zone above
it alone. -/
def Room (s : Signals) (cur : Option Nat) (act : Action) (rsp : Word) : Prop :=
  match s.altstackFor cur act rsp with
  | none => 1216 ≤ rsp.toNat ∧ rsp.toNat < USPACE64_LIMIT + 192
  | some (sp, size) => sp.toNat + size.toNat < USPACE64_LIMIT + 64 ∧
    (rsp.toNat < sp.toNat + size.toNat ∨ (sp.toNat + size.toNat - 512) / 64 * 64 + 640 ≤ rsp.toNat)

theorem fpStack_eq (s : Signals) (cur : Option Nat) (act : Action) (rsp : Word) :
    s.fpStack cur act rsp = (s.topFor cur act rsp - 512) &&& ~~~63 := by
  unfold fpStack topFor altstackFor
  cases cur with
  | none => rfl
  | some t =>
    dsimp only
    split
    · rfl
    · rfl

variable {s : Signals} {cur : Option Nat} {sig slot : Nat} {thr : Thread}

theorem deliver_mem (faultAddr : Word)
    (h : s.delivers cur slot sig thr = true) :
    ∃ frame : Nat → UInt8, ∀ m : Space, (s.deliver cur slot sig { thr with mem := m } faultAddr).2.2.mem =
      (m.put (s.fpStack cur (s.handlers slot sig) thr.regs.rsp - 568) SIGFRAME_SIZE frame).put
        (s.fpStack cur (s.handlers slot sig) thr.regs.rsp) 512 thr.fpu := by
  refine ⟨Space.ofWords (frameWords sig (s.handlers slot sig) thr.regs faultAddr
    (s.fpStack cur (s.handlers slot sig) thr.regs.rsp) (toUserSet (s.maskBack cur).1)), fun m => ?_⟩
  have hm : s.delivers cur slot sig { thr with mem := m } = true := h
  unfold deliver
  rw [hm, ← frameStack_eq (s.fpStack_aligned cur (s.handlers slot sig) thr.regs.rsp)]
  rfl

variable {faultAddr top size rsp : Word}

theorem writes_iff {a : Word} :
    s.Writes cur slot sig thr faultAddr a ↔ s.delivers cur slot sig thr = true ∧
      ((a - (s.fpStack cur (s.handlers slot sig) thr.regs.rsp - 568)).toNat < SIGFRAME_SIZE ∨
        (a - s.fpStack cur (s.handlers slot sig) thr.regs.rsp).toNat < 512) := by
  by_cases hgoes : s.delivers cur slot sig thr = true
  · obtain ⟨frame, hmem⟩ := deliver_mem faultAddr hgoes
    simp only [Writes, hmem, hgoes, true_and]
    constructor
    · intro h
      by_contra hout
      rw [not_or, Nat.not_lt, Nat.not_lt] at hout
      have heq := h (fun _ => 0) (fun _ => 1)
      rw [Space.put_outside hout.2, Space.put_outside hout.2, Space.put_outside hout.1, Space.put_outside hout.1] at heq
      cases heq
    · intro h m m'
      by_cases hfp : (a - s.fpStack cur (s.handlers slot sig) thr.regs.rsp).toNat < 512
      · simp only [Space.put, if_pos hfp]
      · have hframe := h.resolve_right hfp
        simp only [Space.put, if_neg hfp, if_pos hframe]
  · have hrefused : ∀ m : Space, (s.deliver cur slot sig { thr with mem := m } faultAddr).2.2.mem = m := by
      intro m
      have hm : s.delivers cur slot sig { thr with mem := m } = false := Bool.eq_false_iff.mpr hgoes
      unfold deliver
      rw [hm]
      rfl
    simp only [Writes, hrefused, hgoes]
    constructor
    · intro h
      cases h (fun _ => 0) (fun _ => 1)
    · rintro ⟨h, -⟩
      cases h

/-! ## The two blocks and the word above them -/

/-- What a word leaves for the blocks below it. -/
structure Below (top fpsp : Word) : Prop where
  pos : 568 ≤ fpsp.toNat
  le : fpsp.toNat + 512 ≤ top.toNat
  near : top.toNat < fpsp.toNat + 576
  limit : fpsp.toNat + 512 ≤ USPACE64_LIMIT

theorem toNat_fpsp (top : Word) :
    ((top - 512) &&& ~~~63).toNat = (top.toNat + 2 ^ 64 - 512) % 2 ^ 64 / 64 * 64 := by
  have hword : (512 : Word).toNat = 512 := rfl
  rw [toNat_clear getLsbD_low6, BitVec.toNat_sub, hword]
  omega

theorem below_of_room (hlo : 1088 ≤ top.toNat) (hhi : top.toNat < USPACE64_LIMIT + 64) :
    Below top ((top - 512) &&& ~~~63) := by
  have heq := toNat_fpsp top
  generalize (top - 512) &&& ~~~63 = fpsp at heq
  have hlimit : top.toNat < 64 * (2199023255552 + 1) := hhi
  refine ⟨by omega, by omega, by omega, ?_⟩
  show fpsp.toNat + 512 ≤ 64 * 2199023255552
  omega

theorem outside_of_no_room (h : ¬ (1088 ≤ top.toNat ∧ top.toNat < USPACE64_LIMIT + 64)) :
    ∃ a : Word, ((a - (((top - 512) &&& ~~~63) - 568)).toNat < SIGFRAME_SIZE ∨
      (a - ((top - 512) &&& ~~~63)).toNat < 512) ∧ USPACE64_LIMIT ≤ a.toNat := by
  have heq := toNat_fpsp top
  generalize (top - 512) &&& ~~~63 = fpsp at heq ⊢
  have hlimit : ¬ (1088 ≤ top.toNat ∧ top.toNat < 140737488355392) := h
  have hall : (568 : Word).toNat = 568 := rfl
  have hlast : (511 : Word).toNat = 511 := rfl
  by_cases hlow : top.toNat < 1088
  · refine ⟨fpsp - 568, .inl ?_, ?_⟩
    · rw [BitVec.sub_self]
      decide
    · show 140737488355328 ≤ _
      rw [BitVec.toNat_sub, hall]
      omega
  · refine ⟨fpsp + 511, .inr ?_, ?_⟩
    · rw [BitVec.add_comm, BitVec.add_sub_cancel]
      decide
    · show 140737488355328 ≤ _
      rw [BitVec.toNat_add, hlast]
      omega

/-! ## The alternate stacks -/

/-- What `signal64_sigaltstack` has accepted. -/
def Accepted (s : Signals) : Prop := ∀ t, s.sasSize t = 0 ∨ 2048 ≤ (s.sasSize t).toNat

theorem accepted_init : Accepted Signals.init := fun _ => .inl rfl

theorem Accepted.congr {s' : Signals} (h : Accepted s) (heq : s'.sasSize = s.sasSize) : Accepted s' := by
  intro t
  rw [heq]
  exact h t

theorem Accepted.update {s' : Signals} (h : Accepted s) {t : Nat} (hsize : size = 0 ∨ 2048 ≤ size.toNat)
    (heq : s'.sasSize = Function.update s.sasSize t size) : Accepted s' := by
  intro t'
  rw [heq]
  by_cases ht : t' = t
  · subst ht
    rw [Function.update_self]
    exact hsize
  · rw [Function.update_of_ne ht]
    exact h t'

theorem sasSize_setBlocked (s : Signals) (cur : Option Nat) (mask : Word) :
    (s.setBlocked cur mask).sasSize = s.sasSize := by
  cases cur <;> rfl

theorem sasSize_deliver (s : Signals) (cur : Option Nat) (slot sig : Nat) (thr : Thread) (faultAddr : Word) :
    (s.deliver cur slot sig thr faultAddr).2.1.sasSize = s.sasSize := by
  have hback : (s.maskBack cur).2.sasSize = s.sasSize := by
    unfold maskBack
    split
    · split <;> rfl
    · rfl
  unfold deliver
  split
  · rfl
  · dsimp only
    split <;> exact (sasSize_setBlocked _ _ _).trans hback

/-- Every call keeps to what is accepted. -/
theorem Accepted.after (h : Accepted s) (op : Op) : Accepted (s.after op) := by
  cases op with
  | sigprocmask cur how set setsize =>
    refine h.congr ?_
    show (s.sigprocmask cur how set setsize).2.sasSize = _
    unfold sigprocmask
    split
    · rfl
    · split
      · rfl
      · split
        · exact sasSize_setBlocked _ _ _
        · split
          · exact sasSize_setBlocked _ _ _
          · split
            · exact sasSize_setBlocked _ _ _
            · rfl
  | push cur userSet =>
    refine h.congr ?_
    show (s.pushMask cur userSet).sasSize = _
    unfold pushMask
    split
    · rfl
    · dsimp only
      rw [sasSize_setBlocked]
      split <;> rfl
  | pop cur =>
    refine h.congr ?_
    show (s.popMask cur).2.sasSize = _
    unfold popMask
    split
    · rfl
    · split <;> rfl
  | deliver cur slot sig thr faultAddr => exact h.congr (s.sasSize_deliver cur slot sig thr faultAddr)
  | sigreturn cur userRsp thr => exact h.congr (sasSize_setBlocked _ _ _)
  | taskStart tid fromTid => exact h.update (.inl rfl) rfl
  | exec cur slot =>
    cases cur with
    | some t => exact h.update (.inl rfl) rfl
    | none => exact h.congr rfl
  | sigaction slot sig act =>
    refine h.congr ?_
    show (s.sigaction slot sig act).2.sasSize = _
    unfold sigaction
    split
    · rfl
    · split <;> rfl
  | sigaltstack cur disable sp size curRsp =>
    show Accepted (s.sigaltstack cur disable sp size curRsp).2
    unfold sigaltstack
    split
    · exact h
    · split
      · exact h
      · split
        · exact h.update (.inl rfl) rfl
        · split
          · exact h
          · rename_i hsize
            exact h.update (.inr (Nat.not_lt.mp hsize)) rfl

/-- The tables after calls, one after the other. -/
def run (s : Signals) (ops : List Op) : Signals := ops.foldl Signals.after s

theorem Accepted.run (h : Accepted s) (ops : List Op) : Accepted (s.run ops) := by
  induction ops generalizing s with
  | nil => exact h
  | cons op ops ih => exact ih (h.after op)

variable {act : Action}

theorem altstackFor_spec (h : Accepted s) {sp : Word}
    (hstack : s.altstackFor cur act rsp = some (sp, size)) :
    2048 ≤ size.toNat ∧ ¬ (sp ≤ rsp ∧ rsp < sp + size) := by
  unfold altstackFor at hstack
  split at hstack
  · rename_i t
    split at hstack
    · rename_i hcond
      obtain ⟨rfl, rfl⟩ := Prod.mk.inj (Option.some.inj hstack)
      simp only [Bool.and_eq_true, decide_eq_true_eq, Bool.not_eq_true', onAltstack] at hcond
      obtain ⟨⟨-, hne⟩, hout⟩ := hcond
      refine ⟨(h t).resolve_left hne, ?_⟩
      rintro ⟨hlo, hhi⟩
      exact hne (by simpa [hlo, hhi] using hout)
    · cases hstack
  · cases hstack

/-! ## Where the blocks lie -/

theorem Below.written {fpsp a : Word} (h : Below top fpsp)
    (ha : (a - (fpsp - 568)).toNat < SIGFRAME_SIZE ∨ (a - fpsp).toNat < 512) :
    fpsp.toNat - 568 ≤ a.toNat ∧ a.toNat < fpsp.toNat + 512 := by
  have hall : (568 : Word).toNat = 568 := rfl
  have hpos := h.pos
  have hsub : (fpsp - 568).toNat = fpsp.toNat - 568 := by
    rw [BitVec.toNat_sub, hall]
    omega
  have hlimit : fpsp.toNat + 512 ≤ 140737488355328 := h.limit
  rw [BitVec.toNat_sub, hsub, BitVec.toNat_sub] at ha
  simp only [SIGFRAME_SIZE] at ha
  omega

theorem Below.last {fpsp : Word} (h : Below top fpsp) :
    (fpsp + 511 - fpsp).toNat < 512 ∧ (fpsp + 511).toNat = fpsp.toNat + 511 := by
  have hlast : (511 : Word).toNat = 511 := rfl
  have hle := h.le
  constructor
  · rw [BitVec.add_comm, BitVec.add_sub_cancel]
    decide
  · rw [BitVec.toNat_add, hlast]
    omega

theorem room_limit (h : Accepted s)
    (hroom : s.Room cur act rsp) :
    1088 ≤ (s.topFor cur act rsp).toNat ∧ (s.topFor cur act rsp).toNat < USPACE64_LIMIT + 64 := by
  unfold Room at hroom
  unfold topFor
  split
  · rename_i sp size hstack
    rw [hstack] at hroom
    obtain ⟨hsize, -⟩ := altstackFor_spec h hstack
    have hsum : (sp + size).toNat = sp.toNat + size.toNat := by
      rw [BitVec.toNat_add]
      apply Nat.mod_eq_of_lt
      have := hroom.1
      simp only [USPACE64_LIMIT] at this
      omega
    rw [hsum]
    exact ⟨by omega, hroom.1⟩
  · rename_i hstack
    rw [hstack] at hroom
    have hzone : (128 : Word).toNat = 128 := rfl
    rw [BitVec.toNat_sub, hzone]
    omega

theorem placed_of_room (h : Accepted s)
    (hroom : s.Room cur (s.handlers slot sig) thr.regs.rsp) : s.Placed cur slot sig thr faultAddr := by
  intro a ha
  obtain ⟨-, ha⟩ := writes_iff.mp ha
  rw [fpStack_eq] at ha
  obtain ⟨hlo, hhi⟩ := room_limit h hroom
  have hbelow := below_of_room hlo hhi
  have heq := toNat_fpsp (s.topFor cur (s.handlers slot sig) thr.regs.rsp)
  obtain ⟨hfrom, hto⟩ := hbelow.written ha
  have hlimit := hbelow.limit
  have hle := hbelow.le
  have hnear := hbelow.near
  have hzone : (thr.regs.rsp - 128).toNat = (2 ^ 64 - 128 + thr.regs.rsp.toNat) % 2 ^ 64 := by
    rw [BitVec.toNat_sub]
    rfl
  rw [BitVec.toNat_sub, hzone]
  generalize (s.topFor cur (s.handlers slot sig) thr.regs.rsp - 512) &&& ~~~63 = fpsp at *
  refine ⟨Nat.lt_of_lt_of_le hto hlimit, ?_, ?_⟩
  · cases hstack : s.altstackFor cur (s.handlers slot sig) thr.regs.rsp with
    | none =>
      simp only [topFor, hstack, hzone] at hle
      simp only [Room, hstack, USPACE64_LIMIT] at hroom
      omega
    | some stack =>
      obtain ⟨sp, size⟩ := stack
      obtain ⟨hsize, hout⟩ := altstackFor_spec h hstack
      simp only [Room, hstack, USPACE64_LIMIT] at hroom
      have hsum : (sp + size).toNat = sp.toNat + size.toNat := by
        rw [BitVec.toNat_add]
        omega
      simp only [topFor, hstack, hsum] at hle hnear heq
      rw [BitVec.le_def, BitVec.lt_def, hsum] at hout
      rcases hroom.2 with hbelow | habove
      · -- the interrupted stack is below the alternate one
        omega
      · omega
  · intro sp size hstack
    obtain ⟨hsize, -⟩ := altstackFor_spec h hstack
    simp only [Room, hstack, USPACE64_LIMIT] at hroom
    have hsum : (sp + size).toNat = sp.toNat + size.toNat := by
      rw [BitVec.toNat_add]
      omega
    simp only [topFor, hstack, hsum] at hle hnear
    omega

theorem room_of_placed
    (hgoes : s.delivers cur slot sig thr = true) (hplaced : s.Placed cur slot sig thr faultAddr) :
    s.Room cur (s.handlers slot sig) thr.regs.rsp := by
  have hall : ∀ a : Word, ((a - (((s.topFor cur (s.handlers slot sig) thr.regs.rsp - 512) &&& ~~~63) - 568)).toNat <
      SIGFRAME_SIZE ∨ (a - ((s.topFor cur (s.handlers slot sig) thr.regs.rsp - 512) &&& ~~~63)).toNat < 512) →
      a.toNat < USPACE64_LIMIT ∧ 128 ≤ (a - (thr.regs.rsp - 128)).toNat ∧
      ∀ sp size, s.altstackFor cur (s.handlers slot sig) thr.regs.rsp = some (sp, size) →
        sp.toNat ≤ a.toNat ∧ a.toNat < sp.toNat + size.toNat := by
    intro a ha
    rw [← fpStack_eq] at ha
    exact hplaced a (writes_iff.mpr ⟨hgoes, ha⟩)
  have hrange : 1088 ≤ (s.topFor cur (s.handlers slot sig) thr.regs.rsp).toNat ∧
      (s.topFor cur (s.handlers slot sig) thr.regs.rsp).toNat < USPACE64_LIMIT + 64 := by
    by_contra hno
    obtain ⟨a, ha, hout⟩ := outside_of_no_room hno
    exact absurd (hall a ha).1 (Nat.not_lt.mpr hout)
  have hbelow := below_of_room hrange.1 hrange.2
  have heq := toNat_fpsp (s.topFor cur (s.handlers slot sig) thr.regs.rsp)
  obtain ⟨hwritten, hlast⟩ := hbelow.last
  obtain ⟨-, hzone, hstacks⟩ := hall _ (.inr hwritten)
  have hnear := hbelow.near
  have hle := hbelow.le
  have hred : (thr.regs.rsp - 128).toNat = (2 ^ 64 - 128 + thr.regs.rsp.toNat) % 2 ^ 64 := by
    rw [BitVec.toNat_sub]
    rfl
  rw [BitVec.toNat_sub, hlast, hred] at hzone
  generalize (s.topFor cur (s.handlers slot sig) thr.regs.rsp - 512) &&& ~~~63 = fpsp at *
  simp only [USPACE64_LIMIT] at hrange
  unfold Room
  cases hstack : s.altstackFor cur (s.handlers slot sig) thr.regs.rsp with
  | none =>
    simp only [topFor, hstack, hred] at hrange
    simp only [USPACE64_LIMIT]
    omega
  | some stack =>
    obtain ⟨sp, size⟩ := stack
    obtain ⟨hlo, hhi⟩ := hstacks sp size hstack
    have hsum : (sp + size).toNat = sp.toNat + size.toNat := by
      simp only [topFor, hstack] at hrange hle hnear
      rw [BitVec.toNat_add] at hrange hle hnear ⊢
      omega
    simp only [topFor, hstack, hsum] at hrange hle hnear heq
    refine ⟨hrange.2, ?_⟩
    omega

/-- After any calls of any threads, whatever the thread and the signal: a
delivery that goes through places every byte if and only if its stack leaves
room for it. -/
theorem delivery_placed_iff (ops : List Op) (cur : Option Nat) (slot sig : Nat) (thr : Thread) (faultAddr : Word) :
    (Signals.init.run ops).Placed cur slot sig thr faultAddr ↔
      ((Signals.init.run ops).delivers cur slot sig thr = true →
        (Signals.init.run ops).Room cur ((Signals.init.run ops).handlers slot sig) thr.regs.rsp) := by
  have h : Accepted (Signals.init.run ops) := accepted_init.run ops
  constructor
  · exact fun hplaced hgoes => room_of_placed hgoes hplaced
  · intro hroom a ha
    exact placed_of_room h (hroom (writes_iff.mp ha).1) a ha

/-! ## Frames that are not the program's -/

/-- A handler for SIGSEGV with SA_ONSTACK, and the same with an alternate
stack of a page. -/
def handling : List Op := [.sigaction 0 11 ⟨0x500000, 0x4C000000, 0x600000, 0⟩]
def handlingOnStack : List Op := handling ++ [.sigaltstack (some 3) false 0x10000 0x1000 0x70000000]

/-- A thread in ring 3 with that stack pointer, whose pages are all there. -/
def threadAt (rsp : Word) : Thread :=
  ⟨⟨0, 0, 0, 0, 0, 0, 0, 0, 0, 0, 0, 0, 0, 0, 0, rsp, 0x400000, 0x246, 0x23, 0x1B, 0, 0⟩, fun _ => 0, fun _ => 0,
    fun _ => true⟩

theorem no_room_above
    (hstack : s.altstackFor cur act rsp = none) (h : USPACE64_LIMIT + 192 ≤ rsp.toNat) : ¬ s.Room cur act rsp := by
  unfold Room
  rw [hstack]
  omega

theorem no_room_under {sp : Word}
    (hstack : s.altstackFor cur act rsp = some (sp, size)) (hlo : sp.toNat + size.toNat ≤ rsp.toNat)
    (hhi : rsp.toNat < (sp.toNat + size.toNat - 512) / 64 * 64 + 640) : ¬ s.Room cur act rsp := by
  unfold Room
  rw [hstack]
  omega

/-- With its stack pointer in the kernel's half a program has the kernel write
there; and a thread whose stack begins where its alternate stack ends has its
red zone written over. -/
theorem delivery_misplaced :
    ¬ (Signals.init.run handling).Placed (some 3) 0 11 (threadAt 0xFFFF800000010000) 0 ∧
    ¬ (Signals.init.run handlingOnStack).Placed (some 3) 0 11 (threadAt 0x11000) 0 := by
  constructor
  · intro h
    have hgoes : (Signals.init.run handling).delivers (some 3) 0 11 (threadAt 0xFFFF800000010000) = true := by
      decide
    exact no_room_above (by decide) (by decide) (room_of_placed hgoes h)
  · intro h
    have hgoes : (Signals.init.run handlingOnStack).delivers (some 3) 0 11 (threadAt 0x11000) = true := by
      decide
    have hstack : (Signals.init.run handlingOnStack).altstackFor (some 3)
        ((Signals.init.run handlingOnStack).handlers 0 11) (threadAt 0x11000).regs.rsp = some (0x10000, 0x1000) := by
      decide
    exact no_room_under hstack (by decide) (by decide) (room_of_placed hgoes h)

end Signals

end NovarisOS.Signal64
