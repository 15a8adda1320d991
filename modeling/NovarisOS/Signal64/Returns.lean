/-
NovarisOS.Signal64.Returns — a return undoes its delivery.

One thread, with everything that can happen around it: the program runs, the
tables change under any call of any thread, signals are delivered to it and
handlers return, the newest first or, past the others, an older one. For
every frame whose handler has not returned the session keeps what was
interrupted; `Restored` is that the return brings it back.
-/
import NovarisOS.Signal64.Masks

namespace NovarisOS.Signal64

/-- The frame, eight bytes and the floating-point state. -/
abbrev EXTENT : Nat := 1080

/-- A frame whose handler has not returned, and what it interrupted. -/
structure Live where
  sp : Word
  regs : Regs
  fpu : Nat → UInt8
  /-- The mask to go back to. -/
  mask : Word

/-- Where its floating-point state is. -/
def Live.fpsp (f : Live) : Word := f.sp + 568

structure Session where
  signals : Signals
  thr : Thread
  live : List Live

inductive Act where
  | user (thr : Thread)
  | call (op : Op)
  | deliver (sig : Nat) (faultAddr : Word)
  | sigreturn (k : Nat)

namespace Session

/-- The mask of task `t`, or the one a call that it is in has replaced. -/
def maskOf (s : Signals) (t : Nat) : Word := if s.hasSaved t then s.saved t else s.blocked t

/-- One act of task `t` of the process in `slot`. -/
def step (t slot : Nat) (s : Session) : Act → Session × Unit
  | .user thr => ({ s with thr := thr }, ())
  | .call op => ({ s with signals := s.signals.after op }, ())
  | .deliver sig faultAddr =>
    match s.signals.deliver (some t) slot sig s.thr faultAddr with
    | (1, signals, thr) =>
      (⟨signals, thr, ⟨thr.regs.rsp, s.thr.regs, s.thr.fpu, maskOf s.signals t⟩ :: s.live⟩, ())
    | (_, signals, thr) => ({ s with signals := signals, thr := thr }, ())
  | .sigreturn k =>
    match s.live[k]? with
    | some f =>
      let (signals, thr) := s.signals.sigreturn (some t) (f.sp + 8) s.thr
      (⟨signals, thr, s.live.drop (k + 1)⟩, ())
    | none => (s, ())

/-- The bytes of the frame are the same. -/
def Intact (f : Live) (m m' : Space) : Prop := ∀ i < EXTENT, m'.byte f.sp i = m.byte f.sp i

/-- The program leaves the frames alone that are still needed, their pages
are there when their handlers return, and new ones lie beside them. -/
def Apart (t slot : Nat) (s : Session) : Act → Prop
  | .user thr => ∀ f ∈ s.live, Intact f s.thr.mem thr.mem
  | .call _ => True
  | .deliver sig _ =>
    let sp := Signals.frameStack (s.signals.fpStack (some t) (s.signals.handlers slot sig) s.thr.regs.rsp)
    s.signals.delivers (some t) slot sig s.thr = true →
      sp.toNat + EXTENT ≤ 2 ^ 64 ∧
        ∀ f ∈ s.live, sp.toNat + EXTENT ≤ f.sp.toNat ∨ f.sp.toNat + EXTENT ≤ sp.toNat
  | .sigreturn k => ∀ f, s.live[k]? = some f → rangePresent s.thr.page f.fpsp 512 = true

end Session

def sessions (t slot : Nat) : Machine Session Act Unit := ⟨Session.step t slot⟩

/-- What was interrupted is there again. -/
structure Restored (t : Nat) (f : Live) (s : Session) : Prop where
  general : (s.thr.regs.r8 = f.regs.r8 ∧ s.thr.regs.r9 = f.regs.r9 ∧ s.thr.regs.r10 = f.regs.r10 ∧
      s.thr.regs.r11 = f.regs.r11 ∧ s.thr.regs.r12 = f.regs.r12 ∧ s.thr.regs.r13 = f.regs.r13 ∧
      s.thr.regs.r14 = f.regs.r14 ∧ s.thr.regs.r15 = f.regs.r15) ∧
    (s.thr.regs.rdi = f.regs.rdi ∧ s.thr.regs.rsi = f.regs.rsi ∧ s.thr.regs.rbp = f.regs.rbp ∧
      s.thr.regs.rbx = f.regs.rbx ∧ s.thr.regs.rdx = f.regs.rdx ∧ s.thr.regs.rax = f.regs.rax ∧
      s.thr.regs.rcx = f.regs.rcx)
  rsp : s.thr.regs.rsp = f.regs.rsp
  rip : s.thr.regs.rip = f.regs.rip
  flags : s.thr.regs.rflags &&& 0xCD5 = f.regs.rflags &&& 0xCD5
  /-- All but the reserved half of MXCSR. -/
  fpu : ∀ i < 512, i ≠ 26 → i ≠ 27 → s.thr.fpu i = f.fpu i
  mask : s.signals.blocked t = f.mask

/-! ## Frames in memory -/

/-- The frame is in memory as it was written. -/
structure Live.Written (f : Live) (m : Space) : Prop where
  fits : f.sp.toNat + EXTENT ≤ 2 ^ 64
  aligned : f.fpsp.toNat % 64 = 0
  clean : Clean f.mask
  words : ∃ sig act faultAddr, ∀ i < 70, m.word (f.sp + BitVec.ofNat 64 (8 * i)) =
    (frameWords sig act f.regs faultAddr f.fpsp (toUserSet f.mask)).getD i 0
  fpBytes : ∀ i < 512, m.byte f.fpsp i = f.fpu i

namespace Live.Written

variable {f : Live} {m m' : Space}

theorem byte_fpsp (f : Live) (m : Space) (i : Nat) : m.byte f.fpsp i = m.byte f.sp (568 + i) := by
  rw [Live.fpsp]
  exact m.byte_add f.sp 568 i

theorem intact (h : f.Written m) (hi : Session.Intact f m m') : f.Written m' := by
  obtain ⟨sig, act, faultAddr, hwords⟩ := h.words
  refine ⟨h.fits, h.aligned, h.clean, ⟨sig, act, faultAddr, fun i hlt => ?_⟩, fun i hlt => ?_⟩
  · rw [← hwords i hlt]
    refine Space.word_congr fun j hj => ?_
    rw [Space.byte_add, Space.byte_add]
    exact hi (8 * i + j) (by simp only [EXTENT]; omega)
  · rw [← h.fpBytes i hlt, byte_fpsp, byte_fpsp]
    exact hi (568 + i) (by simp only [EXTENT]; omega)

end Live.Written

theorem Session.Intact.put {f : Live} {m : Space} {base : Word} {n : Nat} {src : Nat → UInt8}
    (hf : f.sp.toNat + EXTENT ≤ 2 ^ 64) (hn : base.toNat + n ≤ 2 ^ 64)
    (h : base.toNat + n ≤ f.sp.toNat ∨ f.sp.toNat + EXTENT ≤ base.toNat) : Session.Intact f m (m.put base n src) := by
  intro i hi
  rw [Space.byte, Space.byte]
  refine Space.put_outside ?_
  rw [BitVec.toNat_sub, BitVec.toNat_add, BitVec.toNat_ofNat]
  omega

/-! ## What every act keeps -/

structure Session.Ok (s : Session) : Prop where
  masks : ∃ calls, Watched.Ok ⟨s.signals, calls⟩
  frames : ∀ f ∈ s.live, f.Written s.thr.mem

namespace Session.Ok

variable {t slot : Nat} {s : Session}

theorem clean_maskOf (h : s.Ok) (t : Nat) : Clean (maskOf s.signals t) := by
  obtain ⟨calls, hw⟩ := h.masks
  unfold maskOf
  split
  · rename_i hsaved
    cases hcall : calls t with
    | none => exact absurd (hw.idle t hcall) (by simp [hsaved])
    | some m =>
      obtain ⟨-, hm, hclean⟩ := hw.calling t m hcall
      rw [show s.signals.saved t = m from hm]
      exact hclean
  · exact hw.blocked t

theorem maskBack_eq (signals : Signals) (t : Nat) : (signals.maskBack (some t)).1 = maskOf signals t := by
  unfold Signals.maskBack maskOf
  simp only
  split <;> rfl

theorem deliver (h : s.Ok) {sig : Nat} {faultAddr : Word} {signals : Signals} {thr : Thread}
    (hapart : Apart t slot s (.deliver sig faultAddr))
    (hd : s.signals.Delivered (some t) slot sig s.thr faultAddr signals thr)
    (hmasks : ∃ calls, Watched.Ok ⟨signals, calls⟩) :
    Session.Ok ⟨signals, thr, ⟨thr.regs.rsp, s.thr.regs, s.thr.fpu, maskOf s.signals t⟩ :: s.live⟩ := by
  have hsp := hd.sp
  obtain ⟨hfits, hbeside⟩ := hapart hd.goes
  have halign := s.signals.fpStack_aligned (some t) (s.signals.handlers slot sig) s.thr.regs.rsp
  have hmem := hd.mem
  have hfield := fun i hi => @Signals.Delivered.field _ _ _ _ _ _ _ _ hd i hi
  have hbytes := fun i hi => @Signals.Delivered.fpByte _ _ _ _ _ _ _ _ hd i hi
  rw [maskBack_eq] at hfield
  rw [← hsp] at hfits hbeside
  generalize s.signals.fpStack (some t) (s.signals.handlers slot sig) s.thr.regs.rsp = fpsp at *
  rw [Signals.frameStack_eq halign] at hsp
  have hfp : thr.regs.rsp + 568 = fpsp := by
    rw [hsp, BitVec.sub_add_cancel]
  have hfpNat : fpsp.toNat = thr.regs.rsp.toNat + 568 := by
    have hword : (568 : Word).toNat = 568 := rfl
    rw [← hfp, BitVec.toNat_add, hword]
    simp only [EXTENT] at hfits
    omega
  refine ⟨hmasks, fun f hf => ?_⟩
  rcases List.mem_cons.mp hf with rfl | hold
  · refine ⟨hfits, ?_, h.clean_maskOf t, ⟨sig, s.signals.handlers slot sig, faultAddr, fun i hi => ?_⟩, fun i hi => ?_⟩
    · show (thr.regs.rsp + 568).toNat % 64 = 0
      rw [hfp]
      exact halign
    · show _ = (frameWords _ _ _ _ (thr.regs.rsp + 568) _).getD i 0
      rw [hfp]
      exact hfield i hi
    · show thr.mem.byte (thr.regs.rsp + 568) i = _
      rw [hfp]
      exact hbytes i hi
  · -- the two blocks lie beside the frames that are still needed
    have hwritten := h.frames f hold
    have hplace := hbeside f hold
    have hlt := hwritten.fits
    rw [hmem]
    refine (hwritten.intact (Session.Intact.put hlt ?_ ?_)).intact (Session.Intact.put hlt ?_ ?_)
    · simp only [EXTENT, SIGFRAME_SIZE] at *
      omega
    · simp only [EXTENT, SIGFRAME_SIZE] at *
      omega
    · simp only [EXTENT] at *
      omega
    · simp only [EXTENT] at *
      omega

theorem step (h : s.Ok) {a : Act} (hapart : Apart t slot s a) : ((sessions t slot).step s a).1.Ok := by
  obtain ⟨calls, hw⟩ := h.masks
  cases a with
  | user thr => exact ⟨⟨calls, hw⟩, fun f hf => (h.frames f hf).intact (hapart f hf)⟩
  | call op => exact ⟨⟨_, hw.step op⟩, h.frames⟩
  | deliver sig faultAddr =>
    have hcase := s.signals.deliver_cases (some t) slot sig s.thr faultAddr
    have hmasks := hw.deliver (some t) slot sig s.thr faultAddr
    show (Session.step t slot s (.deliver sig faultAddr)).1.Ok
    simp only [Session.step]
    generalize Watched.note _ _ = note at hmasks
    generalize s.signals.deliver (some t) slot sig s.thr faultAddr = r at hcase hmasks
    cases hcase with
    | refused => exact h
    | delivered hd => exact h.deliver hapart hd ⟨note, hmasks⟩
  | sigreturn k =>
    show (Session.step t slot s (.sigreturn k)).1.Ok
    simp only [Session.step]
    split
    · refine ⟨⟨calls, hw.setBlocked (some t) (.fromUser _)⟩, fun f hf => ?_⟩
      exact h.frames f (List.mem_of_mem_drop hf)
    · exact h

end Session.Ok

/-! ## Returning -/

theorem and15_eq_zero {y : Word} (h : y.toNat % 64 = 0) : y &&& 15 = 0 := by
  apply BitVec.eq_of_toNat_eq
  have hlow : (15 : Word).toNat = 2 ^ 4 - 1 := rfl
  rw [BitVec.toNat_and, hlow, Nat.and_two_pow_sub_one_eq_mod]
  show _ = 0
  omega

theorem flags_kept (x : Word) : (x &&& 0xCD5 ||| 0x202) &&& 0xCD5 = x &&& 0xCD5 := by
  have hapart : ∀ i < 64, ((0x202 : Word).getLsbD i && (0xCD5 : Word).getLsbD i) = false := by decide
  apply BitVec.eq_of_getLsbD_eq
  intro i hi
  have hi := hapart i hi
  rw [BitVec.getLsbD_and, BitVec.getLsbD_or, BitVec.getLsbD_and]
  generalize (0x202 : Word).getLsbD i = set at *
  generalize (0xCD5 : Word).getLsbD i = kept at *
  cases set <;> cases kept <;> simp_all

theorem Live.Written.restored {f : Live} {s : Session} (h : f.Written s.thr.mem) (t : Nat)
    (hpage : rangePresent s.thr.page f.fpsp 512 = true) (live : List Live) :
    Restored t f ⟨(s.signals.sigreturn (some t) (f.sp + 8) s.thr).1, (s.signals.sigreturn (some t) (f.sp + 8) s.thr).2,
      live⟩ := by
  obtain ⟨sig, act, faultAddr, hwords⟩ := h.words
  have hfield : ∀ i < 69, s.thr.mem.word (f.sp + 8 + BitVec.ofNat 64 (8 * i)) =
      (frameWords sig act f.regs faultAddr f.fpsp (toUserSet f.mask)).getD (i + 1) 0 := by
    intro i hi
    rw [← hwords (i + 1) (by omega), BitVec.add_assoc, Nat.mul_add, Nat.add_comm (8 * i), BitVec.ofNat_add]
    rfl
  have hfp : s.thr.mem.word (f.sp + 8 + BitVec.ofNat 64 (8 * 28)) = f.fpsp := hfield 28 (by decide)
  have hzero : f.fpsp ≠ 0 := by
    intro hz
    have hnat : f.fpsp.toNat = 0 := by rw [hz]; rfl
    have hword : (568 : Word).toNat = 568 := rfl
    have hfits := h.fits
    rw [Live.fpsp, BitVec.toNat_add, hword] at hnat
    simp only [EXTENT] at hfits
    omega
  refine ⟨⟨⟨?_, ?_, ?_, ?_, ?_, ?_, ?_, ?_⟩, ⟨?_, ?_, ?_, ?_, ?_, ?_, ?_⟩⟩, ?_, ?_, ?_, ?_, ?_⟩
  · exact hfield 5 (by decide)
  · exact hfield 6 (by decide)
  · exact hfield 7 (by decide)
  · exact hfield 8 (by decide)
  · exact hfield 9 (by decide)
  · exact hfield 10 (by decide)
  · exact hfield 11 (by decide)
  · exact hfield 12 (by decide)
  · exact hfield 13 (by decide)
  · exact hfield 14 (by decide)
  · exact hfield 15 (by decide)
  · exact hfield 16 (by decide)
  · exact hfield 17 (by decide)
  · exact hfield 18 (by decide)
  · exact hfield 19 (by decide)
  · exact hfield 20 (by decide)
  · exact hfield 21 (by decide)
  · have hflags : s.thr.mem.word (f.sp + 8 + BitVec.ofNat 64 (8 * 22)) = f.regs.rflags := hfield 22 (by decide)
    show (s.thr.mem.word (f.sp + 8 + BitVec.ofNat 64 (8 * 22)) &&& 0xCD5 ||| 0x202) &&& 0xCD5 = _
    rw [hflags]
    exact flags_kept _
  · intro i hi hlow hhigh
    have hrest : (s.signals.sigreturn (some t) (f.sp + 8) s.thr).2.fpu = Signals.fxrstor (s.thr.mem.byte f.fpsp) := by
      simp only [Signals.sigreturn, hfp, and15_eq_zero h.aligned, hpage, ne_eq, hzero, not_false_eq_true,
        decide_true, Bool.and_self, if_true]
    rw [show Session.thr _ = _ from rfl, hrest, Signals.fxrstor, if_neg (by omega)]
    exact h.fpBytes i hi
  · have hmask : s.thr.mem.word (f.sp + 8 + BitVec.ofNat 64 (8 * 37)) = toUserSet f.mask := hfield 37 (by decide)
    show Function.update s.signals.blocked t
      (fromUserSet (s.thr.mem.word (f.sp + 8 + BitVec.ofNat 64 (8 * 37)))) t = f.mask
    rw [Function.update_self, hmask]
    exact h.clean.roundTrip

/-! ## Every run -/

/-- **A return undoes its delivery**, at any depth: whichever frame a handler
returns to, what that frame interrupted is there again. -/
theorem return_undoes_delivery (t slot : Nat) (thr : Thread) (before : List Act) (k : Nat) (f : Live)
    (hg : (sessions t slot).Guarded (Session.Apart t slot) ⟨Signals.init, thr, []⟩ (before ++ [.sigreturn k]))
    (hf : ((sessions t slot).run ⟨Signals.init, thr, []⟩ before).live[k]? = some f) :
    Restored t f ((sessions t slot).run ⟨Signals.init, thr, []⟩ (before ++ [.sigreturn k])) := by
  obtain ⟨hbefore, hlast⟩ := ((sessions t slot).guarded_append before [.sigreturn k] _).mp hg
  have hok := (sessions t slot).invariant_of_step (fun (s : Session) _ (h : s.Ok) ha => h.step ha) before _
    ⟨⟨fun _ => none, Watched.Ok.init⟩, fun _ hf => (by cases hf)⟩ hbefore
  rw [(sessions t slot).run_append]
  generalize (sessions t slot).run ⟨Signals.init, thr, []⟩ before = s at hok hf hlast ⊢
  have hwritten := hok.frames f (List.mem_of_getElem? hf)
  have hreturn := hwritten.restored t (hlast.1 f hf) (s.live.drop (k + 1))
  show Restored t f (Session.step t slot s (.sigreturn k)).1
  simp only [Session.step, hf]
  exact hreturn

/-- A thread in ring 3 whose pages are all there. -/
def anyThread : Thread :=
  ⟨⟨1, 2, 3, 4, 5, 6, 7, 8, 9, 10, 11, 12, 13, 14, 15, 0x70000000, 0x400000, 0x246, 0x23, 0x1B, 0, 0⟩,
    fun i => UInt8.ofNat i, fun _ => 0, fun _ => true⟩

/-- A handler for SIGSEGV: SA_ONSTACK, SA_NODEFER and a restorer. -/
def onStackHandler : Op := .sigaction 0 11 ⟨0x500000, 0x4C000000, 0x600000, 0⟩

/-- A handler on the program's stack is entered and returns. -/
theorem return_undoes_delivery_once :
    ∃ f, ((sessions 3 0).run ⟨Signals.init, anyThread, []⟩ [.call onStackHandler, .deliver 11 0]).live[0]? = some f ∧
      f.regs.rsp = 0x70000000 ∧
      Restored 3 f ((sessions 3 0).run ⟨Signals.init, anyThread, []⟩
        ([.call onStackHandler, .deliver 11 0] ++ [.sigreturn 0])) := by
  have hlive : (((sessions 3 0).run ⟨Signals.init, anyThread, []⟩
      [.call onStackHandler, .deliver 11 0]).live[0]?).isSome := by
    decide
  obtain ⟨f, hf⟩ := Option.isSome_iff_exists.mp hlive
  have hrsp : (((sessions 3 0).run ⟨Signals.init, anyThread, []⟩ [.call onStackHandler, .deliver 11 0]).live[0]?).all
      (fun f => f.regs.rsp = 0x70000000) = true := by
    decide
  have hpage : (((sessions 3 0).run ⟨Signals.init, anyThread, []⟩ [.call onStackHandler, .deliver 11 0]).live[0]?).all
      (fun f => rangePresent ((sessions 3 0).run ⟨Signals.init, anyThread, []⟩
        [.call onStackHandler, .deliver 11 0]).thr.page f.fpsp 512) = true := by
    decide
  rw [hf] at hrsp hpage
  simp only [Option.all_some] at hpage
  refine ⟨f, hf, by simpa using hrsp, return_undoes_delivery 3 0 anyThread _ 0 f
    (((sessions 3 0).guarded_append _ _ _).mpr ⟨⟨trivial, fun _ => ⟨?_, ?_⟩, trivial⟩, ?_, trivial⟩) hf⟩
  · decide
  · exact fun _ hold => (by cases hold)
  · intro g hg
    have hsame : g = f := Option.some.inj (hg.symm.trans hf)
    rw [hsame]
    exact hpage

/-- Three deliveries on an alternate stack of 2048 bytes, and two returns. -/
def usedUp : List Act :=
  [.call onStackHandler, .call (.sigaltstack (some 3) false 0x10000 2048 0x70000000), .deliver 11 0, .deliver 11 0,
    .deliver 11 0, .sigreturn 0, .sigreturn 0]

/-- The second handler runs below the alternate stack, so the third frame is
written over the first, and the last return goes to the second handler's
stack. -/
theorem return_undoes_nothing :
    ((sessions 3 0).run ⟨Signals.init, anyThread, []⟩ usedUp).live.map (fun f => f.regs.rsp) = [0x70000000] ∧
      ((sessions 3 0).run ⟨Signals.init, anyThread, []⟩ (usedUp ++ [.sigreturn 0])).thr.regs.rsp = 0xFF08 := by
  decide

end NovarisOS.Signal64
