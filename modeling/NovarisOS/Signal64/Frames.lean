/-
NovarisOS.Signal64.Frames — what a delivery leaves behind.

`signal64_deliver` refuses, or it does everything `Signals.Delivered` says:
the tables, and the two blocks it writes. The frame ends eight bytes below
the floating-point state, so neither write disturbs the other and every
field reads back (`Delivered.field`, `Delivered.fpByte`).
-/
import NovarisOS.Signal64.Signals

namespace NovarisOS.Signal64

/-! ## Alignment -/

theorem getLsbD_low4 : ∀ i < 64, (15 : Word).getLsbD i = decide (i < 4) := by decide

theorem getLsbD_low6 : ∀ i < 64, (63 : Word).getLsbD i = decide (i < 6) := by decide

theorem toNat_clear {low : Word} {k : Nat} (hlow : ∀ i < 64, low.getLsbD i = decide (i < k)) (y : Word) :
    (y &&& ~~~low).toNat = y.toNat / 2 ^ k * 2 ^ k := by
  have hshift : y &&& ~~~low = (y >>> k) <<< k := by
    apply BitVec.eq_of_getLsbD_eq
    intro i hi
    rw [BitVec.getLsbD_and, BitVec.getLsbD_not, hlow i hi, BitVec.getLsbD_shiftLeft, BitVec.getLsbD_ushiftRight]
    by_cases hk : i < k
    · simp [hi, hk]
    · have hback : k + (i - k) = i := by omega
      simp [hi, hk, hback]
  have hle : y.toNat / 2 ^ k * 2 ^ k < 2 ^ 64 := Nat.lt_of_le_of_lt (Nat.div_mul_le_self _ _) y.isLt
  rw [hshift, BitVec.toNat_shiftLeft, BitVec.toNat_ushiftRight, Nat.shiftLeft_eq, Nat.shiftRight_eq_div_pow,
    Nat.mod_eq_of_lt hle]

namespace Signals

theorem fpStack_aligned (s : Signals) (cur : Option Nat) (act : Action) (rsp : Word) :
    (s.fpStack cur act rsp).toNat % 64 = 0 := by
  unfold fpStack
  rw [toNat_clear getLsbD_low6]
  omega

theorem frameStack_eq {fpsp : Word} (h : fpsp.toNat % 64 = 0) : frameStack fpsp = fpsp - 568 := by
  have hword : (8 : Word).toNat = 8 := rfl
  have hall : (568 : Word).toNat = 568 := rfl
  apply BitVec.eq_of_toNat_eq
  rw [frameStack, BitVec.toNat_sub, toNat_clear getLsbD_low4, BitVec.toNat_sub, BitVec.toNat_sub,
    BitVec.toNat_ofNat, hword, hall]
  simp only [SIGFRAME_SIZE]
  omega

/-! ## What a delivery does -/

/-- What a delivery that goes through does to the tables and the thread. -/
structure Delivered (s : Signals) (cur : Option Nat) (slot sig : Nat) (thr : Thread) (faultAddr : Word)
    (s' : Signals) (thr' : Thread) : Prop where
  sig_ne : sig ≠ 0
  goes : s.delivers cur slot sig thr = true
  blocked : s'.blocked = (s.setBlocked cur (handlerMask (s.myBlocked cur) sig (s.handlers slot sig))).blocked
  saved : s'.saved = s.saved
  hasSaved : s'.hasSaved = (s.maskBack cur).2.hasSaved
  sp : thr'.regs.rsp = frameStack (s.fpStack cur (s.handlers slot sig) thr.regs.rsp)
  mem : thr'.mem = (thr.mem.put thr'.regs.rsp SIGFRAME_SIZE (Space.ofWords (frameWords sig (s.handlers slot sig)
      thr.regs faultAddr (s.fpStack cur (s.handlers slot sig) thr.regs.rsp) (toUserSet (s.maskBack cur).1)))).put
    (s.fpStack cur (s.handlers slot sig) thr.regs.rsp) 512 thr.fpu
  page : thr'.page = thr.page

/-- What a delivery can do. -/
inductive DeliverCase (s : Signals) (cur : Option Nat) (slot sig : Nat) (thr : Thread) (faultAddr : Word) :
    Int × Signals × Thread → Prop where
  | refused : DeliverCase s cur slot sig thr faultAddr (0, s, thr)
  | delivered {s' : Signals} {thr' : Thread} : s.Delivered cur slot sig thr faultAddr s' thr' →
      DeliverCase s cur slot sig thr faultAddr (1, s', thr')

theorem blocked_maskBack (s : Signals) (cur : Option Nat) :
    (s.maskBack cur).2.blocked = s.blocked ∧ (s.maskBack cur).2.saved = s.saved := by
  unfold maskBack
  split
  · split <;> exact ⟨rfl, rfl⟩
  · exact ⟨rfl, rfl⟩

theorem myBlocked_maskBack (s : Signals) (cur : Option Nat) : (s.maskBack cur).2.myBlocked cur = s.myBlocked cur := by
  cases cur with
  | none => rfl
  | some t =>
    show (s.maskBack (some t)).2.blocked t = s.blocked t
    rw [(s.blocked_maskBack (some t)).1]

theorem setBlocked_congr {s s' : Signals} (h : s'.blocked = s.blocked) (cur : Option Nat) (mask : Word) :
    (s'.setBlocked cur mask).blocked = (s.setBlocked cur mask).blocked := by
  cases cur with
  | none => exact h
  | some t =>
    show Function.update s'.blocked t mask = Function.update s.blocked t mask
    rw [h]

theorem setBlocked_saved (s : Signals) (cur : Option Nat) (mask : Word) :
    (s.setBlocked cur mask).saved = s.saved ∧ (s.setBlocked cur mask).hasSaved = s.hasSaved := by
  cases cur <;> exact ⟨rfl, rfl⟩

theorem deliver_cases (s : Signals) (cur : Option Nat) (slot sig : Nat) (thr : Thread) (faultAddr : Word) :
    DeliverCase s cur slot sig thr faultAddr (s.deliver cur slot sig thr faultAddr) := by
  unfold deliver
  split
  · exact .refused
  · rename_i hok
    have hsig : sig ≠ 0 := by
      intro hzero
      simp [delivers, hzero] at hok
    simp only
    split <;>
    · refine .delivered ⟨hsig, by simpa using hok, ?_, ?_, ?_, rfl, rfl, rfl⟩
      · show ((s.maskBack cur).2.setBlocked cur _).blocked = _
        rw [s.myBlocked_maskBack cur]
        exact setBlocked_congr (s.blocked_maskBack cur).1 cur _
      · show ((s.maskBack cur).2.setBlocked cur _).saved = _
        rw [(setBlocked_saved _ cur _).1, (s.blocked_maskBack cur).2]
      · show ((s.maskBack cur).2.setBlocked cur _).hasSaved = _
        rw [(setBlocked_saved _ cur _).2]

variable {s s' : Signals} {cur : Option Nat} {slot sig : Nat} {thr thr' : Thread} {faultAddr : Word}

theorem Delivered.field (h : s.Delivered cur slot sig thr faultAddr s' thr') {i : Nat} (hi : i < 70) :
    thr'.mem.word (thr'.regs.rsp + BitVec.ofNat 64 (8 * i)) =
      (frameWords sig (s.handlers slot sig) thr.regs faultAddr (s.fpStack cur (s.handlers slot sig) thr.regs.rsp)
        (toUserSet (s.maskBack cur).1)).getD i 0 := by
  have halign := s.fpStack_aligned cur (s.handlers slot sig) thr.regs.rsp
  have hsp := h.sp
  rw [h.mem]
  generalize s.fpStack cur (s.handlers slot sig) thr.regs.rsp = fpsp at *
  rw [frameStack_eq halign] at hsp
  generalize hws : frameWords sig (s.handlers slot sig) thr.regs faultAddr fpsp (toUserSet (s.maskBack cur).1) = ws
  have hlen : ws.length = 70 := by
    rw [← hws]
    rfl
  rw [← Space.word_put (hlen ▸ hi) (by omega), hlen]
  -- the second block is out of the frame's reach
  refine Space.word_congr fun j hj => ?_
  rw [Space.byte_add, Space.byte_add, Space.byte, Space.byte, hsp]
  refine Space.put_outside ?_
  have hfar : (fpsp - 568 + BitVec.ofNat 64 (8 * i + j) - fpsp).toNat = 2 ^ 64 - 568 + (8 * i + j) := by
    have hall : (568 : Word).toNat = 568 := rfl
    rw [BitVec.toNat_sub, BitVec.toNat_add, BitVec.toNat_sub, BitVec.toNat_ofNat, hall]
    omega
  rw [hfar]
  omega

theorem Delivered.fpByte (h : s.Delivered cur slot sig thr faultAddr s' thr') {i : Nat} (hi : i < 512) :
    thr'.mem.byte (s.fpStack cur (s.handlers slot sig) thr.regs.rsp) i = thr.fpu i := by
  rw [h.mem]
  exact Space.byte_put hi (by decide)

end Signals

end NovarisOS.Signal64
