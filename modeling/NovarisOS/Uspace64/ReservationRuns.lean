/-
NovarisOS.Uspace64.ReservationRuns — the reservation list under the calls of a
process.

Each call changes the list through `resv_remove` and `resv_add` only, so the
list stays in order as long as those are called with a range: `start < end`,
and for a removal at least `start ≤ end`. Two calls can break that, both by a
sum that leaves 64 bits: an `mmap` whose length rounds up to 0, and a
`munmap` whose end wraps below its start while some region lies across both
(`Unwrapped`).
-/
import NovarisOS.Uspace64.Memory

namespace NovarisOS.Uspace64

open NovarisOS.Span
open Pmm64 (wrap)

/-! ## The list under the calls -/

@[simp] theorem dropResv_proc (bound : Option Nat) (sys : Sys) (p : Proc) (start stop : Nat) :
    (dropResv bound sys p start stop).2 =
      { p with resv := (resvRemove bound p.resv start stop).1 } := by
  unfold dropResv
  rcases resvRemove bound p.resv start stop with ⟨r, - | x⟩ <;> rfl

@[simp] theorem addResv_proc (bound : Option Nat) (sys : Sys) (p : Proc) (start stop flags : Nat) :
    (addResv bound sys p start stop flags).2.2 =
      { p with resv := (resvAdd bound p.resv start stop flags).1 } := by
  unfold addResv
  rcases resvAdd bound p.resv start stop flags with ⟨r, - | x⟩ <;> rfl

variable {r : List Resv} {start stop : Nat}

theorem bumpPast_resv (p : Proc) (stop : Nat) : (bumpPast p stop).resv = p.resv := by
  unfold bumpPast
  split <;> rfl

theorem resvRemove_wrapped (bound : Option Nat) (h : InOrder r)
    (hno : ∀ x ∈ r, ¬ (x.start < stop ∧ start < x.stop)) :
    (resvRemove bound r start stop).1 = r := by
  obtain ⟨l, m, rfl, hi, -, hm⟩ := resvFirstAfter_spec h start
  unfold resvRemove
  rw [hi, removeLoop]
  cases m with
  | nil => simp
  | cons x m =>
    have hx := hno x (by simp)
    have hpast := hm x (List.mem_cons_self ..)
    have hget : (l ++ x :: m)[l.length]? = some x := by simp
    rw [hget]
    simp only
    rw [if_neg (by omega)]

/-! ## Runs -/

/-- No sum of the call leaves 64 bits in a way the list would notice: a
length that is given a place does not round up to 0, and a range whose end
wraps has no region across it. -/
def Call.Unwrapped (sys : Sys) (p : Proc) : Call → Prop
  | .mmap addr length _ flags =>
      length ≠ 0 → (∃ start, mmapPlace sys p addr (pageUp length) flags = .ok start) → pageUp length ≠ 0
  | .munmap addr length =>
      pageDown addr ≤ wrap (pageDown addr + pageUp length) ∨
        ∀ x ∈ p.resv, ¬ (x.start < wrap (pageDown addr + pageUp length) ∧ pageDown addr < x.stop)
  | _ => True

/-- The condition on a step: the process's own, for the call it makes. -/
def Unwrapped (k : Kernel) : Op → Prop
  | .call n c => ∀ p, k.procs n = some p → c.Unwrapped k.sys p
  | _ => True

/-- The list of a process is an interval map: it is in order, and where it
has a slot to spare taking a range out and putting one in do to the function
it stands for what their names say. -/
structure IntervalMap (r : List Resv) : Prop where
  inOrder : InOrder r
  remove : r.length < PROC64_RESV_MAX → ∀ s e, s < e → ∀ a,
    flagsAt (resvRemove (some PROC64_RESV_MAX) r s e).1 a =
      if s ≤ a ∧ a < e then none else flagsAt r a
  add : r.length < PROC64_RESV_MAX → ∀ s e f, s < e → (∀ a, s ≤ a → a < e → flagsAt r a = none) →
    ∀ a, flagsAt (resvAdd (some PROC64_RESV_MAX) r s e f).1 a =
      if s ≤ a ∧ a < e then some f else flagsAt r a

theorem intervalMap_of_inOrder (h : InOrder r) : IntervalMap r where
  inOrder := h
  remove hroom s e hse a := by
    have hfull : resvFull (some PROC64_RESV_MAX) r = false := by simpa [resvFull] using hroom
    have hnone := resvRemove_spill_none h (Nat.le_of_lt hse) hfull
    rw [(resvRemove_spec _ h (Nat.le_of_lt hse)).flagsAt a, hnone]
    simp
  add hroom s e f hse habsent a := by
    have hfull : resvFull (some PROC64_RESV_MAX) r = false := by simpa [resvFull] using hroom
    have hnone := resvAdd_spill_none s e f hfull
    rw [(resvAdd_spec _ h f hse habsent).flagsAt a, hnone]
    simp

end NovarisOS.Uspace64
