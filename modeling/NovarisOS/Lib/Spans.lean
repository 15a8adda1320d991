/-
NovarisOS.Lib.Spans — a partial function on addresses, kept as a list of
spans in ascending order.

A span gives its flags to every address from `start` up to `stop`. A list of
them is IN ORDER when no span is empty and each ends before the next one
starts; `flagsAt` is the function it stands for. `cut` takes a range out of
the list and may leave two pieces of one span; what it does to the function
is `flagsAt_cut`, and `InOrder.cut` says the list stays in order.
-/
import Mathlib.Data.List.Basic

namespace NovarisOS

/-- The addresses `[start, stop)`, with flags. -/
structure Span (φ : Type*) where
  start : Nat
  stop : Nat
  flags : φ
  deriving DecidableEq

namespace Span

variable {φ : Type*}

/-- The function a list stands for. -/
def flagsAt : List (Span φ) → Nat → Option φ
  | [], _ => none
  | x :: r, a => if x.start ≤ a ∧ a < x.stop then some x.flags else flagsAt r a

/-- No span is empty, and each ends before the next starts. -/
structure InOrder (r : List (Span φ)) : Prop where
  proper : ∀ x ∈ r, x.start < x.stop
  apart : r.Pairwise fun x y => x.stop ≤ y.start

@[simp] theorem flagsAt_nil (a : Nat) : flagsAt ([] : List (Span φ)) a = none := rfl

theorem flagsAt_cons (x : Span φ) (r : List (Span φ)) (a : Nat) :
    flagsAt (x :: r) a = if x.start ≤ a ∧ a < x.stop then some x.flags else flagsAt r a := rfl

theorem flagsAt_append (l r : List (Span φ)) (a : Nat) :
    flagsAt (l ++ r) a = (flagsAt l a).or (flagsAt r a) := by
  induction l with
  | nil => rfl
  | cons x l ih =>
    rw [List.cons_append, flagsAt_cons, flagsAt_cons, ih]
    split <;> rfl

variable {r : List (Span φ)} {a b start stop : Nat}

theorem flagsAt_below (h : ∀ x ∈ r, b ≤ x.start) (ha : a < b) : flagsAt r a = none := by
  induction r with
  | nil => rfl
  | cons x r ih =>
    have hx := h x (List.mem_cons_self ..)
    rw [flagsAt_cons, if_neg (by omega)]
    exact ih fun y hy => h y (List.mem_cons_of_mem _ hy)

theorem flagsAt_past (h : ∀ x ∈ r, x.stop ≤ b) (ha : b ≤ a) : flagsAt r a = none := by
  induction r with
  | nil => rfl
  | cons x r ih =>
    have hx := h x (List.mem_cons_self ..)
    rw [flagsAt_cons, if_neg (by omega)]
    exact ih fun y hy => h y (List.mem_cons_of_mem _ hy)

theorem InOrder.nil : InOrder ([] : List (Span φ)) :=
  ⟨fun x hx => absurd hx (by simp), List.Pairwise.nil⟩

variable {x : Span φ}

theorem inOrder_cons :
    InOrder (x :: r) ↔ x.start < x.stop ∧ (∀ y ∈ r, x.stop ≤ y.start) ∧ InOrder r := by
  constructor
  · rintro ⟨hproper, hapart⟩
    obtain ⟨hx, hr⟩ := List.pairwise_cons.mp hapart
    exact ⟨hproper x (List.mem_cons_self ..), hx,
      fun y hy => hproper y (List.mem_cons_of_mem _ hy), hr⟩
  · rintro ⟨hx, hbefore, hr⟩
    refine ⟨fun y hy => ?_, List.pairwise_cons.mpr ⟨hbefore, hr.apart⟩⟩
    rcases List.mem_cons.mp hy with rfl | hy
    · exact hx
    · exact hr.proper y hy

theorem inOrder_append {l : List (Span φ)} :
    InOrder (l ++ r) ↔ InOrder l ∧ InOrder r ∧ ∀ x ∈ l, ∀ y ∈ r, x.stop ≤ y.start := by
  induction l with
  | nil => simp [InOrder.nil]
  | cons x l ih =>
    rw [List.cons_append, inOrder_cons, ih, inOrder_cons]
    constructor
    · rintro ⟨hx, hbefore, hl, hr, hcross⟩
      refine ⟨⟨hx, fun y hy => hbefore y (List.mem_append_left _ hy), hl⟩, hr, fun y hy z hz => ?_⟩
      rcases List.mem_cons.mp hy with rfl | hy
      · exact hbefore z (List.mem_append_right _ hz)
      · exact hcross y hy z hz
    · rintro ⟨⟨hx, hbefore, hl⟩, hr, hcross⟩
      refine ⟨hx, fun y hy => ?_, hl, hr, fun y hy z hz => hcross y (List.mem_cons_of_mem _ hy) z hz⟩
      rcases List.mem_append.mp hy with hy | hy
      · exact hbefore y hy
      · exact hcross x (List.mem_cons_self ..) y hy

theorem InOrder.stop_le (h : InOrder (x :: r)) : ∀ y ∈ r, x.stop ≤ y.start ∧ x.stop < y.stop := by
  obtain ⟨-, hbefore, hr⟩ := inOrder_cons.mp h
  intro y hy
  have := hbefore y hy
  have := hr.proper y hy
  exact ⟨by omega, by omega⟩

theorem InOrder.flagsAt_mem (h : InOrder r) (hx : x ∈ r)
    (hlo : x.start ≤ a) (hhi : a < x.stop) : flagsAt r a = some x.flags := by
  induction r with
  | nil => cases hx
  | cons y r ih =>
    rcases List.mem_cons.mp hx with rfl | hx
    · rw [flagsAt_cons, if_pos ⟨hlo, hhi⟩]
    · have := (h.stop_le x hx).1
      rw [flagsAt_cons, if_neg (by omega)]
      exact ih (inOrder_cons.mp h).2.2 hx

/-- The list without `[start, stop)`. -/
def cut (start stop : Nat) : List (Span φ) → List (Span φ)
  | [] => []
  | x :: r =>
    if x.start < stop then
      if x.start < start then
        { x with stop := start } :: if stop < x.stop then { x with start := stop } :: r else cut start stop r
      else if stop < x.stop then { x with start := stop } :: r
      else cut start stop r
    else x :: r

theorem start_le_of_mem_cut
    (h : ∀ x ∈ r, b ≤ x.start) : ∀ y ∈ cut start stop r, b ≤ y.start := by
  induction r with
  | nil => intro y hy; cases hy
  | cons x r ih =>
    have hx := h x (List.mem_cons_self ..)
    have hr : ∀ y ∈ r, b ≤ y.start := fun y hy => h y (List.mem_cons_of_mem _ hy)
    intro y hy
    rw [cut] at hy
    split at hy
    · split at hy
      · rcases List.mem_cons.mp hy with rfl | hy
        · exact hx
        · split at hy
          · rcases List.mem_cons.mp hy with rfl | hy
            · show b ≤ stop
              omega
            · exact hr y hy
          · exact ih hr y hy
      · split at hy
        · rcases List.mem_cons.mp hy with rfl | hy
          · show b ≤ stop
            omega
          · exact hr y hy
        · exact ih hr y hy
    · exact h y hy

theorem InOrder.cut (hss : start ≤ stop) (h : InOrder r)
    (hpast : ∀ x ∈ r, start < x.stop) : InOrder (Span.cut start stop r) := by
  induction r with
  | nil => exact InOrder.nil
  | cons x r ih =>
    obtain ⟨hx, hbefore, hr⟩ := inOrder_cons.mp h
    have hpr : ∀ y ∈ r, start < y.stop := fun y hy => hpast y (List.mem_cons_of_mem _ hy)
    have hxp := hpast x (List.mem_cons_self ..)
    have hrest := ih hr hpr
    rw [Span.cut]
    split
    · split
      · refine inOrder_cons.mpr ⟨?_, ?_, ?_⟩
        · assumption
        · intro y hy
          show start ≤ y.start
          split at hy
          · rcases List.mem_cons.mp hy with rfl | hy
            · exact hss
            · have := hbefore y hy
              omega
          · refine start_le_of_mem_cut (fun z hz => ?_) y hy
            have := hbefore z hz
            omega
        · split
          · exact inOrder_cons.mpr ⟨by assumption, hbefore, hr⟩
          · exact hrest
      · split
        · exact inOrder_cons.mpr ⟨by assumption, hbefore, hr⟩
        · exact hrest
    · exact h

theorem flagsAt_cut (h : InOrder r)
    (hpast : ∀ x ∈ r, start < x.stop) (a : Nat) :
    flagsAt (cut start stop r) a = if start ≤ a ∧ a < stop then none else flagsAt r a := by
  induction r with
  | nil => rw [cut, flagsAt_nil, ite_self]
  | cons x r ih =>
    obtain ⟨hx, hbefore, hr⟩ := inOrder_cons.mp h
    have hxp := hpast x (List.mem_cons_self ..)
    have hrest := ih hr fun y hy => hpast y (List.mem_cons_of_mem _ hy)
    -- past a span that ends at `stop` or later, nothing of the rest is cut
    have hlater : stop ≤ x.stop → ∀ a, start ≤ a ∧ a < stop → flagsAt r a = none :=
      fun hle a ha => flagsAt_below hbefore (by omega)
    rw [cut]
    split
    · rename_i hlt
      split
      · rw [flagsAt_cons]
        split
        · rename_i hin
          simp only at hin
          rw [if_neg (by omega), flagsAt_cons, if_pos (by omega)]
        · rename_i hout
          simp only at hout
          split
          · rename_i hover
            rw [flagsAt_cons]
            simp only
            by_cases hcut : start ≤ a ∧ a < stop
            · rw [if_neg (by omega), if_pos hcut]
              exact hlater (by omega) a hcut
            · rw [if_neg hcut, flagsAt_cons]
              by_cases hin : x.start ≤ a ∧ a < x.stop
              · rw [if_pos (by omega), if_pos hin]
              · rw [if_neg (by omega), if_neg hin]
          · rw [hrest, flagsAt_cons]
            by_cases hcut : start ≤ a ∧ a < stop
            · rw [if_pos hcut, if_pos hcut]
            · rw [if_neg hcut, if_neg hcut, if_neg (by omega)]
      · split
        · rw [flagsAt_cons, flagsAt_cons]
          simp only
          by_cases hcut : start ≤ a ∧ a < stop
          · rw [if_neg (by omega), if_pos hcut]
            exact hlater (by omega) a hcut
          · rw [if_neg hcut]
            by_cases hin : x.start ≤ a ∧ a < x.stop
            · rw [if_pos (by omega), if_pos hin]
            · rw [if_neg (by omega), if_neg hin]
        · rw [hrest, flagsAt_cons]
          by_cases hcut : start ≤ a ∧ a < stop
          · rw [if_pos hcut, if_pos hcut]
          · rw [if_neg hcut, if_neg hcut, if_neg (by omega)]
    · by_cases hcut : start ≤ a ∧ a < stop
      · rw [if_pos hcut]
        refine flagsAt_below (b := stop) (fun y hy => ?_) hcut.2
        rcases List.mem_cons.mp hy with rfl | hy
        · omega
        · have := hbefore y hy
          omega
      · rw [if_neg hcut]

end Span

end NovarisOS
