/-
NovarisOS.Uspace64.Reservations — the list of ranges a process holds that
have no pages behind them, the `resv_*` functions of `kernel/uspace64.c`.

The array `resv[0 .. nresv)` is a list. Where it is full the source backs the
piece it has no room for at once (`spill_range`); that is a matter of the page
tables, so `resvRemove` and `resvAdd` here return the piece that is left over,
and their callers spill it.
-/
import NovarisOS.Lib.Spans

namespace NovarisOS.Uspace64

open NovarisOS.Span

abbrev PROC64_RESV_MAX : Nat := 4096

/-- One entry: `flags` is what a page is mapped with when it is first
touched, 0 for a range that nothing may touch. -/
abbrev Resv := Span Nat

/-- `nresv >= PROC64_RESV_MAX`. -/
def resvFull (bound : Option Nat) (r : List Resv) : Bool :=
  match bound with
  | none => false
  | some max => r.length ≥ max

/-- The binary search of `resv_first_after`. -/
def firstAfterLoop (r : List Resv) (va : Nat) : Nat → Nat → Nat → Nat
  | 0, lo, _ => lo
  | n + 1, lo, hi =>
    if lo < hi then
      let mid := (lo + hi) / 2
      if (r.getD mid ⟨0, 0, 0⟩).stop ≤ va then firstAfterLoop r va n (mid + 1) hi
      else firstAfterLoop r va n lo mid
    else lo

/-- The first region whose end is past `va`. -/
def resvFirstAfter (r : List Resv) (va : Nat) : Nat := firstAfterLoop r va r.length 0 r.length

def resvOverlaps (r : List Resv) (start stop : Nat) : Bool :=
  let i := resvFirstAfter r start
  i < r.length && (r.getD i ⟨0, 0, 0⟩).start < stop

def resvDelete (r : List Resv) (i : Nat) : List Resv := r.eraseIdx i

def resvInsert (bound : Option Nat) (r : List Resv) (i : Nat) (x : Resv) : Option (List Resv) :=
  if resvFull bound r then none else some (r.insertIdx i x)

/-- The loop of `resv_remove`. The second component is the piece above the
range of a region that was split with no slot left for it. -/
def removeLoop (bound : Option Nat) (start stop : Nat) :
    Nat → List Resv → Nat → List Resv × Option Resv
  | 0, r, _ => (r, none)
  | n + 1, r, i =>
    match r[i]? with
    | none => (r, none)
    | some x =>
      if x.start < stop then
        if x.start < start ∧ x.stop > stop then
          let r := r.set i { x with stop := start }
          match resvInsert bound r (i + 1) { x with start := stop } with
          | some r => (r, none)
          | none => (r, some { x with start := stop })
        else if x.start < start then
          removeLoop bound start stop n (r.set i { x with stop := start }) (i + 1)
        else if x.stop > stop then (r.set i { x with start := stop }, none)
        else removeLoop bound start stop n (resvDelete r i) i
      else (r, none)

def resvRemove (bound : Option Nat) (r : List Resv) (start stop : Nat) : List Resv × Option Resv :=
  removeLoop bound start stop (r.length + 1) r (resvFirstAfter r start)

/-- `resv_add`: joined to a neighbour it touches. The second component is
the range itself if there was no slot for it. -/
def resvAdd (bound : Option Nat) (r : List Resv) (start stop flags : Nat) :
    List Resv × Option Resv :=
  let i := resvFirstAfter r start
  let prev := r.getD (i - 1) ⟨0, 0, 0⟩
  let next := r.getD i ⟨0, 0, 0⟩
  let joinPrev := i > 0 && prev.stop = start && prev.flags = flags
  let joinNext := i < r.length && next.start = stop && next.flags = flags
  if joinPrev && joinNext then (resvDelete (r.set (i - 1) { prev with stop := next.stop }) i, none)
  else if joinPrev then (r.set (i - 1) { prev with stop := stop }, none)
  else if joinNext then (r.set i { next with start := start }, none)
  else
    match resvInsert bound r i ⟨start, stop, flags⟩ with
    | some r => (r, none)
    | none => (r, some ⟨start, stop, flags⟩)

/-! ## The search -/

variable {r l m : List Resv}

theorem firstAfterLoop_past (r : List Resv) (va : Nat) : ∀ n lo hi, hi ≤ lo + n → lo ≤ hi → hi ≤ r.length →
    (hi < r.length → va < (r.getD hi ⟨0, 0, 0⟩).stop) → firstAfterLoop r va n lo hi < r.length →
    va < (r.getD (firstAfterLoop r va n lo hi) ⟨0, 0, 0⟩).stop := by
  intro n
  induction n with
  | zero =>
    intro lo hi hn hle _ hpast
    obtain rfl : lo = hi := by omega
    exact hpast
  | succ n ih =>
    intro lo hi hn hle hlen hpast
    rw [firstAfterLoop]
    split
    · simp only
      split
      · exact ih _ _ (by omega) (by omega) hlen hpast
      · rename_i hstop
        exact ih _ _ (by omega) (by omega) (by omega) fun _ => Nat.not_le.mp hstop
    · obtain rfl : lo = hi := by omega
      exact hpast

/-- Whatever the list, the region found ends past `va`. -/
theorem resvFirstAfter_past {r : List Resv} {va : Nat} (hi : resvFirstAfter r va < r.length) :
    r.getD (resvFirstAfter r va) ⟨0, 0, 0⟩ ∈ r ∧ va < (r.getD (resvFirstAfter r va) ⟨0, 0, 0⟩).stop := by
  refine ⟨?_, firstAfterLoop_past r va _ 0 _ (by omega) (Nat.zero_le _) (Nat.le_refl _)
    (fun h => absurd h (Nat.lt_irrefl _)) hi⟩
  rw [List.getD_eq_getElem?_getD, List.getElem?_eq_getElem hi]
  exact List.getElem_mem hi

/-- In an ordered list the search splits it: the regions that end by `va`,
and the ones that end past it. -/
theorem resvFirstAfter_spec (h : InOrder r) (va : Nat) :
    ∃ l m, r = l ++ m ∧ resvFirstAfter r va = l.length ∧ (∀ x ∈ l, x.stop ≤ va) ∧
      ∀ x ∈ m, va < x.stop := by
  have hmono : ∀ i j (hi : i < r.length) (hj : j < r.length), i ≤ j → r[i].stop ≤ r[j].stop := by
    intro i j hi hj hij
    rcases Nat.lt_or_eq_of_le hij with hlt | rfl
    · have happ := List.pairwise_iff_getElem.mp h.apart i j hi hj hlt
      have hproper := h.proper r[j] (List.getElem_mem hj)
      omega
    · exact Nat.le_refl _
  have hloop : ∀ n lo hi, hi ≤ lo + n → lo ≤ hi → hi ≤ r.length →
      (∀ i (hi : i < r.length), i < lo → r[i].stop ≤ va) →
      (∀ i (hr : i < r.length), hi ≤ i → va < r[i].stop) →
      ∃ k, firstAfterLoop r va n lo hi = k ∧ k ≤ r.length ∧
        (∀ i (hi : i < r.length), i < k → r[i].stop ≤ va) ∧
        (∀ i (hr : i < r.length), k ≤ i → va < r[i].stop) := by
    intro n
    induction n with
    | zero =>
      intro lo hi hn hle hlen hlow hhigh
      obtain rfl : lo = hi := by omega
      exact ⟨lo, rfl, hlen, hlow, hhigh⟩
    | succ n ih =>
      intro lo hi hn hle hlen hlow hhigh
      rw [firstAfterLoop]
      split
      · rename_i hlt
        have hmid : (lo + hi) / 2 < r.length := by omega
        have hget : r.getD ((lo + hi) / 2) ⟨0, 0, 0⟩ = r[(lo + hi) / 2] := by
          rw [List.getD_eq_getElem?_getD, List.getElem?_eq_getElem hmid, Option.getD_some]
        simp only [hget]
        split
        · rename_i hstop
          refine ih _ _ (by omega) (by omega) hlen (fun i hr hlt' => ?_) hhigh
          have := hmono i ((lo + hi) / 2) hr hmid (by omega)
          omega
        · rename_i hstop
          refine ih _ _ (by omega) (by omega) (by omega) hlow (fun i hr hge => ?_)
          have := hmono ((lo + hi) / 2) i hmid hr hge
          omega
      · obtain rfl : lo = hi := by omega
        exact ⟨lo, rfl, hlen, hlow, hhigh⟩
  obtain ⟨k, hk, hklen, hlow, hhigh⟩ := hloop r.length 0 r.length (by omega) (Nat.zero_le _)
    (Nat.le_refl _) (fun i _ hi => absurd hi (by omega)) (fun i hr hi => absurd hr (by omega))
  refine ⟨r.take k, r.drop k, (List.take_append_drop k r).symm, ?_, ?_, ?_⟩
  · rw [resvFirstAfter, hk, List.length_take, Nat.min_eq_left hklen]
  · intro x hx
    obtain ⟨i, hi, rfl⟩ := List.getElem_of_mem hx
    rw [List.length_take] at hi
    rw [List.getElem_take]
    exact hlow i (by omega) (by omega)
  · intro x hx
    obtain ⟨i, hi, rfl⟩ := List.getElem_of_mem hx
    rw [List.length_drop] at hi
    rw [List.getElem_drop]
    exact hhigh (k + i) (by omega) (by omega)

variable {start stop : Nat}

/-- A range overlaps the list exactly if the list gives flags to some
address in it. -/
theorem resvOverlaps_iff (h : InOrder r) (hss : start < stop) :
    resvOverlaps r start stop = true ↔ ∃ a, start ≤ a ∧ a < stop ∧ flagsAt r a ≠ none := by
  obtain ⟨l, m, rfl, hi, hl, hm⟩ := resvFirstAfter_spec h start
  obtain ⟨hlo, hmo, hcross⟩ := inOrder_append.mp h
  unfold resvOverlaps
  rw [hi]
  cases m with
  | nil =>
    simp only [List.append_nil, Nat.lt_irrefl, decide_false, Bool.false_and, Bool.false_eq_true,
      false_iff, not_exists, not_and, not_not]
    exact fun a ha _ => flagsAt_past hl ha
  | cons x m =>
    have hx := hm x (List.mem_cons_self ..)
    obtain ⟨hxp, hbefore, -⟩ := inOrder_cons.mp hmo
    simp only [List.length_append, List.length_cons, List.getD_eq_getElem?_getD,
      List.getElem?_append_right (Nat.le_refl _), Nat.sub_self, List.getElem?_cons_zero,
      Option.getD_some, Bool.and_eq_true, decide_eq_true_eq]
    constructor
    · rintro ⟨-, hlt⟩
      refine ⟨max start x.start, by omega, by omega, ?_⟩
      rw [flagsAt_append, flagsAt_past hl (by omega), flagsAt_cons, if_pos (by omega)]
      simp
    · rintro ⟨a, ha, hastop, hne⟩
      refine ⟨by omega, ?_⟩
      by_contra hge
      refine hne ?_
      rw [flagsAt_append, flagsAt_past hl ha, Option.none_or]
      refine flagsAt_below (b := x.start) (fun y hy => ?_) (by omega)
      rcases List.mem_cons.mp hy with rfl | hy
      · exact Nat.le_refl _
      · have := hbefore y hy
        omega

/-! ## Removing -/

theorem insertIdx_append_length {α : Type*} (l m : List α) (x : α) :
    (l ++ m).insertIdx l.length x = l ++ x :: m := by
  induction l with
  | nil => rfl
  | cons y l ih => simp only [List.cons_append, List.length_cons, List.insertIdx_succ_cons, ih]

theorem removeLoop_above (bound : Option Nat) (m : List Resv) :
    ∀ (l : List Resv) (n : Nat), m.length < n → (∀ x ∈ m, start ≤ x.start) →
      removeLoop bound start stop n (l ++ m) l.length = (l ++ cut start stop m, none) := by
  induction m with
  | nil =>
    intro l n hn _
    obtain ⟨n, rfl⟩ := Nat.exists_eq_succ_of_ne_zero (Nat.ne_of_gt hn)
    simp [removeLoop, cut]
  | cons x m ih =>
    intro l n hn habove
    obtain ⟨n, rfl⟩ := Nat.exists_eq_succ_of_ne_zero (by omega : n ≠ 0)
    have hx := habove x (List.mem_cons_self ..)
    have hget : (l ++ x :: m)[l.length]? = some x := by simp
    have hlow : ¬ x.start < start := by omega
    rw [removeLoop, hget]
    by_cases hlt : x.start < stop
    · by_cases hover : stop < x.stop
      · simp [cut, hlt, hlow, hover]
      · have herase : resvDelete (l ++ x :: m) l.length = l ++ m := by
          rw [resvDelete, List.eraseIdx_append_of_length_le (Nat.le_refl _), Nat.sub_self,
            List.eraseIdx_cons_zero]
        simp only [cut, hlt, hlow, hover, if_true, if_false, false_and, herase]
        exact ih l n (by simp at hn; omega) fun y hy => habove y (List.mem_cons_of_mem _ hy)
    · simp [cut, hlt]

/-- The loop is `cut`, but for the piece of a split region that found no
slot. -/
theorem removeLoop_eq (bound : Option Nat) (hss : start ≤ stop)
    (hm : InOrder m) (hpast : ∀ x ∈ m, start < x.stop) {n : Nat} (hn : m.length < n) :
    removeLoop bound start stop n (l ++ m) l.length = (l ++ cut start stop m, none) ∨
    ∃ x rest, m = x :: rest ∧ x.start < start ∧ stop < x.stop ∧ resvFull bound (l ++ m) = true ∧
      removeLoop bound start stop n (l ++ m) l.length =
        (l ++ { x with stop := start } :: rest, some { x with start := stop }) := by
  cases m with
  | nil => exact Or.inl (removeLoop_above bound [] l n hn (by simp))
  | cons x rest =>
    by_cases hx : x.start < start
    · obtain ⟨n, rfl⟩ := Nat.exists_eq_succ_of_ne_zero (by omega : n ≠ 0)
      obtain ⟨-, hbefore, hrest⟩ := inOrder_cons.mp hm
      have hxp := hpast x (List.mem_cons_self ..)
      have hget : (l ++ x :: rest)[l.length]? = some x := by simp
      have hset : (l ++ x :: rest).set l.length { x with stop := start } =
          l ++ { x with stop := start } :: rest := by simp
      have hlt : x.start < stop := by omega
      rw [removeLoop, hget]
      by_cases hsplit : stop < x.stop
      · simp only [cut, hlt, hx, hsplit, and_self, if_true, hset, resvInsert]
        have hfull : resvFull bound (l ++ { x with stop := start } :: rest) =
            resvFull bound (l ++ x :: rest) := by simp [resvFull]
        rw [hfull]
        cases hb : resvFull bound (l ++ x :: rest) with
        | true => exact Or.inr ⟨x, rest, rfl, hx, hsplit, rfl, by simp⟩
        | false =>
          refine Or.inl ?_
          have hins : (l ++ { x with stop := start } :: rest).insertIdx (l.length + 1)
              { x with start := stop } =
              l ++ { x with stop := start } :: { x with start := stop } :: rest := by
            rw [show l ++ ({ x with stop := start } : Resv) :: rest =
              (l ++ [{ x with stop := start }]) ++ rest by simp,
              show l.length + 1 = (l ++ [({ x with stop := start } : Resv)]).length by simp,
              insertIdx_append_length]
            simp
          simp only [Bool.false_eq_true, if_false, hins]
      · refine Or.inl ?_
        have happ : l ++ { x with stop := start } :: rest =
            (l ++ [{ x with stop := start }]) ++ rest := by simp
        have hlen : l.length + 1 = (l ++ [({ x with stop := start } : Resv)]).length := by simp
        simp only [cut, hlt, hx, hsplit, and_false, if_true, if_false, hset]
        rw [happ, hlen, removeLoop_above bound rest _ n (by simp at hn; omega) (fun y hy => by
          have := hbefore y hy
          omega)]
        simp
    · refine Or.inl (removeLoop_above bound _ l n hn fun y hy => ?_)
      rcases List.mem_cons.mp hy with rfl | hy
      · omega
      · have := (hm.stop_le y hy).1
        have := hpast x (List.mem_cons_self ..)
        omega

/-- `resv_remove` takes the range out of the list, and with it the piece it
hands back to be spilled. -/
structure Removed (r : List Resv) (start stop : Nat) (r' : List Resv) (sp : Option Resv) : Prop where
  inOrder : InOrder r'
  flagsAt : ∀ a, Span.flagsAt r' a =
    if (start ≤ a ∧ a < stop) ∨ (Span.flagsAt sp.toList a).isSome then none else Span.flagsAt r a
  spill : ∀ x ∈ sp, x.start = stop ∧ x.start < x.stop ∧
    ∀ a, x.start ≤ a → a < x.stop → Span.flagsAt r a = some x.flags

theorem resvRemove_spec (bound : Option Nat) (h : InOrder r)
    (hss : start ≤ stop) :
    Removed r start stop (resvRemove bound r start stop).1 (resvRemove bound r start stop).2 := by
  obtain ⟨l, m, rfl, hi, hl, hm⟩ := resvFirstAfter_spec h start
  obtain ⟨hlo, hmo, hcross⟩ := inOrder_append.mp h
  have hleft : ∀ a, start ≤ a → Span.flagsAt l a = none := fun a ha => flagsAt_past hl ha
  unfold resvRemove
  rw [hi]
  have hn : m.length < (l ++ m).length + 1 := by
    rw [List.length_append]
    omega
  rcases removeLoop_eq bound (l := l) hss hmo hm hn with heq | ⟨x, rest, rfl, hx, hover, -, heq⟩
  · rw [heq]
    refine ⟨inOrder_append.mpr ⟨hlo, hmo.cut hss hm, fun x hx => ?_⟩, fun a => ?_, by simp⟩
    · exact start_le_of_mem_cut fun y hy => hcross x hx y hy
    · rw [flagsAt_append, flagsAt_append, flagsAt_cut hmo hm]
      simp only [Option.toList_none, flagsAt_nil, Option.isSome_none, Bool.false_eq_true, or_false]
      by_cases hcut : start ≤ a ∧ a < stop
      · rw [if_pos hcut, if_pos hcut, hleft a hcut.1]
        rfl
      · rw [if_neg hcut, if_neg hcut]
  · rw [heq]
    obtain ⟨-, hbefore, hrest⟩ := inOrder_cons.mp hmo
    have hlater : ∀ a, a < x.stop → Span.flagsAt rest a = none := fun a ha => flagsAt_below hbefore ha
    refine ⟨inOrder_append.mpr ⟨hlo, ?_, ?_⟩, fun a => ?_, ?_⟩
    · refine inOrder_cons.mpr ⟨hx, fun y hy => ?_, hrest⟩
      have := hbefore y hy
      show start ≤ y.start
      omega
    · intro y hy z hz
      rcases List.mem_cons.mp hz with rfl | hz
      · exact hcross y hy x (List.mem_cons_self ..)
      · exact hcross y hy z (List.mem_cons_of_mem _ hz)
    · simp only [Option.toList_some, flagsAt_append, flagsAt_cons, flagsAt_nil]
      by_cases hin : start ≤ a ∧ a < x.stop
      · rw [if_neg (by omega : ¬ (x.start ≤ a ∧ a < start)), hleft a hin.1, hlater a hin.2]
        by_cases hcut : a < stop
        · rw [if_pos (Or.inl ⟨hin.1, hcut⟩)]
          rfl
        · rw [if_pos (by omega : stop ≤ a ∧ a < x.stop)]
          simp
      · rw [if_neg (by omega : ¬ (stop ≤ a ∧ a < x.stop)),
          if_neg (by simp; omega : ¬ ((start ≤ a ∧ a < stop) ∨ (none : Option Nat).isSome = true))]
        by_cases hlow : x.start ≤ a ∧ a < start
        · rw [if_pos hlow, if_pos (by omega : x.start ≤ a ∧ a < x.stop)]
        · rw [if_neg hlow, if_neg (by omega : ¬ (x.start ≤ a ∧ a < x.stop))]
    · intro y hy
      obtain rfl : y = { x with start := stop } := by simpa using hy.symm
      refine ⟨rfl, hover, fun a hlo hhi => ?_⟩
      simp only at hlo hhi ⊢
      rw [flagsAt_append, hleft a (by omega), flagsAt_cons, if_pos (by omega)]
      rfl

theorem resvRemove_spill_none {bound : Option Nat} (h : InOrder r)
    (hss : start ≤ stop) (hroom : resvFull bound r = false) :
    (resvRemove bound r start stop).2 = none := by
  obtain ⟨l, m, rfl, hi, hl, hm⟩ := resvFirstAfter_spec h start
  unfold resvRemove
  rw [hi]
  have hn : m.length < (l ++ m).length + 1 := by
    rw [List.length_append]
    omega
  rcases removeLoop_eq bound (l := l) hss (inOrder_append.mp h).2.1 hm hn with
    heq | ⟨x, rest, rfl, -, -, hfull, -⟩
  · rw [heq]
  · rw [hroom] at hfull
    cases hfull

/-! ## Adding -/

/-- `resv_add` gives the range its flags, unless it hands it back to be
spilled. -/
structure Added (r : List Resv) (start stop flags : Nat) (r' : List Resv) (sp : Option Resv) :
    Prop where
  inOrder : InOrder r'
  flagsAt : ∀ a, Span.flagsAt r' a =
    if start ≤ a ∧ a < stop then (if sp.isSome then none else some flags) else Span.flagsAt r a
  spill : ∀ x ∈ sp, x = ⟨start, stop, flags⟩

theorem added_middle (h : InOrder (l ++ m)) (flags : Nat)
    (hss : start < stop) (hl : ∀ x ∈ l, x.stop ≤ start) (hm : ∀ x ∈ m, stop ≤ x.start) :
    Added (l ++ m) start stop flags (l ++ ⟨start, stop, flags⟩ :: m) none := by
  obtain ⟨hlo, hmo, hcross⟩ := inOrder_append.mp h
  refine ⟨inOrder_append.mpr ⟨hlo, inOrder_cons.mpr ⟨hss, hm, hmo⟩, ?_⟩, fun a => ?_, by simp⟩
  · intro y hy z hz
    rcases List.mem_cons.mp hz with rfl | hz
    · exact hl y hy
    · exact hcross y hy z hz
  · rw [flagsAt_append, flagsAt_append, flagsAt_cons]
    by_cases hin : start ≤ a ∧ a < stop
    · rw [if_pos hin, if_pos hin, flagsAt_past hl hin.1]
      rfl
    · rw [if_neg hin, if_neg hin]

theorem added_join {flags : Nat} {x y : Resv}
    (h : Added r start stop flags (l ++ x :: y :: m) none) (htouch : x.stop = y.start)
    (hflags : x.flags = y.flags) :
    Added r start stop flags (l ++ { x with stop := y.stop } :: m) none := by
  obtain ⟨hlo, hxym, hcross⟩ := inOrder_append.mp h.inOrder
  obtain ⟨hx, -, hym⟩ := inOrder_cons.mp hxym
  obtain ⟨hy, hbefore, hm⟩ := inOrder_cons.mp hym
  refine ⟨inOrder_append.mpr ⟨hlo, inOrder_cons.mpr ⟨?_, hbefore, hm⟩, ?_⟩, fun a => ?_, by simp⟩
  · show x.start < y.stop
    omega
  · intro z hz w hw
    rcases List.mem_cons.mp hw with rfl | hw
    · exact hcross z hz x (List.mem_cons_self ..)
    · exact hcross z hz w (List.mem_cons_of_mem _ (List.mem_cons_of_mem _ hw))
  · rw [← h.flagsAt a, flagsAt_append, flagsAt_append, flagsAt_cons, flagsAt_cons, flagsAt_cons]
    congr 1
    simp only
    by_cases h1 : x.start ≤ a ∧ a < x.stop
    · rw [if_pos (by omega), if_pos h1]
    · by_cases h2 : y.start ≤ a ∧ a < y.stop
      · rw [if_pos (by omega), if_neg h1, if_pos h2, hflags]
      · rw [if_neg (by omega), if_neg h1, if_neg h2]

theorem joinPrev_iff (l m : List Resv) (start flags : Nat) :
    (decide (l.length > 0) && decide (((l ++ m).getD (l.length - 1) ⟨0, 0, 0⟩).stop = start) &&
      decide (((l ++ m).getD (l.length - 1) ⟨0, 0, 0⟩).flags = flags)) = true ↔
    ∃ l' p, l = l' ++ [p] ∧ p.stop = start ∧ p.flags = flags := by
  rcases List.eq_nil_or_concat l with rfl | ⟨l, p, rfl⟩
  · simp
  · simp [List.concat_eq_append, and_assoc]

theorem joinNext_iff (l m : List Resv) (stop flags : Nat) :
    (decide (l.length < (l ++ m).length) &&
      decide (((l ++ m).getD l.length ⟨0, 0, 0⟩).start = stop) &&
      decide (((l ++ m).getD l.length ⟨0, 0, 0⟩).flags = flags)) = true ↔
    ∃ n m', m = n :: m' ∧ n.start = stop ∧ n.flags = flags := by
  cases m with
  | nil => simp
  | cons n m => simp [and_assoc]

theorem resvAdd_spec (bound : Option Nat) (h : InOrder r)
    (flags : Nat) (hss : start < stop)
    (habsent : ∀ a, start ≤ a → a < stop → Span.flagsAt r a = none) :
    Added r start stop flags (resvAdd bound r start stop flags).1
      (resvAdd bound r start stop flags).2 := by
  obtain ⟨l, m, rfl, hi, hl, hm⟩ := resvFirstAfter_spec h start
  obtain ⟨hlo, hmo, hcross⟩ := inOrder_append.mp h
  -- nothing that ends past `start` starts before `stop`: the range is absent
  have hmstop : ∀ x ∈ m, stop ≤ x.start := by
    intro x hx
    by_contra hlt
    have hxs := hm x hx
    have hxp := hmo.proper x hx
    have := h.flagsAt_mem (List.mem_append_right l hx) (a := max start x.start) (by omega) (by omega)
    rw [habsent (max start x.start) (by omega) (by omega)] at this
    cases this
  have hmid := added_middle h flags hss hl hmstop
  have hprev := joinPrev_iff l m start flags
  have hnext := joinNext_iff l m stop flags
  unfold resvAdd
  simp only [hi]
  split
  · rename_i hjoin
    obtain ⟨hjp, hjn⟩ := Bool.and_eq_true_iff.mp hjoin
    obtain ⟨l, p, rfl, hps, hpf⟩ := hprev.mp hjp
    obtain ⟨n, m, rfl, hns, hnf⟩ := hnext.mp hjn
    have h1 := added_join (l := l) (x := p) (by simpa using hmid) hps hpf
    have h2 := added_join h1 hns.symm (hpf.trans hnf.symm)
    have hlist : resvDelete (((l ++ [p]) ++ n :: m).set ((l ++ [p]).length - 1)
        { ((l ++ [p]) ++ n :: m).getD ((l ++ [p]).length - 1) ⟨0, 0, 0⟩ with
          stop := (((l ++ [p]) ++ n :: m).getD (l ++ [p]).length ⟨0, 0, 0⟩).stop })
        (l ++ [p]).length = l ++ { p with stop := n.stop } :: m := by
      simp [resvDelete, List.eraseIdx_append_of_length_le]
    rw [hlist]
    simpa using h2
  · rename_i hnot
    split
    · rename_i hjp
      obtain ⟨l, p, rfl, hps, hpf⟩ := hprev.mp hjp
      have h1 := added_join (l := l) (x := p) (by simpa using hmid) hps hpf
      simpa using h1
    · split
      · rename_i hjn
        obtain ⟨n, m, rfl, hns, hnf⟩ := hnext.mp hjn
        have h1 := added_join (l := l) (x := ⟨start, stop, flags⟩) hmid hns.symm hnf.symm
        have hn : ({ n with start := start } : Resv) = ⟨start, n.stop, flags⟩ := by rw [← hnf]
        simpa [hn] using h1
      · unfold resvInsert
        cases hfull : resvFull bound (l ++ m) with
        | false =>
          simp only [Bool.false_eq_true, if_false, insertIdx_append_length]
          exact hmid
        | true =>
          refine ⟨h, fun a => ?_, fun x hx => by simpa using hx.symm⟩
          simp only [if_true, Option.isSome_some]
          split
          · rename_i hin
            exact habsent a hin.1 hin.2
          · rfl

theorem resvAdd_spill_none {bound : Option Nat} (start stop flags : Nat)
    (hroom : resvFull bound r = false) : (resvAdd bound r start stop flags).2 = none := by
  unfold resvAdd
  simp only
  split
  · rfl
  · split
    · rfl
    · split
      · rfl
      · simp [resvInsert, hroom]

end NovarisOS.Uspace64
