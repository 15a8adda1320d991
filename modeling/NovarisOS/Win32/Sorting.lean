/-
NovarisOS.Win32.Sorting — qsort sorts and bsearch finds.

An `Arr` is an array that fits in the address space, and `view` its elements
by index. Everything `user_qsort` does to an array it does by swaps, so that
what it leaves is the elements in another order whatever the comparator says
(`Moved`). What it says only matters for the order: `SortedBut` is the
invariant of the insertion, `Split` what a partition leaves.
-/
import Mathlib.Data.Nat.Log
import NovarisOS.Win32.Qsort
import NovarisOS.Lib.Rearranged

namespace NovarisOS.Win32

/-! ## Sorted sequences -/

section Sorted

variable {α : Type*} {le : α → α → Prop} {v v' : Nat → α} {lo mid hi x : Nat}

/-- Every two values can be compared, and comparing is transitive. -/
structure TotalPreorder (le : α → α → Prop) : Prop where
  total : ∀ x y, le x y ∨ le y x
  trans : ∀ x y z, le x y → le y z → le x z

/-- An answer tells how two values compare. -/
def Agrees (r : Int) (le : α → α → Prop) (x y : α) : Prop := (0 < r ↔ ¬le x y) ∧ (r < 0 ↔ ¬le y x)

/-- The range is in order. -/
def SortedOn (le : α → α → Prop) (lo hi : Nat) (v : Nat → α) : Prop :=
  ∀ k l, lo ≤ k → k < l → l < hi → le (v k) (v l)

/-- Only the element at `x` may come too late. -/
def SortedBut (le : α → α → Prop) (lo hi x : Nat) (v : Nat → α) : Prop :=
  ∀ k l, lo ≤ k → k < l → l < hi → l ≠ x → le (v k) (v l)

/-- Nothing before `mid` is above it, and nothing behind it is below. -/
structure Split (le : α → α → Prop) (lo mid hi : Nat) (v : Nat → α) : Prop where
  left : ∀ i, lo ≤ i → i < mid → le (v i) (v mid)
  right : ∀ i, mid + 1 ≤ i → i < hi → le (v mid) (v i)

theorem TotalPreorder.of_not (h : TotalPreorder le) {x y : α} (hn : ¬le x y) : le y x := (h.total x y).resolve_left hn

theorem SortedBut.swap (hs : SortedBut le lo hi (x + 1) v) (hx : lo ≤ x) (hhi : x + 1 < hi)
    (hle : le (v (x + 1)) (v x)) (hv : ∀ k, v' k = v (Equiv.swap x (x + 1) k)) : SortedBut le lo hi x v' := by
  have hat : v' x = v (x + 1) := by rw [hv, Equiv.swap_apply_left]
  have hnext : v' (x + 1) = v x := by rw [hv, Equiv.swap_apply_right]
  have hother : ∀ k, k ≠ x → k ≠ x + 1 → v' k = v k := fun k h₁ h₂ => by rw [hv, Equiv.swap_apply_of_ne_of_ne h₁ h₂]
  intro k l hk hkl hl hne
  by_cases hlx : l = x + 1
  · subst hlx
    rw [hnext]
    by_cases hkx : k = x
    · rw [hkx, hat]
      exact hle
    · rw [hother k hkx (by omega)]
      exact hs k x hk (by omega) (by omega) (by omega)
  · rw [hother l hne hlx]
    by_cases hkx : k = x
    · rw [hkx, hat]
      exact hs (x + 1) l (by omega) (by omega) hl hlx
    · by_cases hkn : k = x + 1
      · rw [hkn, hnext]
        exact hs x l hx (by omega) hl hlx
      · rw [hother k hkx hkn]
        exact hs k l hk hkl hl hlx

theorem SortedBut.sorted (h : TotalPreorder le) (hs : SortedBut le lo hi (x + 1) v) (hhi : x + 1 < hi)
    (hle : le (v x) (v (x + 1))) : SortedOn le lo hi v := by
  intro k l hk hkl hl
  by_cases hlx : l = x + 1
  · subst hlx
    by_cases hkx : k = x
    · rw [hkx]
      exact hle
    · exact h.trans _ _ _ (hs k x hk (by omega) (by omega) (by omega)) hle
  · exact hs k l hk hkl hl hlx

theorem SortedBut.sorted_first (hs : SortedBut le lo hi lo v) : SortedOn le lo hi v :=
  fun k l hk hkl hl => hs k l hk hkl hl (by omega)

theorem SortedOn.congr (hs : SortedOn le lo hi v) (h : ∀ i, lo ≤ i → i < hi → v' i = v i) : SortedOn le lo hi v' := by
  intro k l hk hkl hl
  rw [h k hk (by omega), h l (by omega) hl]
  exact hs k l hk hkl hl

theorem Split.left_rearranged (h : Split le lo mid hi v) (hr : Rearranged lo mid v v') : Split le lo mid hi v' where
  left := by
    rw [hr.outside (.inr (Nat.le_refl mid))]
    exact hr.all (P := fun y => le y (v mid)) h.left
  right i h₁ h₂ := by
    rw [hr.outside (.inr (Nat.le_refl mid)), hr.outside (.inr (by omega))]
    exact h.right i h₁ h₂

theorem Split.right_rearranged (h : Split le lo mid hi v) (hr : Rearranged (mid + 1) hi v v') :
    Split le lo mid hi v' where
  left i h₁ h₂ := by
    rw [hr.outside (.inl (Nat.lt_succ_self mid)), hr.outside (.inl (by omega))]
    exact h.left i h₁ h₂
  right := by
    rw [hr.outside (.inl (Nat.lt_succ_self mid))]
    exact hr.all (P := fun y => le (v mid) y) h.right

theorem Split.sorted (h : TotalPreorder le) (hs : Split le lo mid hi v) (hleft : SortedOn le lo mid v)
    (hright : SortedOn le (mid + 1) hi v) : SortedOn le lo hi v := by
  intro k l hk hkl hl
  obtain hlm | rfl | hml := Nat.lt_trichotomy l mid
  · exact hleft k l hk hkl hlm
  · exact hs.left k hk hkl
  · obtain hkm | rfl | hmk := Nat.lt_trichotomy k mid
    · exact h.trans _ _ _ (hs.left k hk hkm) (hs.right l hml hl)
    · exact hs.right l hml hl
    · exact hright k l hmk hkl hl

end Sorted

/-! ## Arrays in memory -/

/-- An array of `n` elements that fits in 32 bits. -/
structure Arr where
  base : Nat
  size : Nat
  n : Nat
  pos : 0 < size
  fits : base + n * size ≤ 0x100000000

namespace Arr

variable (A : Arr)

/-- The address of an element. -/
def addr (i : Nat) : Nat := elemAddr A.base A.size i

/-- A byte of the array. -/
def Has (x : Nat) : Prop := A.base ≤ x ∧ x < A.base + A.n * A.size

/-- The elements, by index. -/
def view (m : Mem) (i : Nat) : List UInt8 := if i < A.n then m.bytes (A.addr i) A.size else []

/-- The address of some element. -/
def IsElem (a : Nat) : Prop := ∃ i < A.n, a = A.base + i * A.size

/-- The elements, as a list. -/
def elems (m : Mem) : List (List UInt8) := (List.range A.n).map (A.view m)

variable {A} {m m' : Mem} {i j k off : Nat}

theorem mul_lt (hij : i < j) : i * A.size + A.size ≤ j * A.size := by
  have := Nat.mul_le_mul_right A.size hij
  rwa [Nat.succ_mul] at this

theorem addr_eq (hi : i < A.n) : A.addr i = A.base + i * A.size := by
  have := mul_lt (A := A) hi
  have := A.fits
  have := A.pos
  exact Nat.mod_eq_of_lt (by omega)

theorem addr_has (hi : i < A.n) {t : Nat} (ht : t < A.size) : A.Has (A.addr i + t) := by
  have := mul_lt (A := A) hi
  rw [addr_eq hi]
  constructor <;> omega

theorem elemAddr_addr (off i : Nat) : elemAddr (A.addr off) A.size i = A.addr (off + i) := by
  rw [addr, addr, elemAddr, elemAddr, elemAddr, Nat.mod_add_mod, Nat.add_assoc, ← Nat.add_mul]

theorem addr_zero (hn : 0 < A.n) : A.addr 0 = A.base := by
  rw [addr_eq hn, Nat.zero_mul, Nat.add_zero]

theorem view_congr (h : ∀ x, A.Has x → m' x = m x) : A.view m' = A.view m := by
  funext i
  rw [view, view]
  split
  · rename_i hi
    exact List.map_congr_left fun t ht => h _ (addr_has hi (List.mem_range.1 ht))
  · rfl

theorem swapBytes_apply {a b n : Nat} (h : a = b ∨ a + n ≤ b ∨ b + n ≤ a) (m : Mem) (x : Nat) :
    swapBytes a b n m x = if a ≤ x ∧ x < a + n then m (b + (x - a))
      else if b ≤ x ∧ x < b + n then m (a + (x - b)) else m x := by
  induction n generalizing x with
  | zero =>
    rw [swapBytes, if_neg (by omega), if_neg (by omega)]
  | succ n ih =>
    have ih := ih (by omega)
    have ha : swapBytes a b n m (a + n) = m (a + n) := by
      rw [ih, if_neg (by omega), if_neg (by omega)]
    have hb : swapBytes a b n m (b + n) = m (b + n) := by
      rw [ih, if_neg (by omega), if_neg (by omega)]
    simp only [swapBytes, ha, hb, Function.update_apply]
    by_cases hxb : x = b + n
    · subst hxb
      rw [if_pos rfl]
      by_cases hab : a = b
      · subst hab
        rw [if_pos (by omega)]
        congr 1
        omega
      · rw [if_neg (by omega), if_pos (by omega)]
        congr 1
        omega
    · rw [if_neg hxb]
      by_cases hxa : x = a + n
      · subst hxa
        rw [if_pos rfl, if_pos (by omega)]
        congr 1
        omega
      · rw [if_neg hxa, ih]
        by_cases h₁ : a ≤ x ∧ x < a + n
        · rw [if_pos h₁, if_pos (by omega)]
        · rw [if_neg h₁]
          by_cases h₂ : b ≤ x ∧ x < b + n
          · rw [if_pos h₂, if_neg (by omega), if_pos (by omega)]
          · rw [if_neg h₂, if_neg (by omega), if_neg (by omega)]

theorem addr_apart (hi : i < A.n) (hj : j < A.n) :
    A.addr i = A.addr j ∨ A.addr i + A.size ≤ A.addr j ∨ A.addr j + A.size ≤ A.addr i := by
  rw [addr_eq hi, addr_eq hj]
  obtain h | rfl | h := Nat.lt_trichotomy i j
  · have := mul_lt (A := A) h
    omega
  · exact .inl rfl
  · have := mul_lt (A := A) h
    omega

theorem swapBytes_outside (hi : i < A.n) (hj : j < A.n) {x : Nat} (hx : ¬A.Has x) :
    swapBytes (A.addr i) (A.addr j) A.size m x = m x := by
  have h₁ := mul_lt (A := A) hi
  have h₂ := mul_lt (A := A) hj
  have hout : x < A.base ∨ A.base + A.n * A.size ≤ x := by
    rw [Has] at hx
    omega
  rw [swapBytes_apply (addr_apart hi hj), addr_eq hi, addr_eq hj, if_neg (by omega), if_neg (by omega)]

theorem view_swapBytes (hi : i < A.n) (hj : j < A.n) (k : Nat) :
    A.view (swapBytes (A.addr i) (A.addr j) A.size m) k = A.view m (Equiv.swap i j k) := by
  by_cases hk : k < A.n
  swap
  · rw [Equiv.swap_apply_of_ne_of_ne (by omega) (by omega), view, view, if_neg hk, if_neg hk]
  · have hbytes : ∀ k' < A.n, (∀ t < A.size,
        swapBytes (A.addr i) (A.addr j) A.size m (A.addr k + t) = m (A.addr k' + t)) →
        A.view (swapBytes (A.addr i) (A.addr j) A.size m) k = A.view m k' := by
      intro k' hk' h
      rw [view, view, if_pos hk, if_pos hk']
      exact List.map_congr_left fun t ht => h t (List.mem_range.1 ht)
    have hswap := swapBytes_apply (addr_apart hi hj) m
    by_cases hki : k = i
    · subst hki
      rw [Equiv.swap_apply_left]
      refine hbytes j hj fun t ht => ?_
      rw [hswap, if_pos (by omega), Nat.add_sub_cancel_left]
    · by_cases hkj : k = j
      · subst hkj
        rw [Equiv.swap_apply_right]
        refine hbytes i hi fun t ht => ?_
        have := addr_apart hi hk
        have hne : A.addr i ≠ A.addr k := by
          rw [addr_eq hi, addr_eq hk]
          obtain h | h := Nat.lt_or_gt_of_ne hki
          · have := mul_lt (A := A) h
            omega
          · have := mul_lt (A := A) h
            omega
        rw [hswap, if_neg (by omega), if_pos (by omega), Nat.add_sub_cancel_left]
      · rw [Equiv.swap_apply_of_ne_of_ne hki hkj]
        refine hbytes k hk fun t ht => ?_
        have hne : ∀ {l}, l < A.n → k ≠ l → A.addr k + A.size ≤ A.addr l ∨ A.addr l + A.size ≤ A.addr k := by
          intro l hl hkl
          rw [addr_eq hl, addr_eq hk]
          obtain h | h := Nat.lt_or_gt_of_ne hkl
          · have := mul_lt (A := A) h
            omega
          · have := mul_lt (A := A) h
            omega
        have h₁ := hne hi hki
        have h₂ := hne hj hkj
        rw [hswap, if_neg (by omega), if_neg (by omega)]

end Arr

/-! ## What the comparator is relied on for -/

section Loops

variable {σ : Type} {call : Callback σ} {cmp : Nat} {A : Arr} {ok : Mem → σ → Prop} {s s' s'' : Env σ}

/-- The comparator does not write to the array, and what else it relies on
lasts. -/
structure Arr.Respects (A : Arr) (call : Callback σ) (cmp : Nat) (ok : Mem → σ → Prop) : Prop where
  array : ∀ a b m w x, ok m w → A.Has x → (call cmp a b m w).2.1 x = m x
  called : ∀ a b m w, ok m w → ok (call cmp a b m w).2.1 (call cmp a b m w).2.2
  written : ∀ m m' w, ok m w → (∀ x, ¬A.Has x → m' x = m x) → ok m' w

/-- The comparator compares elements. -/
structure Arr.Orders (A : Arr) (call : Callback σ) (cmp : Nat) (ok : Mem → σ → Prop)
    (le : List UInt8 → List UInt8 → Prop) : Prop where
  preorder : TotalPreorder le
  agrees : ∀ i < A.n, ∀ j < A.n, ∀ m w, ok m w →
    Agrees (verdict (call cmp (A.addr i) (A.addr j) m w).1) le (A.view m i) (A.view m j)

/-- The elements of a range are in another order, and the comparator was given
addresses of elements. -/
structure Arr.Moved (A : Arr) (ok : Mem → σ → Prop) (lo hi depth : Nat) (s s' : Env σ) : Prop where
  rearranged : Rearranged lo hi (A.view s.mem) (A.view s'.mem)
  asked : ∀ q ∈ s'.asked, q ∈ s.asked ∨ A.IsElem q.1 ∧ A.IsElem q.2
  deepest : s'.deepest ≤ max s.deepest depth
  ok : ok s'.mem s'.world

namespace Arr.Moved

variable {lo hi lo' hi' depth depth' : Nat}

theorem refl (lo hi depth : Nat) (h : ok s.mem s.world) : A.Moved ok lo hi depth s s :=
  ⟨.refl _ _ _, fun _ hq => .inl hq, Nat.le_max_left _ _, h⟩

theorem trans (h : A.Moved ok lo hi depth s s') (h' : A.Moved ok lo hi depth s' s'') :
    A.Moved ok lo hi depth s s'' where
  rearranged := h.rearranged.trans h'.rearranged
  asked q hq := (h'.asked q hq).elim (h.asked q) .inr
  deepest := by
    have h₁ := h.deepest
    have h₂ := h'.deepest
    omega
  ok := h'.ok

theorem mono (h : A.Moved ok lo hi depth s s') (hlo : lo' ≤ lo) (hhi : hi ≤ hi') (hd : depth ≤ depth') :
    A.Moved ok lo' hi' depth' s s' where
  rearranged := h.rearranged.mono hlo hhi
  asked := h.asked
  deepest := by
    have := h.deepest
    omega
  ok := h.ok

end Arr.Moved

theorem userCompare_spec (hr : A.Respects call cmp ok) (h : ok s.mem s.world) {i j : Nat} (hi : i < A.n) (hj : j < A.n)
    (lo hi' : Nat) :
    A.Moved ok lo hi' 0 s (userCompare call cmp (A.addr i) (A.addr j) s).2 ∧
      A.view (userCompare call cmp (A.addr i) (A.addr j) s).2.mem = A.view s.mem ∧
      ∀ le, A.Orders call cmp ok le →
        Agrees (userCompare call cmp (A.addr i) (A.addr j) s).1 le (A.view s.mem i) (A.view s.mem j) := by
  have hview : A.view (userCompare call cmp (A.addr i) (A.addr j) s).2.mem = A.view s.mem :=
    Arr.view_congr fun x hx => hr.array _ _ _ _ x h hx
  refine ⟨⟨?_, ?_, Nat.le_max_left _ _, hr.called _ _ _ _ h⟩, hview, fun le hle => hle.agrees i hi j hj _ _ h⟩
  · rw [hview]
    exact .refl _ _ _
  · intro q hq
    obtain hq | hq := List.mem_append.1 hq
    · exact .inl hq
    · obtain rfl := List.mem_singleton.1 hq
      exact .inr ⟨⟨i, hi, Arr.addr_eq hi⟩, ⟨j, hj, Arr.addr_eq hj⟩⟩

theorem userSwap_spec (hr : A.Respects call cmp ok) (h : ok s.mem s.world) {i j lo hi : Nat}
    (hi₁ : lo ≤ i) (hi₂ : i < hi)
    (hj₁ : lo ≤ j) (hj₂ : j < hi) (hn : hi ≤ A.n) :
    A.Moved ok lo hi 0 s (userSwap (A.addr i) (A.addr j) A.size s) ∧
      ∀ k, A.view (userSwap (A.addr i) (A.addr j) A.size s).mem k = A.view s.mem (Equiv.swap i j k) := by
  have hview := Arr.view_swapBytes (m := s.mem) (show i < A.n by omega) (show j < A.n by omega)
  refine ⟨⟨.swap hi₁ hi₂ hj₁ hj₂ hview, fun _ hq => .inl hq, Nat.le_max_left _ _, ?_⟩, hview⟩
  exact hr.written _ _ _ h fun x hx => Arr.swapBytes_outside (by omega) (by omega) hx

/-! ## Insertion -/

theorem insertDown_spec (hr : A.Respects call cmp ok) {off hi : Nat} (hn : hi ≤ A.n) {j : Nat} (hj : off + j < hi)
    (h : ok s.mem s.world) :
    A.Moved ok off hi 0 s (insertDown call cmp (A.addr off) A.size j s) ∧
      ∀ le, A.Orders call cmp ok le → SortedBut le off hi (off + j) (A.view s.mem) →
        SortedOn le off hi (A.view (insertDown call cmp (A.addr off) A.size j s).mem) := by
  induction j generalizing s with
  | zero => exact ⟨.refl _ _ _ h, fun le _ hs => hs.sorted_first⟩
  | succ j ih =>
    obtain ⟨hmoved, hview, hagrees⟩ :=
      userCompare_spec hr h (show off + j < A.n by omega) (show off + (j + 1) < A.n by omega) off hi
    rw [insertDown]
    simp only [Arr.elemAddr_addr]
    split
    · rename_i hpos
      obtain ⟨hswap, hat⟩ := userSwap_spec hr hmoved.ok (show off ≤ off + j by omega) (show off + j < hi by omega)
        (show off ≤ off + (j + 1) by omega) hj hn
      obtain ⟨hrest, hsorted⟩ := ih (show off + j < hi by omega) hswap.ok
      refine ⟨(hmoved.trans hswap).trans hrest, fun le hle hs => hsorted le hle ?_⟩
      have hnot := (hagrees le hle).1.1 hpos
      exact SortedBut.swap (x := off + j) hs (by omega) hj (hle.preorder.of_not hnot) fun k => by rw [hat, hview]; rfl
    · rename_i hpos
      refine ⟨hmoved, fun le hle hs => ?_⟩
      rw [hview]
      have hcmp : le (A.view s.mem (off + j)) (A.view s.mem (off + (j + 1))) := by
        by_contra hnot
        exact hpos ((hagrees le hle).1.2 hnot)
      exact hs.sorted hle.preorder hj hcmp

theorem insertAll_spec (hr : A.Respects call cmp ok) {off k i : Nat} (hn : off + (i + k) ≤ A.n) (h : ok s.mem s.world) :
    A.Moved ok off (off + (i + k)) 0 s (insertAll call cmp (A.addr off) A.size k i s) ∧
      ∀ le, A.Orders call cmp ok le → SortedOn le off (off + i) (A.view s.mem) →
        SortedOn le off (off + (i + k)) (A.view (insertAll call cmp (A.addr off) A.size k i s).mem) := by
  induction k generalizing i s with
  | zero => exact ⟨.refl _ _ _ h, fun _ _ hs => hs⟩
  | succ k ih =>
    obtain ⟨hmoved, hone⟩ := insertDown_spec hr (show off + (i + 1) ≤ A.n by omega)
        (show off + i < off + (i + 1) by omega) h
    obtain ⟨hrest, hall⟩ := ih (i := i + 1) (by omega) hmoved.ok
    rw [show i + (k + 1) = i + 1 + k by omega]
    refine ⟨(hmoved.mono (Nat.le_refl _) (by omega) (Nat.le_refl _)).trans hrest,
        fun le hle hs => hall le hle (hone le hle ?_)⟩
    exact fun a b ha hab hb hne => hs a b ha hab (by omega)

/-! ## Partition -/

/-- How far the partition has come: below the pivot up to `mid`, not below it
from there on. -/
structure Parted (le : List UInt8 → List UInt8 → Prop) (pv : List UInt8) (lo mid hi : Nat) (v : Nat → List UInt8) :
    Prop where
  below : ∀ x, lo ≤ x → x < mid → ¬le pv (v x)
  above : ∀ x, mid ≤ x → x < hi → le pv (v x)

/-- The loop of the partition. The pivot is at `hi`. -/
theorem partitionLoop_spec (hr : A.Respects call cmp ok) {off hi : Nat} (hn : hi < A.n) {k i store : Nat}
    (hk : off + (i + k) = hi) (hstore : store ≤ i) (h : ok s.mem s.world) :
    (partitionLoop call cmp (A.addr off) A.size (A.addr hi) k i store s).1 ≤ i + k ∧
      A.Moved ok off hi 0 s (partitionLoop call cmp (A.addr off) A.size (A.addr hi) k i store s).2 ∧
      ∀ le, A.Orders call cmp ok le → Parted le (A.view s.mem hi) off (off + store) (off + i) (A.view s.mem) →
        Parted le (A.view s.mem hi) off
          (off + (partitionLoop call cmp (A.addr off) A.size (A.addr hi) k i store s).1) hi
          (A.view (partitionLoop call cmp (A.addr off) A.size (A.addr hi) k i store s).2.mem) := by
  induction k generalizing i store s with
  | zero =>
    refine ⟨hstore, .refl _ _ _ h, fun _ _ hp => ?_⟩
    rwa [show off + i = hi by omega] at hp
  | succ k ih =>
    obtain ⟨hmoved, hview, hagrees⟩ := userCompare_spec hr h (show off + i < A.n by omega) hn off hi
    rw [partitionLoop]
    simp only [Arr.elemAddr_addr]
    rw [show i + (k + 1) = i + 1 + k by omega] at hk ⊢
    split
    · rename_i hneg
      -- The element goes to the end of the lower side.
      obtain ⟨hswap, hat⟩ : A.Moved ok off hi 0 (userCompare call cmp (A.addr (off + i)) (A.addr hi) s).2
          (if i ≠ store then userSwap (A.addr (off + i)) (A.addr (off + store)) A.size
            (userCompare call cmp (A.addr (off + i)) (A.addr hi) s).2
            else (userCompare call cmp (A.addr (off + i)) (A.addr hi) s).2) ∧
          ∀ x, A.view (if i ≠ store then userSwap (A.addr (off + i)) (A.addr (off + store)) A.size
            (userCompare call cmp (A.addr (off + i)) (A.addr hi) s).2
            else (userCompare call cmp (A.addr (off + i)) (A.addr hi) s).2).mem x =
              A.view s.mem (Equiv.swap (off + i) (off + store) x) := by
        split
        · obtain ⟨hswap, hat⟩ := userSwap_spec hr hmoved.ok (show off ≤ off + i by omega) (show off + i < hi by omega)
            (show off ≤ off + store by omega) (by omega) (by omega)
          exact ⟨hswap, fun x => by rw [hat, hview]⟩
        · rename_i heq
          obtain rfl := not_not.1 heq
          exact ⟨.refl _ _ _ hmoved.ok, fun x => by rw [hview, Equiv.swap_self]; rfl⟩
      obtain ⟨hle', hrest, hparted⟩ := ih hk (show store + 1 ≤ i + 1 by omega) hswap.ok
      have hpivot := hat hi
      rw [Equiv.swap_apply_of_ne_of_ne (by omega) (by omega)] at hpivot
      refine ⟨hle', (hmoved.trans hswap).trans hrest, fun le hle hp => ?_⟩
      rw [hpivot] at hparted
      refine hparted le hle ⟨fun x h₁ h₂ => ?_, fun x h₁ h₂ => ?_⟩
      · rw [hat]
        by_cases hx : x = off + store
        · rw [hx, Equiv.swap_apply_right]
          exact (hagrees le hle).2.1 hneg
        · rw [Equiv.swap_apply_of_ne_of_ne (by omega) hx]
          exact hp.below x h₁ (by omega)
      · rw [hat]
        by_cases hx : x = off + i
        · rw [hx, Equiv.swap_apply_left]
          exact hp.above _ (Nat.le_refl _) (by omega)
        · rw [Equiv.swap_apply_of_ne_of_ne hx (by omega)]
          exact hp.above x (by omega) (by omega)
    · rename_i hneg
      obtain ⟨hle', hrest, hparted⟩ := ih hk (show store ≤ i + 1 by omega) hmoved.ok
      refine ⟨hle', hmoved.trans hrest, fun le hle hp => ?_⟩
      rw [hview] at hparted
      refine hparted le hle ⟨hp.below, fun x h₁ h₂ => ?_⟩
      by_cases hx : x = off + i
      · rw [hx]
        by_contra hnot
        exact hneg ((hagrees le hle).2.2 hnot)
      · exact hp.above x h₁ (by omega)

theorem partition_spec (hr : A.Respects call cmp ok) {off n : Nat} (hn : off + n ≤ A.n) (hpos : 0 < n)
    (h : ok s.mem s.world) :
    (partition call cmp (A.addr off) n A.size s).1 < n ∧
      A.Moved ok off (off + n) 0 s (partition call cmp (A.addr off) n A.size s).2 ∧
      ∀ le, A.Orders call cmp ok le → Split le off (off + (partition call cmp (A.addr off) n A.size s).1) (off + n)
        (A.view (partition call cmp (A.addr off) n A.size s).2.mem) := by
  obtain ⟨hpark, -⟩ := userSwap_spec hr h (show off ≤ off + n / 2 by omega) (show off + n / 2 < off + n by omega)
    (show off ≤ off + (n - 1) by omega) (show off + (n - 1) < off + n by omega) hn
  obtain ⟨hstore, hloop, hparted⟩ := partitionLoop_spec hr (show off + (n - 1) < A.n by omega)
    (show off + (0 + (n - 1)) = off + (n - 1) by omega) (Nat.le_refl 0) hpark.ok
  unfold partition
  simp only [Arr.elemAddr_addr]
  generalize userSwap (A.addr (off + n / 2)) (A.addr (off + (n - 1))) A.size s = s₁ at *
  generalize partitionLoop call cmp (A.addr off) A.size (A.addr (off + (n - 1))) (n - 1) 0 0 s₁ = r at *
  obtain ⟨store, s₂⟩ := r
  obtain ⟨hback, hat⟩ := userSwap_spec hr hloop.ok (show off ≤ off + store by omega)
      (show off + store < off + n by omega)
    (show off ≤ off + (n - 1) by omega) (show off + (n - 1) < off + n by omega) hn
  refine ⟨by omega, (hpark.trans (hloop.mono (Nat.le_refl _) (by omega) (Nat.le_refl _))).trans hback, fun le hle => ?_⟩
  have hp := hparted le hle ⟨fun x h₁ h₂ => by omega, fun x h₁ h₂ => by omega⟩
  have hlast : A.view s₂.mem (off + (n - 1)) = A.view s₁.mem (off + (n - 1)) :=
    hloop.rearranged.outside (.inr (Nat.le_refl _))
  have hmid : A.view (userSwap (A.addr (off + store)) (A.addr (off + (n - 1))) A.size s₂).mem (off + store) =
      A.view s₁.mem (off + (n - 1)) := by
    rw [hat, Equiv.swap_apply_left, hlast]
  constructor
  · intro x h₁ h₂
    rw [hmid, hat, Equiv.swap_apply_of_ne_of_ne (by omega) (by omega)]
    exact hle.preorder.of_not (hp.below x h₁ h₂)
  · intro x h₁ h₂
    rw [hmid, hat]
    by_cases hx : x = off + (n - 1)
    · rw [hx, Equiv.swap_apply_right]
      exact hp.above _ (Nat.le_refl _) (by omega)
    · rw [Equiv.swap_apply_of_ne_of_ne (by omega) hx]
      exact hp.above x (by omega) (by omega)

/-! ## The two functions -/

theorem log_smaller {a n : Nat} (h : 2 * a ≤ n) (hn : 2 ≤ n) : Nat.log 2 a + 1 ≤ Nat.log 2 n := by
  obtain rfl | hpos := Nat.eq_zero_or_pos a
  · rw [Nat.log_zero_right]
    exact Nat.log_pos Nat.one_lt_two hn
  · rw [← Nat.log_mul_base Nat.one_lt_two (by omega), Nat.mul_comm]
    exact Nat.log_mono_right h

theorem userQsort_large {base n size fuel depth store : Nat} (hn : 8 < n) {s₁ : Env σ}
    (hp : partition call cmp base n size { s with deepest := max s.deepest depth } = (store, s₁)) :
    userQsort call cmp size (fuel + 1) depth base n s =
      if store < n - store - 1 then
        (userQsort call cmp size fuel (depth + 1) base store s₁).bind
          (userQsort call cmp size fuel depth (elemAddr base size (store + 1)) (n - store - 1))
      else
        (userQsort call cmp size fuel (depth + 1) (elemAddr base size (store + 1)) (n - store - 1) s₁).bind
          (userQsort call cmp size fuel depth base store) := by
  rw [userQsort, if_neg (by omega), if_neg (by omega)]
  simp only [hp]

theorem userQsort_spec (hr : A.Respects call cmp ok) {off n depth : Nat} (hn : off + n ≤ A.n) (h : ok s.mem s.world) :
    ∃ s', (∀ fuel > n, userQsort call cmp A.size fuel depth (A.addr off) n s = some s') ∧
      A.Moved ok off (off + n) (depth + Nat.log 2 n) s s' ∧
      ∀ le, A.Orders call cmp ok le → SortedOn le off (off + n) (A.view s'.mem) := by
  induction n using Nat.strong_induction_on generalizing off depth s with
  | _ n ih =>
    have henter : A.Moved ok off (off + n) (depth + Nat.log 2 n) s { s with deepest := max s.deepest depth } :=
      ⟨.refl _ _ _, fun _ hq => .inl hq, by simp only; omega, h⟩
    by_cases hone : n ≤ 1
    · refine ⟨_, fun fuel hf => ?_, henter, fun le _ k l hk hkl hl => by omega⟩
      obtain ⟨fuel, rfl⟩ := Nat.exists_eq_succ_of_ne_zero (Nat.ne_of_gt (Nat.zero_lt_of_lt hf))
      rw [userQsort, if_pos hone]
    by_cases hsmall : n ≤ 8
    · obtain ⟨hmoved, hsorted⟩ := insertAll_spec hr (show off + (1 + (n - 1)) ≤ A.n by omega) henter.ok
      rw [show 1 + (n - 1) = n by omega] at hmoved hsorted
      refine ⟨_, fun fuel hf => ?_, henter.trans (hmoved.mono (Nat.le_refl _) (Nat.le_refl _) (Nat.zero_le _)),
        fun le hle => hsorted le hle fun k l hk hkl hl => by omega⟩
      obtain ⟨fuel, rfl⟩ := Nat.exists_eq_succ_of_ne_zero (Nat.ne_of_gt (Nat.zero_lt_of_lt hf))
      rw [userQsort, if_neg hone, if_pos hsmall]
    obtain ⟨hstore, hparts, hsplit⟩ := partition_spec hr hn (by omega) henter.ok
    have hparts := henter.trans (hparts.mono (Nat.le_refl _) (Nat.le_refl _) (Nat.zero_le _))
    generalize hp : partition call cmp (A.addr off) n A.size { s with deepest := max s.deepest depth } = r at *
    obtain ⟨store, s₁⟩ := r
    have hend : off + (store + 1) + (n - store - 1) = off + n := by omega
    -- Whichever side comes first, the range is sorted when both are.
    by_cases hside : store < n - store - 1
    · obtain ⟨s₂, heq₂, hmoved₂, hsorted₂⟩ := @ih store hstore s₁ off (depth + 1) (by omega) hparts.ok
      obtain ⟨s₃, heq₃, hmoved₃, hsorted₃⟩ :=
          @ih (n - store - 1) (by omega) s₂ (off + (store + 1)) depth (by omega) hmoved₂.ok
      rw [hend] at hmoved₃ hsorted₃
      have hlog := log_smaller (show 2 * store ≤ n by omega) (by omega)
      have hlog' : Nat.log 2 (n - store - 1) ≤ Nat.log 2 n := Nat.log_mono_right (by omega)
      refine ⟨s₃, fun fuel hf => ?_, ?_, fun le hle => ?_⟩
      · obtain ⟨fuel, rfl⟩ := Nat.exists_eq_succ_of_ne_zero (Nat.ne_of_gt (Nat.zero_lt_of_lt hf))
        rw [userQsort_large (by omega) hp, if_pos hside, heq₂ fuel (by omega), Option.bind_some, Arr.elemAddr_addr,
          heq₃ fuel (by omega)]
      · exact (hparts.trans (hmoved₂.mono (Nat.le_refl _) (by omega) (by omega))).trans
          (hmoved₃.mono (by omega) (Nat.le_refl _) (by omega))
      · have hsplit₃ := ((hsplit le hle).left_rearranged hmoved₂.rearranged).right_rearranged hmoved₃.rearranged
        refine hsplit₃.sorted hle.preorder ((hsorted₂ le hle).congr fun i _ hi => ?_) (hsorted₃ le hle)
        exact hmoved₃.rearranged.outside (.inl (by omega))
    · obtain ⟨s₂, heq₂, hmoved₂, hsorted₂⟩ :=
          @ih (n - store - 1) (by omega) s₁ (off + (store + 1)) (depth + 1) (by omega) hparts.ok
      obtain ⟨s₃, heq₃, hmoved₃, hsorted₃⟩ := @ih store hstore s₂ off depth (by omega) hmoved₂.ok
      rw [hend] at hmoved₂ hsorted₂
      have hlog := log_smaller (show 2 * (n - store - 1) ≤ n by omega) (by omega)
      have hlog' : Nat.log 2 store ≤ Nat.log 2 n := Nat.log_mono_right (by omega)
      refine ⟨s₃, fun fuel hf => ?_, ?_, fun le hle => ?_⟩
      · obtain ⟨fuel, rfl⟩ := Nat.exists_eq_succ_of_ne_zero (Nat.ne_of_gt (Nat.zero_lt_of_lt hf))
        rw [userQsort_large (by omega) hp, if_neg hside, Arr.elemAddr_addr, heq₂ fuel (by omega), Option.bind_some,
          heq₃ fuel (by omega)]
      · exact (hparts.trans (hmoved₂.mono (by omega) (Nat.le_refl _) (by omega))).trans
          (hmoved₃.mono (Nat.le_refl _) (by omega) (by omega))
      · have hsplit₃ := ((hsplit le hle).right_rearranged hmoved₂.rearranged).left_rearranged hmoved₃.rearranged
        refine hsplit₃.sorted hle.preorder (hsorted₃ le hle) ((hsorted₂ le hle).congr fun i hi _ => ?_)
        exact hmoved₃.rearranged.outside (.inr (by omega))

theorem Arr.pairwise_elems {α : Type*} {le : α → α → Prop} {f : List UInt8 → α} {m : Mem} :
    (A.elems m).Pairwise (fun x y => le (f x) (f y)) ↔ SortedOn le 0 A.n fun i => f (A.view m i) := by
  rw [Arr.elems, List.pairwise_map, List.pairwise_iff_getElem]
  simp only [List.length_range, List.getElem_range]
  constructor
  · intro h k l _ hkl hl
    exact h k l (by omega) hl hkl
  · intro h k l hk hl hkl
    exact h k l (Nat.zero_le k) hkl hl

/-- The comparator compares the key with elements, of which it sees `f`. -/
structure Arr.OrdersKey {α : Type} (A : Arr) (call : Callback σ) (cmp : Nat) (ok : Mem → σ → Prop) (key : Nat)
    (le : α → α → Prop) (k : α) (f : List UInt8 → α) : Prop where
  preorder : TotalPreorder le
  agrees : ∀ i < A.n, ∀ m w, ok m w →
    Agrees (verdict (call cmp key (A.addr i) m w).1) le k (f (A.view m i))

/-- Two values compare equal. -/
def Equal {α : Type} (le : α → α → Prop) (x y : α) : Prop := le x y ∧ le y x

/-- The loop of the search. The key is above what is before `lo` and below what
is from `hi` on. -/
theorem bsearchLoop_spec {α : Type} (hr : A.Respects call cmp ok) (hbase : A.base ≠ 0) {key : Nat} {le : α → α → Prop}
    {k : α} {f : List UInt8 → α} (hk : A.OrdersKey call cmp ok key le k f)
    (hs : SortedOn le 0 A.n fun i => f (A.view s.mem i)) {len lo hi : Nat} (hlen : hi = lo + len) (hhi : hi ≤ A.n)
    (h : ok s.mem s.world) (hbefore : ∀ i < lo, ¬le k (f (A.view s.mem i)))
    (hbehind : ∀ i, hi ≤ i → i < A.n → ¬le (f (A.view s.mem i)) k) :
    ∃ r s', (∀ fuel > len, bsearchLoop call cmp key A.base A.size fuel lo hi s = some (r, s')) ∧
      (r ≠ 0 ↔ ∃ i < A.n, Equal le k (f (A.view s.mem i))) ∧
      (r ≠ 0 → ∃ i < A.n, r = A.base + i * A.size ∧ Equal le k (f (A.view s.mem i))) := by
  induction len using Nat.strong_induction_on generalizing lo hi s with
  | _ len ih =>
    by_cases hlt : lo < hi
    · set mid := lo + (hi - lo) / 2 with hmid
      have hmidn : mid < A.n := by omega
      have hagrees := hk.agrees mid hmidn _ _ h
      have hview : A.view (userCompare call cmp key (A.addr mid) s).2.mem = A.view s.mem :=
        Arr.view_congr fun x hx => hr.array _ _ _ _ x h hx
      have hok : ok (userCompare call cmp key (A.addr mid) s).2.mem (userCompare call cmp key (A.addr mid) s).2.world :=
        hr.called _ _ _ _ h
      by_cases hzero : (userCompare call cmp key (A.addr mid) s).1 = 0
      · have hequal : Equal le k (f (A.view s.mem mid)) := by
          have hzero : verdict (call cmp key (A.addr mid) s.mem s.world).1 = 0 := hzero
          exact ⟨not_not.1 (mt hagrees.1.2 (by omega)), not_not.1 (mt hagrees.2.2 (by omega))⟩
        have hne : A.addr mid ≠ 0 := by
          rw [Arr.addr_eq hmidn]
          omega
        refine ⟨A.addr mid, (userCompare call cmp key (A.addr mid) s).2, fun fuel hf => ?_,
          iff_of_true hne ⟨mid, hmidn, hequal⟩, fun _ => ⟨mid, hmidn, Arr.addr_eq hmidn, hequal⟩⟩
        obtain ⟨fuel, rfl⟩ := Nat.exists_eq_succ_of_ne_zero (Nat.ne_of_gt (Nat.zero_lt_of_lt hf))
        rw [bsearchLoop, if_pos hlt]
        exact if_pos hzero
      · by_cases hneg : (userCompare call cmp key (A.addr mid) s).1 < 0
        · -- The key is below the element, and so below all that follow.
          have hbelow : ¬le (f (A.view s.mem mid)) k := hagrees.2.1 hneg
          obtain ⟨r, s', heq, hres⟩ := @ih (mid - lo) (by omega)
            (userCompare call cmp key (A.addr mid) s).2 (by rw [hview]; exact hs) lo mid (by omega) (by omega) hok
            (by rw [hview]; exact hbefore) (by
              rw [hview]
              intro i hi' hin hle
              obtain rfl | hmi := Nat.eq_or_lt_of_le hi'
              · exact hbelow hle
              · exact hbelow (hk.preorder.trans _ _ _ (hs mid i (Nat.zero_le _) hmi hin) hle))
          refine ⟨r, s', fun fuel hf => ?_, by rwa [hview] at hres⟩
          clear hres
          obtain ⟨fuel, rfl⟩ := Nat.exists_eq_succ_of_ne_zero (Nat.ne_of_gt (Nat.zero_lt_of_lt hf))
          rw [bsearchLoop, if_pos hlt]
          refine (if_neg hzero).trans ((if_pos hneg).trans (heq fuel (by omega)))
        · have habove : ¬le k (f (A.view s.mem mid)) := by
            refine hagrees.1.1 ?_
            have : 0 < (userCompare call cmp key (A.addr mid) s).1 := by omega
            exact this
          obtain ⟨r, s', heq, hres⟩ := @ih (hi - (mid + 1)) (by omega)
            (userCompare call cmp key (A.addr mid) s).2 (by rw [hview]; exact hs) (mid + 1) hi (by omega) hhi hok
            (by
              rw [hview]
              intro i hi' hle
              obtain hmi | rfl := Nat.lt_succ_iff_lt_or_eq.1 hi'
              · exact habove (hk.preorder.trans _ _ _ hle (hs i mid (Nat.zero_le _) hmi hmidn))
              · exact habove hle) (by rw [hview]; exact hbehind)
          refine ⟨r, s', fun fuel hf => ?_, by rwa [hview] at hres⟩
          obtain ⟨fuel, rfl⟩ := Nat.exists_eq_succ_of_ne_zero (Nat.ne_of_gt (Nat.zero_lt_of_lt hf))
          rw [bsearchLoop, if_pos hlt]
          refine (if_neg hzero).trans ((if_neg hneg).trans (heq fuel (by omega)))
    · refine ⟨0, s, fun fuel hf => ?_, iff_of_false (by simp) ?_, by simp⟩
      · obtain ⟨fuel, rfl⟩ := Nat.exists_eq_succ_of_ne_zero (Nat.ne_of_gt (Nat.zero_lt_of_lt hf))
        rw [bsearchLoop, if_neg hlt]
      · rintro ⟨i, hi', h₁, h₂⟩
        obtain hil | hil := Nat.lt_or_ge i lo
        · exact hbefore i hil h₁
        · exact hbehind i (by omega) hi' h₂

/-- qsort leaves the elements in another order, comes to an end and stays
shallow for every comparator that leaves the array alone, and sorts for one
that compares; bsearch in a sorted array finds an element that compares equal
to the key, or there is none. -/
theorem crtQsort_sorts_crtBsearch_finds (call : Callback σ) (cmp : Nat) (A : Arr) (ok : Mem → σ → Prop) (hcmp : cmp ≠ 0)
    (hbase : A.base ≠ 0) (hr : A.Respects call cmp ok) (s : Env σ) (h : ok s.mem s.world) :
    (∃ s', (∀ fuel > A.n, crtQsort call cmp fuel A.base A.n A.size s = some s') ∧
      (A.elems s'.mem).Perm (A.elems s.mem) ∧
      (∀ q ∈ s'.asked, q ∈ s.asked ∨ A.IsElem q.1 ∧ A.IsElem q.2) ∧
      s'.deepest ≤ max s.deepest (Nat.log 2 A.n + 1) ∧
      ∀ le, A.Orders call cmp ok le → (A.elems s'.mem).Pairwise le) ∧
    ∀ (α : Type) (key : Nat) (le : α → α → Prop) (k : α) (f : List UInt8 → α), A.OrdersKey call cmp ok key le k f →
      (A.elems s.mem).Pairwise (fun x y => le (f x) (f y)) →
      ∃ r s', (∀ fuel > A.n, crtBsearch call cmp fuel key A.base A.n A.size s = some (r, s')) ∧
        (r ≠ 0 ↔ ∃ i < A.n, Equal le k (f (A.view s.mem i))) ∧
        (r ≠ 0 → ∃ i < A.n, r = A.base + i * A.size ∧ Equal le k (f (A.view s.mem i))) := by
  have hpos := A.pos
  constructor
  · by_cases hn : A.n < 2
    · refine ⟨s, fun fuel _ => if_pos (.inr (.inr (.inr hn))), .refl _, fun _ hq => .inl hq, Nat.le_max_left _ _,
        fun le _ => ?_⟩
      exact (Arr.pairwise_elems (f := id)).2 fun i j _ hij hj => by omega
    · obtain ⟨s', heq, hmoved, hsorted⟩ := @userQsort_spec _ _ _ _ _ s hr 0 A.n 1 (by omega) h
      rw [Nat.zero_add] at hmoved hsorted
      rw [Arr.addr_zero (by omega)] at heq
      refine ⟨s', fun fuel hf => ?_, hmoved.rearranged.perm (Nat.le_refl _), hmoved.asked, ?_, fun le hle => ?_⟩
      · rw [crtQsort, if_neg (by simp [hbase, hcmp, hn]; omega)]
        exact heq fuel hf
      · have := hmoved.deepest
        omega
      · exact (Arr.pairwise_elems (f := id)).2 (hsorted le hle)
  · intro α key le k f hk hs
    obtain ⟨r, s', heq, hres⟩ := bsearchLoop_spec hr hbase hk (Arr.pairwise_elems.1 hs)
      (show A.n = 0 + A.n from (Nat.zero_add _).symm) (Nat.le_refl _) h (by omega) (by omega)
    refine ⟨r, s', fun fuel hf => ?_, hres⟩
    rw [crtBsearch, if_neg (by simp [hbase, hcmp]; omega)]
    exact heq fuel hf

end Loops

/-! ## Bytes -/

/-- A comparator of bytes. -/
def byteCompare : Callback Unit := fun _ a b m w =>
  (some (if m a < m b then 0xFFFFFFFF else if m b < m a then 1 else 0), m, w)

/-- An array of two bytes. -/
def twoBytes : Arr := ⟨100, 1, 2, by decide, by decide⟩

/-- The array is 5, 3, or 3, 5. The key, a 5, lies before it. -/
def bytesAt (x y : UInt8) : Env Unit where
  mem a := if a = 50 then 5 else if a = 100 then x else if a = 101 then y else 0
  world := ()
  asked := []
  deepest := 0

theorem byteCompare_agrees (fn a b : Nat) (m : Mem) (w : Unit) :
    Agrees (verdict (byteCompare fn a b m w).1) (· ≤ ·) (m a) (m b) := by
  have hless : verdict (some 0xFFFFFFFF) = -1 := rfl
  have hmore : verdict (some 1) = 1 := rfl
  have hsame : verdict (some 0) = 0 := rfl
  simp only [Agrees, byteCompare, UInt8.not_le]
  split
  · rename_i h
    have := UInt8.lt_asymm h
    simp [hless, h, this]
  · rename_i h
    split
    · rename_i h'
      simp [hmore, h, h']
    · rename_i h'
      simp [hsame, h, h']

theorem uint8_preorder : TotalPreorder (fun x y : UInt8 => x ≤ y) :=
  ⟨UInt8.le_total, fun _ _ _ => UInt8.le_trans⟩

theorem head_view (m : Mem) {i : Nat} (hi : i < twoBytes.n) : (twoBytes.view m i).headD 0 = m (twoBytes.addr i) := by
  rw [Arr.view, if_pos hi]
  rfl

theorem twoBytes_respects : twoBytes.Respects byteCompare 1 (fun m _ => m 50 = 5) where
  array _ _ _ _ _ _ _ := rfl
  called _ _ _ _ h := h
  written m m' _ h hsame := (hsame 50 (by simp [Arr.Has, twoBytes])).trans h

theorem twoBytes_sorted_and_found :
    (∃ s', crtQsort byteCompare 1 3 100 2 1 (bytesAt 5 3) = some s' ∧
      (twoBytes.elems s'.mem).Pairwise (fun x y => x.headD 0 ≤ y.headD 0)) ∧
    ∃ r s', crtBsearch byteCompare 1 3 50 100 2 1 (bytesAt 3 5) = some (r, s') ∧ r ≠ 0 := by
  constructor
  · obtain ⟨s', heq, -, -, -, hsorted⟩ :=
      (crtQsort_sorts_crtBsearch_finds byteCompare 1 twoBytes _ (by decide)
        (by decide) twoBytes_respects (bytesAt 5 3) rfl).1
    refine ⟨s', heq 3 (by decide), hsorted _ ⟨⟨fun _ _ => UInt8.le_total _ _, fun _ _ _ => UInt8.le_trans⟩, ?_⟩⟩
    intro i hi j hj m w _
    have := byteCompare_agrees 1 (twoBytes.addr i) (twoBytes.addr j) m w
    rw [← head_view m hi, ← head_view m hj] at this
    exact this
  · obtain ⟨r, s', heq, hiff, -⟩ :=
      (crtQsort_sorts_crtBsearch_finds byteCompare 1 twoBytes _ (by decide) (by decide) twoBytes_respects
        (bytesAt 3 5) rfl).2 UInt8 50 (· ≤ ·) 5 (·.headD 0) ⟨uint8_preorder, fun i hi m w h => by
          have := byteCompare_agrees 1 50 (twoBytes.addr i) m w
          rw [← head_view m hi, h] at this
          exact this⟩ (by decide)
    exact ⟨r, s', heq 3 (by decide), hiff.2 ⟨1, by decide, by decide, by decide⟩⟩

/-- In an array of one element of no bytes, which compares equal to the key,
the search finds none. -/
theorem crtBsearch_no_bytes :
    (userCompare byteCompare 1 50 (elemAddr 50 0 0) (bytesAt 3 5)).1 = 0 ∧
      ∀ fuel, (crtBsearch byteCompare 1 fuel 50 50 1 0 (bytesAt 3 5)).map Prod.fst = some 0 :=
  ⟨by decide, fun _ => rfl⟩

end NovarisOS.Win32
