/-
NovarisOS.Lib.Text — texts that are read from the left, and numbers written
as digits.

`Span` is what a loop that goes on while a test holds has passed, and what it
has left. A text is cut so in one way only (`Span.unique`).

`places` are the digits of a number, highest first and at least one; `value`
reads any digits, leading zeros too. `decimal` and `number` are the same two
in ASCII.
-/
import Mathlib.Data.List.TakeWhile
import Mathlib.Data.Nat.Digits.Lemmas

namespace NovarisOS.Text

variable {α : Type*} {p : α → Bool}

/-! ## Spans -/

/-- The longest beginning that passes the test, and what follows it. -/
structure Span (p : α → Bool) (run rest : List α) : Prop where
  all : ∀ a ∈ run, p a = true
  ends : ∀ a ∈ rest.head?, p a = false

variable {rest run : List α}

theorem Span.nil (h : ∀ a ∈ rest.head?, p a = false) : Span p [] rest := ⟨by simp, h⟩

theorem Span.cons {a : α} (ha : p a = true) (h : Span p run rest) : Span p (a :: run) rest :=
  ⟨by simpa [ha] using h.all, h.ends⟩

theorem Span.tail {a : α} (h : Span p (a :: run) rest) : Span p run rest :=
  ⟨fun b hb => h.all b (List.mem_cons_of_mem a hb), h.ends⟩

theorem Span.takeWhile (h : Span p run rest) : (run ++ rest).takeWhile p = run := by
  induction run with
  | nil =>
    cases rest with
    | nil => rfl
    | cons b rest => simp [h.ends b rfl]
  | cons a run ih => simp [h.all a (by simp), ih h.tail]

theorem Span.unique {run' rest' : List α} (h : Span p run rest) (h' : Span p run' rest')
    (heq : run ++ rest = run' ++ rest') : run = run' ∧ rest = rest' := by
  have hrun : run = run' := by rw [← h.takeWhile, heq, h'.takeWhile]
  subst hrun
  exact ⟨rfl, List.append_cancel_left heq⟩

theorem span_takeWhile (p : α → Bool) (l : List α) : Span p (l.takeWhile p) (l.dropWhile p) := by
  induction l with
  | nil => exact Span.nil (by simp)
  | cons a l ih =>
    cases ha : p a with
    | false => simpa [ha] using @Span.nil _ p (a :: l) (by simpa using ha)
    | true => simpa [ha] using ih.cons ha

/-! ## Digits -/

/-- The digits of a number, highest first. -/
def places (base n : Nat) : List Nat := if n = 0 then [0] else (Nat.digits base n).reverse

/-- What digits stand for when they follow those of `v`. -/
def valueFrom (base v : Nat) (ds : List Nat) : Nat := ds.foldl (fun v d => v * base + d) v

/-- What digits stand for. -/
def value (base : Nat) (ds : List Nat) : Nat := valueFrom base 0 ds

theorem valueFrom_append (base v : Nat) (a b : List Nat) :
    valueFrom base v (a ++ b) = valueFrom base (valueFrom base v a) b := List.foldl_append

theorem value_concat (base : Nat) (ds : List Nat) (d : Nat) : value base (ds ++ [d]) = value base ds * base + d := by
  rw [value, valueFrom_append]
  rfl

theorem value_reverse (base : Nat) (ds : List Nat) : value base ds.reverse = Nat.ofDigits base ds := by
  induction ds with
  | nil => rfl
  | cons d ds ih =>
    rw [List.reverse_cons, value_concat, ih, Nat.ofDigits_cons]
    ring

@[simp] theorem value_places (base n : Nat) : value base (places base n) = n := by
  unfold places
  split
  · rename_i hn
    rw [hn]
    exact Nat.zero_mul base
  · rw [value_reverse, Nat.ofDigits_digits]

theorem places_ne_nil (base n : Nat) : places base n ≠ [] := by
  unfold places
  split <;> simp [Nat.digits_eq_nil_iff_eq_zero, *]

theorem lt_of_mem_places {base n d : Nat} (hbase : 1 < base) (h : d ∈ places base n) : d < base := by
  unfold places at h
  split at h
  · simp only [List.mem_singleton] at h
    omega
  · exact Nat.digits_lt_base hbase (List.mem_reverse.mp h)

theorem le_valueFrom (base v : Nat) (hbase : 0 < base) (ds : List Nat) : v ≤ valueFrom base v ds := by
  induction ds generalizing v with
  | nil => exact Nat.le_refl v
  | cons d ds ih =>
    calc v ≤ v * base := Nat.le_mul_of_pos_right v hbase
      _ ≤ v * base + d := Nat.le_add_right _ _
      _ ≤ valueFrom base (v * base + d) ds := ih _

/-! ## Decimals in ASCII -/

def isDigit (b : UInt8) : Bool := 48 ≤ b && b ≤ 57

def digitOf (b : UInt8) : Nat := b.toNat - 48

def ascii (d : Nat) : UInt8 := UInt8.ofNat (48 + d)

/-- The number that digits stand for when they follow those of `v`. -/
def numberFrom (v : Nat) (ds : List UInt8) : Nat := valueFrom 10 v (ds.map digitOf)

/-- The number that digits stand for. -/
def number (ds : List UInt8) : Nat := numberFrom 0 ds

/-- A number as digits. -/
def decimal (n : Nat) : List UInt8 := (places 10 n).map ascii

@[simp] theorem numberFrom_nil (v : Nat) : numberFrom v [] = v := rfl

@[simp] theorem numberFrom_cons (v : Nat) (b : UInt8) (ds : List UInt8) :
    numberFrom v (b :: ds) = numberFrom (v * 10 + digitOf b) ds := by
  simp only [numberFrom, valueFrom, List.map_cons, List.foldl_cons]

theorem le_numberFrom (v : Nat) (ds : List UInt8) : v ≤ numberFrom v ds := le_valueFrom 10 v (by decide) _

theorem digitOf_ascii {d : Nat} (h : d < 10) : digitOf (ascii d) = d := by
  simp only [digitOf, ascii, UInt8.toNat_ofNat']
  omega

theorem isDigit_ascii {d : Nat} (h : d < 10) : isDigit (ascii d) = true := by
  interval_cases d <;> rfl

@[simp] theorem number_decimal (n : Nat) : number (decimal n) = n := by
  have hmap : ((places 10 n).map ascii).map digitOf = places 10 n := by
    rw [List.map_map]
    exact (List.map_congr_left fun d hd => digitOf_ascii (lt_of_mem_places (by decide) hd)).trans (List.map_id _)
  rw [number, numberFrom, decimal, hmap]
  exact value_places 10 n

theorem decimal_ne_nil (n : Nat) : decimal n ≠ [] := by
  simpa [decimal] using places_ne_nil 10 n

theorem isDigit_of_mem_decimal {n : Nat} {b : UInt8} (h : b ∈ decimal n) : isDigit b = true := by
  obtain ⟨d, hd, rfl⟩ := List.mem_map.mp h
  exact isDigit_ascii (lt_of_mem_places (by decide) hd)

end NovarisOS.Text
