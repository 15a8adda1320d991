/-
NovarisOS.Net.Address — addresses as text: `net_format_ip` and `net_parse_ip`
of `kernel/net.c`.

A string is its bytes without the terminator. `Dotted` says what an address
is; the parser takes that, and that with one more dot behind it
(`netParseIp_spec`).
-/
import NovarisOS.Lib.Text

namespace NovarisOS.Net

open Text

abbrev DOT : UInt8 := 46

/-! ## The functions -/

def putDec (v : Nat) : List UInt8 := decimal v

def netFormatIp (ip : Nat) : List UInt8 :=
  putDec (ip / 0x1000000 % 256) ++ DOT :: (putDec (ip / 0x10000 % 256) ++ DOT ::
    (putDec (ip / 0x100 % 256) ++ DOT :: putDec (ip % 256)))

/-- The digits of one part, unless they pass 255. -/
def part (v : Nat) : List UInt8 → Option (Nat × List UInt8)
  | [] => some (v, [])
  | c :: text =>
    if isDigit c then
      if 255 < v * 10 + digitOf c then none else part (v * 10 + digitOf c) text
    else some (v, c :: text)

/-- The parts, as many as are still wanted. A dot is taken before it is known
whether another part follows. -/
def parts : Nat → List UInt8 → Option (List Nat × List UInt8)
  | 0, text => some ([], text)
  | _ + 1, [] => some ([], [])
  | n + 1, c :: text =>
    if !isDigit c then none
    else
      match part 0 (c :: text) with
      | none => none
      | some (v, rest) =>
        if rest.head? = some DOT then (parts n rest.tail).map fun (vs, rest) => (v :: vs, rest)
        else some ([v], rest)

def netParseIp (text : List UInt8) : Option Nat :=
  match parts 4 text with
  | some ([a, b, c, d], []) => some (a * 0x1000000 + b * 0x10000 + c * 0x100 + d)
  | _ => none

/-! ## What an address is -/

/-- A decimal number from 0 to 255. -/
structure IsPart (ds : List UInt8) : Prop where
  ne_nil : ds ≠ []
  digits : ∀ b ∈ ds, isDigit b = true
  le : number ds ≤ 255

/-- Four parts with single dots between them. -/
def Dotted (text : List UInt8) (ip : Nat) : Prop :=
  ∃ texts : List (List UInt8), texts.length = 4 ∧ (∀ ds ∈ texts, IsPart ds) ∧
    text = [DOT].intercalate texts ∧ ip = value 256 (texts.map number)

theorem dot_not_digit : isDigit DOT = false := rfl

/-! ## One part -/

variable {text : List UInt8}

theorem part_eq_some {v w : Nat} {rest : List UInt8} (hv : v ≤ 255) :
    part v text = some (w, rest) ↔
      ∃ ds, text = ds ++ rest ∧ Text.Span isDigit ds rest ∧ w = numberFrom v ds ∧ w ≤ 255 := by
  induction text generalizing v with
  | nil =>
    simp only [part, Option.some.injEq, Prod.mk.injEq]
    constructor
    · rintro ⟨rfl, rfl⟩
      exact ⟨[], rfl, Text.Span.nil (by simp), rfl, hv⟩
    · rintro ⟨ds, heq, -, rfl, -⟩
      obtain ⟨rfl, rfl⟩ := List.append_eq_nil_iff.mp heq.symm
      exact ⟨rfl, rfl⟩
  | cons c text ih =>
    rw [part]
    split
    · rename_i hc
      split
      · rename_i hbig
        simp only [reduceCtorEq, false_iff, not_exists, not_and]
        rintro ds heq hspan rfl
        cases ds with
        | nil => exact absurd (hspan.ends c (by rw [← List.nil_append rest, ← heq]; rfl)) (by simp [hc])
        | cons d ds =>
          obtain ⟨rfl, rfl⟩ := List.cons.inj heq
          have := le_numberFrom (v * 10 + digitOf c) ds
          rw [numberFrom_cons]
          omega
      · rename_i hsmall
        rw [ih (Nat.not_lt.mp hsmall)]
        constructor
        · rintro ⟨ds, rfl, hspan, hw⟩
          exact ⟨c :: ds, rfl, hspan.cons hc, hw⟩
        · rintro ⟨ds, heq, hspan, hw⟩
          cases ds with
          | nil => exact absurd (hspan.ends c (by rw [← List.nil_append rest, ← heq]; rfl)) (by simp [hc])
          | cons d ds =>
            obtain ⟨rfl, rfl⟩ := List.cons.inj heq
            exact ⟨ds, rfl, hspan.tail, hw⟩
    · rename_i hc
      rw [Option.some.injEq, Prod.mk.injEq]
      constructor
      · rintro ⟨rfl, rfl⟩
        exact ⟨[], rfl, Text.Span.nil (by simpa using hc), rfl, hv⟩
      · rintro ⟨ds, heq, hspan, rfl, -⟩
        cases ds with
        | nil => exact ⟨rfl, heq⟩
        | cons d ds =>
          obtain ⟨rfl, rfl⟩ := List.cons.inj heq
          exact absurd (hspan.all c (by simp)) hc

theorem part_append {ds rest : List UInt8} (h : IsPart ds) (hrest : ∀ c ∈ rest.head?, isDigit c = false) :
    part 0 (ds ++ rest) = some (number ds, rest) :=
  (part_eq_some (Nat.zero_le _)).mpr ⟨ds, rfl, ⟨h.digits, hrest⟩, rfl, h.le⟩

/-! ## The parts -/

theorem parts_cons {n : Nat} {ds rest : List UInt8} (h : IsPart ds) (hrest : ∀ c ∈ rest.head?, isDigit c = false) :
    parts (n + 1) (ds ++ rest) =
      if rest.head? = some DOT then (parts n rest.tail).map fun (vs, rest) => (number ds :: vs, rest)
      else some ([number ds], rest) := by
  obtain ⟨c, ds', rfl⟩ := List.exists_cons_of_ne_nil h.ne_nil
  have hc : isDigit c = true := h.digits c (by simp)
  have hpart := part_append h hrest
  rw [List.cons_append] at hpart ⊢
  simp only [parts, hc, hpart]
  rfl

theorem parts_begins {n : Nat} {r : List Nat × List UInt8} (h : parts (n + 1) text = some r)
    (hne : r.1 ≠ []) :
    ∃ ds rest, IsPart ds ∧ (∀ c ∈ rest.head?, isDigit c = false) ∧ text = ds ++ rest := by
  cases text with
  | nil =>
    obtain rfl := Option.some.inj h
    exact absurd rfl hne
  | cons c text =>
    rw [parts] at h
    split at h
    · cases h
    · rename_i hc
      rw [Bool.not_eq_true', Bool.not_eq_false] at hc
      split at h
      · cases h
      · rename_i v rest hpart
        obtain ⟨ds, heq, hspan, rfl, hle⟩ := (part_eq_some (Nat.zero_le _)).mp hpart
        refine ⟨ds, rest, ⟨?_, hspan.all, hle⟩, hspan.ends, heq⟩
        rintro rfl
        have hends := hspan.ends c (by rw [← List.nil_append rest, ← heq]; rfl)
        rw [hc] at hends
        cases hends

/-- What the loop has passed is parts with dots between them, and at the end
possibly one dot more. -/
theorem parts_eq_some (n : Nat) {vs : List Nat} (hlen : vs.length = n + 1) :
    parts (n + 1) text = some (vs, []) ↔
      ∃ texts : List (List UInt8), vs = texts.map number ∧ (∀ ds ∈ texts, IsPart ds) ∧
        (text = [DOT].intercalate texts ∨ text = [DOT].intercalate texts ++ [DOT]) := by
  induction n generalizing text vs with
  | zero =>
    obtain ⟨v, rfl⟩ := List.length_eq_one_iff.mp hlen
    constructor
    · intro h
      obtain ⟨ds, rest, hds, hrest, rfl⟩ := parts_begins h (by simp)
      rw [parts_cons hds hrest] at h
      refine ⟨[ds], ?_⟩
      split at h
      · rename_i hdot
        obtain ⟨rest, rfl⟩ : ∃ r, rest = DOT :: r := List.head?_eq_some_iff.mp hdot
        obtain ⟨rfl, rfl⟩ := h
        exact ⟨rfl, by simpa using hds, .inr (by simp)⟩
      · simp only [Option.some.injEq, Prod.mk.injEq, List.cons.injEq, and_true] at h
        obtain ⟨rfl, rfl⟩ := h
        exact ⟨rfl, by simpa using hds, .inl (by simp)⟩
    · rintro ⟨texts, hvs, hall, htext⟩
      obtain ⟨ds, rfl⟩ : ∃ ds, texts = [ds] :=
        List.length_eq_one_iff.mp (by simpa using (congrArg List.length hvs).symm)
      obtain rfl : v = number ds := by simpa using hvs
      have hds : IsPart ds := hall ds (by simp)
      rcases htext with rfl | rfl
      · simpa using @parts_cons 0 ds [] hds (by simp)
      · simpa [parts] using @parts_cons 0 ds [DOT] hds (by simp [dot_not_digit])
  | succ n ih =>
    constructor
    · intro h
      obtain ⟨ds, rest, hds, hrest, rfl⟩ := parts_begins h (by rintro rfl; simp at hlen)
      rw [parts_cons hds hrest] at h
      split at h
      · rename_i hdot
        obtain ⟨rest, rfl⟩ : ∃ r, rest = DOT :: r := List.head?_eq_some_iff.mp hdot
        obtain ⟨⟨vs', rest'⟩, hparts, heq⟩ := Option.map_eq_some_iff.mp h
        obtain ⟨rfl, rfl⟩ := Prod.mk.inj heq
        obtain ⟨texts, hvs, hall, htext⟩ := (ih (by simpa using hlen)).mp hparts
        have hne : texts ≠ [] := by
          rintro rfl
          simp [hvs] at hlen
        refine ⟨ds :: texts, by rw [hvs]; rfl, by simpa using ⟨hds, hall⟩, ?_⟩
        rw [List.intercalate_cons_of_ne_nil hne]
        rcases htext with heq | heq
        · exact .inl (by simpa using heq)
        · exact .inr (by simpa using heq)
      · simp only [Option.some.injEq, Prod.mk.injEq] at h
        rw [← h.1] at hlen
        simp at hlen
    · rintro ⟨texts, rfl, hall, htext⟩
      cases texts with
      | nil => simp at hlen
      | cons ds texts =>
        have hlen' : (texts.map number).length = n + 1 := by simpa using hlen
        have hne : texts ≠ [] := by
          rintro rfl
          simp at hlen'
        have hds : IsPart ds := hall ds (by simp)
        have hrec : ∀ rest, (rest = [DOT].intercalate texts ∨ rest = [DOT].intercalate texts ++ [DOT]) →
            parts (n + 2) (ds ++ DOT :: rest) = some (number ds :: texts.map number, []) := by
          intro rest hrest
          rw [parts_cons hds (by simp [dot_not_digit])]
          simp [(ih hlen').mpr ⟨texts, rfl, fun ds hmem => hall ds (List.mem_cons_of_mem _ hmem), hrest⟩]
        rw [List.intercalate_cons_of_ne_nil hne] at htext
        rcases htext with rfl | rfl
        · simpa using hrec _ (.inl rfl)
        · simpa using hrec _ (.inr rfl)

/-! ## The parser -/

variable {ip : Nat}

theorem netParseIp_eq_some :
    netParseIp text = some ip ↔ ∃ vs, vs.length = 4 ∧ parts 4 text = some (vs, []) ∧ ip = value 256 vs := by
  have hvalue : ∀ a b c d, value 256 [a, b, c, d] = a * 0x1000000 + b * 0x10000 + c * 0x100 + d := by
    intro a b c d
    simp only [value, valueFrom, List.foldl_cons, List.foldl_nil]
    omega
  unfold netParseIp
  split
  · rename_i a b c d hparts
    rw [Option.some.injEq, hparts]
    constructor
    · rintro rfl
      exact ⟨[a, b, c, d], rfl, rfl, (hvalue a b c d).symm⟩
    · rintro ⟨vs, -, heq, rfl⟩
      obtain rfl : [a, b, c, d] = vs := by simpa using heq
      exact (hvalue a b c d).symm
  · rename_i hother
    simp only [reduceCtorEq, false_iff, not_exists, not_and]
    intro vs hlen hparts
    rcases vs with _ | ⟨a, _ | ⟨b, _ | ⟨c, _ | ⟨d, _ | ⟨e, vs⟩⟩⟩⟩⟩ <;> simp only
        [List.length_cons, List.length_nil] at hlen <;> try omega
    exact absurd hparts (hother a b c d)

theorem netParseIp_spec (text : List UInt8) (ip : Nat) :
    netParseIp text = some ip ↔ Dotted text ip ∨ ∃ front, text = front ++ [DOT] ∧ Dotted front ip := by
  rw [netParseIp_eq_some]
  constructor
  · rintro ⟨vs, hlen, hparts, rfl⟩
    obtain ⟨texts, rfl, hall, htext⟩ := (parts_eq_some 3 hlen).mp hparts
    have hfour : texts.length = 4 := by simpa using hlen
    rcases htext with htext | htext
    · exact .inl ⟨texts, hfour, hall, htext, rfl⟩
    · exact .inr ⟨_, htext, texts, hfour, hall, rfl, rfl⟩
  · rintro (⟨texts, hfour, hall, htext, rfl⟩ | ⟨front, htext, texts, hfour, hall, rfl, rfl⟩)
    · have hlen : (texts.map number).length = 4 := by simpa using hfour
      exact ⟨_, hlen, (parts_eq_some 3 hlen).mpr ⟨texts, rfl, hall, .inl htext⟩, rfl⟩
    · have hlen : (texts.map number).length = 4 := by simpa using hfour
      exact ⟨_, hlen, (parts_eq_some 3 hlen).mpr ⟨texts, rfl, hall, .inr htext⟩, rfl⟩

theorem Dotted.last (h : Dotted text ip) : ∃ b, text.getLast? = some b ∧ isDigit b = true := by
  obtain ⟨texts, hfour, hall, rfl, -⟩ := h
  match texts, hfour with
  | [a, b, c, d], _ =>
    have hd : IsPart d := hall d (by simp)
    refine ⟨d.getLast hd.ne_nil, ?_, hd.digits _ (List.getLast_mem hd.ne_nil)⟩
    have hsplit : [DOT].intercalate [a, b, c, d] = (a ++ DOT :: (b ++ DOT :: (c ++ [DOT]))) ++ d := by simp
    rw [hsplit, List.getLast?_append, List.getLast?_eq_some_getLast hd.ne_nil]
    rfl

theorem Dotted.not_dot {front : List UInt8} : ¬ Dotted (front ++ [DOT]) ip := by
  intro h
  obtain ⟨b, hb, hdigit⟩ := h.last
  obtain rfl : DOT = b := by simpa using hb
  cases hdigit

theorem isPart_putDec {v : Nat} (h : v ≤ 255) : IsPart (putDec v) :=
  ⟨decimal_ne_nil v, fun _ hb => isDigit_of_mem_decimal hb, by simpa [putDec] using h⟩

theorem dotted_netFormatIp (h : ip < 0x100000000) : Dotted (netFormatIp ip) ip := by
  refine ⟨[putDec (ip / 0x1000000 % 256), putDec (ip / 0x10000 % 256), putDec (ip / 0x100 % 256), putDec (ip % 256)],
    rfl, ?_, ?_, ?_⟩
  · simp only [List.mem_cons, List.not_mem_nil, or_false]
    rintro ds (rfl | rfl | rfl | rfl) <;> exact isPart_putDec (by omega)
  · simp [netFormatIp]
  · simp only [List.map_cons, List.map_nil, putDec, number_decimal, value, valueFrom, List.foldl_cons, List.foldl_nil]
    omega

end NovarisOS.Net
