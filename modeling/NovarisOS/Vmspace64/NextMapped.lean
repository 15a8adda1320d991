/-
NovarisOS.Vmspace64.NextMapped — `vmspace64_next_mapped` over the tables as
they lie in memory.

A table is 512 words of 64 bits at a physical address that an entry or cr3
names. Nothing is asked of the words: two entries may lead to one table, and a
table may lead to itself.
-/
import NovarisOS.Lib.Loop
import NovarisOS.Vmspace64.Space

namespace NovarisOS.Vmspace64

abbrev PAGE64_PRESENT : UInt64 := 0x1
abbrev PAGE64_HUGE : UInt64 := 0x80
abbrev ADDR_MASK : UInt64 := 0x000FFFFFFFFFF000

/-- The words of physical memory that tables are read from: the entry `i` of
the table at an address. -/
abbrev Words := UInt64 → Nat → UInt64

/-! ## `kernel/paging64.c` -/

def present (e : UInt64) : Bool := e &&& PAGE64_PRESENT != 0

def huge (e : UInt64) : Bool := e &&& PAGE64_HUGE != 0

def translate (mem : Words) (cr3 : UInt64) (virt : Nat) : Option Nat :=
  let e := mem (cr3 &&& ADDR_MASK) (virt / 0x8000000000 % 512)
  if !present e then none
  else
    let e := mem (e &&& ADDR_MASK) (virt / 0x40000000 % 512)
    if !present e then none
    else if huge e then
      some ((e &&& ADDR_MASK).toNat / 0x40000000 * 0x40000000 + virt % 0x40000000)
    else
      let e := mem (e &&& ADDR_MASK) (virt / 0x200000 % 512)
      if !present e then none
      else if huge e then
        some ((e &&& ADDR_MASK).toNat / 0x200000 * 0x200000 + virt % 0x200000)
      else
        let e := mem (e &&& ADDR_MASK) (virt / 0x1000 % 512)
        if !present e then none else some ((e &&& ADDR_MASK).toNat + virt % 0x1000)

/-! ## `kernel/vmspace64.c` -/

/-- To the start of the next table's span. -/
def skipTo (va skip : Nat) : Nat := (va / skip * skip + skip) % 18446744073709551616

/-- A round of the loop of `vmspace64_next_mapped`. -/
def nextMappedBody (mem : Words) (cr3 : UInt64) (stop va : Nat) : Round Nat Nat :=
  if va < stop then
    let e := mem (cr3 &&& ADDR_MASK) (va / 0x8000000000 % 512)
    if !present e then .more (skipTo va 0x8000000000)
    else
      let e := mem (e &&& ADDR_MASK) (va / 0x40000000 % 512)
      if !present e then .more (skipTo va 0x40000000)
      else if huge e then .over va
      else
        let e := mem (e &&& ADDR_MASK) (va / 0x200000 % 512)
        if !present e then .more (skipTo va 0x200000)
        else if huge e then .over va
        else
          let e := mem (e &&& ADDR_MASK) (va / 0x1000 % 512)
          if present e then .over va else .more (skipTo va PAGE64_SIZE)
  else .over stop

/-- `vmspace64_next_mapped`, as far as `rounds` rounds of its loop go. -/
def nextMapped (mem : Words) (cr3 : UInt64) (rounds va stop : Nat) : Option Nat :=
  Loop.run (nextMappedBody mem cr3 stop) rounds (va / PAGE64_SIZE * PAGE64_SIZE)

/-! ## The scan -/

/-- The first of so many pages that the tables map, looked up one by one. -/
def scan (mem : Words) (cr3 : UInt64) (stop : Nat) : Nat → Nat → Nat
  | 0, _ => stop
  | pages + 1, va =>
    if (translate mem cr3 va).isSome then va else scan mem cr3 stop pages (va + PAGE64_SIZE)

variable {mem : Words} {cr3 : UInt64} {stop va : Nat}

theorem scan_none : ∀ (n va : Nat), (∀ i < n, translate mem cr3 (va + i * PAGE64_SIZE) = none) →
    scan mem cr3 stop n va = stop := by
  intro n
  induction n with
  | zero => intro va _; rfl
  | succ n ih =>
    intro va h
    rw [scan, show translate mem cr3 va = none by simpa using h 0 (by omega)]
    refine ih _ fun i hi => ?_
    have := h (i + 1) (by omega)
    rwa [show va + (i + 1) * PAGE64_SIZE = va + PAGE64_SIZE + i * PAGE64_SIZE by
      simp only [PAGE64_SIZE]; omega] at this

theorem scan_some : ∀ (n va k : Nat), k < n →
    (∀ i < k, translate mem cr3 (va + i * PAGE64_SIZE) = none) →
    (translate mem cr3 (va + k * PAGE64_SIZE)).isSome → scan mem cr3 stop n va = va + k * PAGE64_SIZE := by
  intro n
  induction n with
  | zero => intro va k hk; omega
  | succ n ih =>
    intro va k hk hbelow hfound
    rw [scan]
    cases k with
    | zero =>
      rw [Nat.zero_mul, Nat.add_zero] at hfound ⊢
      rw [if_pos hfound]
    | succ k =>
      have hstep : ∀ i, va + (i + 1) * PAGE64_SIZE = va + PAGE64_SIZE + i * PAGE64_SIZE := by
        intro i
        simp only [PAGE64_SIZE]
        omega
      rw [show translate mem cr3 va = none by simpa using hbelow 0 (by omega), hstep]
      refine ih _ k (by omega) (fun i hi => ?_) ?_
      · rw [← hstep]
        exact hbelow (i + 1) (by omega)
      · rw [← hstep]
        exact hfound

/-! ## The skips -/

theorem skipTo_spec {skip : Nat} (hlt : va < 0x800000000000)
    (h : skip = 0x8000000000 ∨ skip = 0x40000000 ∨ skip = 0x200000 ∨ skip = PAGE64_SIZE) :
    va < skipTo va skip ∧ PAGE64_SIZE ∣ skipTo va skip ∧
    ∀ x, va ≤ x → x < skipTo va skip → x / skip = va / skip := by
  simp only [skipTo, PAGE64_SIZE] at *
  rcases h with rfl | rfl | rfl | rfl
  all_goals
    refine ⟨by omega, by omega, fun x hlo hhi => ?_⟩
    omega

theorem nextMappedBody_cases (hlt : va < stop) (htop : stop ≤ 0x800000000000) :
    ((translate mem cr3 va).isSome ∧ nextMappedBody mem cr3 stop va = .over va) ∨
    ∃ va', nextMappedBody mem cr3 stop va = .more va' ∧ va < va' ∧ PAGE64_SIZE ∣ va' ∧
      ∀ x, va ≤ x → x < va' → translate mem cr3 x = none := by
  have hva : va < 0x800000000000 := Nat.lt_of_lt_of_le hlt htop
  rw [nextMappedBody, if_pos hlt]
  simp only
  split
  · rename_i h4
    obtain ⟨hgrow, hpage, hsame⟩ := skipTo_spec hva (.inl rfl)
    refine .inr ⟨_, rfl, hgrow, hpage, fun x hlo hhi => ?_⟩
    rw [translate, hsame x hlo hhi]
    simp [h4]
  rename_i h4
  split
  · rename_i h3
    obtain ⟨hgrow, hpage, hsame⟩ := skipTo_spec hva (.inr (.inl rfl))
    refine .inr ⟨_, rfl, hgrow, hpage, fun x hlo hhi => ?_⟩
    have h := hsame x hlo hhi
    rw [translate, h, show x / 0x8000000000 = va / 0x8000000000 by omega]
    simp [h4, h3]
  rename_i h3
  split
  · rename_i hbig
    refine .inl ⟨?_, rfl⟩
    rw [translate]
    simp [h4, h3, hbig]
  rename_i hbig
  split
  · rename_i h2
    obtain ⟨hgrow, hpage, hsame⟩ := skipTo_spec hva (.inr (.inr (.inl rfl)))
    refine .inr ⟨_, rfl, hgrow, hpage, fun x hlo hhi => ?_⟩
    have h := hsame x hlo hhi
    rw [translate, h, show x / 0x8000000000 = va / 0x8000000000 by omega,
      show x / 0x40000000 = va / 0x40000000 by omega]
    simp [h4, h3, hbig, h2]
  rename_i h2
  split
  · rename_i hmid
    refine .inl ⟨?_, rfl⟩
    rw [translate]
    simp [h4, h3, hbig, h2, hmid]
  rename_i hmid
  split
  · rename_i h1
    refine .inl ⟨?_, rfl⟩
    rw [translate]
    simp [h4, h3, hbig, h2, hmid, h1]
  · rename_i h1
    obtain ⟨hgrow, hpage, hsame⟩ := skipTo_spec hva (.inr (.inr (.inr rfl)))
    refine .inr ⟨_, rfl, hgrow, hpage, fun x hlo hhi => ?_⟩
    have h := hsame x hlo hhi
    simp only [PAGE64_SIZE] at h
    rw [translate, h, show x / 0x8000000000 = va / 0x8000000000 by omega,
      show x / 0x40000000 = va / 0x40000000 by omega, show x / 0x200000 = va / 0x200000 by omega]
    simp [h4, h3, hbig, h2, hmid, h1]

/-- The first page of `[va, stop)` that the tables map, or `stop` if they map
none of them. -/
def FirstMapped (mem : Words) (cr3 : UInt64) (va stop p : Nat) : Prop :=
  (∀ x, va ≤ x → x < p → PAGE64_SIZE ∣ x → translate mem cr3 x = none) ∧
  (p = stop ∨ va ≤ p ∧ p < stop ∧ PAGE64_SIZE ∣ p ∧ (translate mem cr3 p).isSome)

theorem FirstMapped.scan {p : Nat} (h : FirstMapped mem cr3 va stop p) (hva : PAGE64_SIZE ∣ va)
    (hstop : PAGE64_SIZE ∣ stop) (hle : va ≤ stop) :
    scan mem cr3 stop ((stop - va) / PAGE64_SIZE) va = p := by
  obtain ⟨hbelow, hp⟩ := h
  have hpage : ∀ i, PAGE64_SIZE ∣ va + i * PAGE64_SIZE := fun i =>
    Nat.dvd_add hva (Nat.dvd_mul_left _ _)
  rcases hp with rfl | ⟨hlo, hlt, hdvd, hfound⟩
  · refine scan_none _ va fun i hi => hbelow _ (by omega) ?_ (hpage i)
    simp only [PAGE64_SIZE] at *
    omega
  · have hk : p = va + (p - va) / PAGE64_SIZE * PAGE64_SIZE := by
      simp only [PAGE64_SIZE] at *
      omega
    have hlast : (p - va) / PAGE64_SIZE < (stop - va) / PAGE64_SIZE := by
      simp only [PAGE64_SIZE] at *
      omega
    rw [hk] at hfound
    refine (scan_some _ va _ hlast (fun i hi => hbelow _ (by omega) ?_ (hpage i)) hfound).trans hk.symm
    simp only [PAGE64_SIZE] at *
    omega

/-- The search for the next mapped page ends at the first there is, where a
scan of all the pages ends. -/
theorem nextMapped_eq_scan (mem : Words) (cr3 : UInt64) {va stop rounds : Nat}
    (hva : PAGE64_SIZE ∣ va) (hstop : PAGE64_SIZE ∣ stop) (hle : va ≤ stop)
    (htop : stop ≤ 0x800000000000) (hrounds : (stop - va) / PAGE64_SIZE < rounds) :
    ∃ p, nextMapped mem cr3 rounds va stop = some p ∧ FirstMapped mem cr3 va stop p ∧
      p = scan mem cr3 stop ((stop - va) / PAGE64_SIZE) va := by
  have hround : ∀ s, PAGE64_SIZE ∣ s →
      (stop ≤ s ∧ nextMappedBody mem cr3 stop s = .over stop) ∨
      (s < stop ∧ (translate mem cr3 s).isSome ∧ nextMappedBody mem cr3 stop s = .over s) ∨
      (s < stop ∧ ∃ s', nextMappedBody mem cr3 stop s = .more s' ∧ s + PAGE64_SIZE ≤ s' ∧
        PAGE64_SIZE ∣ s' ∧ ∀ x, s ≤ x → x < s' → ¬ (translate mem cr3 x).isSome) := by
    intro s hdvd
    by_cases hs : s < stop
    · rcases nextMappedBody_cases hs htop with ⟨hfound, hbody⟩ | ⟨s', hbody, hgrow, hpage, hnone⟩
      · exact .inr (.inl ⟨hs, hfound, hbody⟩)
      · refine .inr (.inr ⟨hs, s', hbody, ?_, hpage, fun x hlo hhi => by simp [hnone x hlo hhi]⟩)
        simp only [PAGE64_SIZE] at *
        omega
    · exact .inl ⟨Nat.not_lt.mp hs, by rw [nextMappedBody, if_neg hs]⟩
  have hfirst : ∃ p, nextMapped mem cr3 rounds va stop = some p ∧ FirstMapped mem cr3 va stop p := by
    obtain ⟨rounds, rfl⟩ := Nat.exists_eq_add_of_lt hrounds
    rw [nextMapped, Nat.div_mul_cancel hva]
    rcases Loop.run_search (by decide) hround ((stop - va) / PAGE64_SIZE + rounds) va hva
      (by simp only [PAGE64_SIZE] at *; omega) with
      ⟨r, hlo, hlt, hpage, hfound, hbelow, hrun⟩ | ⟨hnone, hrun⟩
    · exact ⟨r, hrun, fun x hx hlt' _ => by simpa using hbelow x hx hlt', .inr ⟨hlo, hlt, hpage, hfound⟩⟩
    · exact ⟨stop, hrun, fun x hx hlt' _ => by simpa using hnone x hx hlt', .inl rfl⟩
  obtain ⟨p, hrun, h⟩ := hfirst
  exact ⟨p, hrun, h, (h.scan hva hstop hle).symm⟩

/-- Tables with a page of 1GB, a page of 2MB and one of 4KB. -/
def someTables : Words := fun table i =>
  if table = 0x1000 ∧ i = 1 then 0x2001
  else if table = 0x2000 ∧ i = 3 then 0x40000081
  else if table = 0x2000 ∧ i = 1 then 0x3001
  else if table = 0x3000 ∧ i = 5 then 0x200081
  else if table = 0x3000 ∧ i = 2 then 0x4001
  else if table = 0x4000 ∧ i = 7 then 0x9007
  else 0

theorem nextMapped_eq_scan_huge :
    ∃ p, nextMapped someTables 0x1000 0x100000 0x80C0001000 0x8140001000 = some p ∧
      FirstMapped someTables 0x1000 0x80C0001000 0x8140001000 p ∧
      p = scan someTables 0x1000 0x8140001000 ((0x8140001000 - 0x80C0001000) / PAGE64_SIZE)
        0x80C0001000 :=
  nextMapped_eq_scan someTables 0x1000 (by decide) (by decide) (by decide) (by decide) (by decide)

/-- From the first page of all, over the end of a table's span. -/
example : nextMapped someTables 0x1000 16 0x1000 0x800000000000 = some 0x8040407000 := by
  decide

end NovarisOS.Vmspace64
