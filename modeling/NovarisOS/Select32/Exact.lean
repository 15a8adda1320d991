/-
NovarisOS.Select32.Exact — what select and poll report.

A HIT is a descriptor that is in a set and ready for it. The loop of
`sys_select` counts the hits and puts each into one word, whatever its number
is, so that it is right about the first 32 descriptors only; and when the time
is up it clears all 32 words of a set, more than any `nfds` covers.
-/
import Mathlib.Data.List.Count
import NovarisOS.Select32.Calls

namespace NovarisOS.Select32

open Function (update update_apply update_self)

/-! ## Hits and answers -/

section Answers

variable (T : Fds) (answers : Nat → Nat → Nat) (sets : Which → UserSet) (nfds n : Nat) (out : Which → Stores)

/-- A descriptor in a set is ready for it. -/
def hit (w : Which) (fd : Nat) : Bool :=
  fdsetGet sets w fd && decide (fdReadyMask T answers fd fd &&& w.events ≠ 0)

/-- The words of a set after the stores. -/
def UserSet.after (s : UserSet) (l : Stores) : Nat → Nat := l.foldl (fun f p => update f p.1 p.2) s.word

/-- A descriptor is in the set after the call. -/
def member (w : Which) (fd : Nat) : Bool :=
  (sets w).addr ≠ 0 && ((sets w).after (out w) (fd / 32)).testBit (fd % 32)

/-- The sets hold what was asked for and is ready, the count is right, and
nothing is stored behind the words that cover `nfds`. -/
structure SelectExact : Prop where
  bits : ∀ w, (sets w).addr ≠ 0 → ∀ fd < (nfds + 31) / 32 * 32,
    (member sets out w fd = true ↔ fd < nfds ∧ hit T answers sets w fd = true)
  count : n = ([Which.rd, .wr, .ex].map fun w => (List.range nfds).countP (member sets out w)).sum
  within : ∀ w, ∀ p ∈ out w, p.1 < (nfds + 31) / 32

/-- The entries tell what was asked for and is ready, and what is wrong. -/
structure PollExact (fds fds' : List PollFd) : Prop where
  entries : fds' = fds.mapIdx fun i e =>
    { e with revents := if e.fd < 0 then 0
        else fdReadyMask T answers i e.fd &&& (e.events ||| (POLLERR ||| POLLHUP ||| POLLNVAL)) }
  count : n = fds'.countP fun e => decide (e.revents ≠ 0)

/-- What is ready has a number below 32, and if nothing is there are no sets. -/
structure Narrow : Prop where
  low : ∀ w, ∀ fd < nfds, hit T answers sets w fd = true → fd < 32
  expiry : (∀ w, ∀ fd < nfds, hit T answers sets w fd = false) → ∀ w, (sets w).addr = 0

end Answers

/-! ## The loop of select -/

variable {T : Fds} {answers : Nat → Nat → Nat} {sets : Which → UserSet} {g g' : Found} {nfds : Nat}

theorem foldl_findOne (fd : Nat) (g : Found) :
    ([Which.rd, .wr, .ex].foldl (findOne sets fd (fdReadyMask T answers fd fd)) g).ready = g.ready +
        ([Which.rd, .wr, .ex].map fun w => (hit T answers sets w fd).toNat).sum ∧
      ∀ w, ([Which.rd, .wr, .ex].foldl (findOne sets fd (fdReadyMask T answers fd fd)) g).out w =
        g.out w ||| if hit T answers sets w fd then 2 ^ (fd % 32) else 0 := by
  have hone : ∀ (w : Which) (g : Found), findOne sets fd (fdReadyMask T answers fd fd) g w =
      { g with
        out := update g.out w (g.out w ||| if hit T answers sets w fd then 2 ^ (fd % 32) else 0)
        ready := g.ready + (hit T answers sets w fd).toNat } := by
    intro w g
    by_cases h : fdsetGet sets w fd ∧ fdReadyMask T answers fd fd &&& w.events ≠ 0
    · have hhit : hit T answers sets w fd = true := by simpa [hit] using h
      rw [findOne, if_pos h, hhit]
      rfl
    · have hhit : hit T answers sets w fd = false := by simpa [hit] using h
      rw [findOne, if_neg h, hhit]
      simp
  simp only [List.foldl_cons, List.foldl_nil, hone]
  constructor
  · simp [Nat.add_assoc]
  · intro w
    cases w <;> simp

theorem hit_of_wants {w : Which} {fd : Nat} (h : fdsetGet sets w fd = false) : hit T answers sets w fd = false := by
  simp [hit, h]

/-- What the loop has found when it comes to its end. -/
theorem selectLoop_spec {k fd : Nat} (h : selectLoop T answers sets k fd g = some g') :
    g'.ready = g.ready +
        ([Which.rd, .wr, .ex].map fun w => (List.range' fd k).countP (hit T answers sets w)).sum ∧
      ∀ w b, (g'.out w).testBit b = true ↔ (g.out w).testBit b = true ∨
        ∃ x, fd ≤ x ∧ x < fd + k ∧ hit T answers sets w x = true ∧ x % 32 = b := by
  induction k generalizing fd g with
  | zero =>
    obtain rfl := Option.some.inj h
    refine ⟨by simp, fun w b => ?_⟩
    constructor
    · exact .inl
    · rintro (h | ⟨x, h₁, h₂, -⟩)
      · exact h
      · omega
  | succ k ih =>
    -- In every case the state after one round has what the descriptor adds.
    have hround : ∀ g₁ : Found, selectLoop T answers sets k (fd + 1) g₁ = some g' →
        g₁.ready = g.ready + ([Which.rd, .wr, .ex].map fun w => (hit T answers sets w fd).toNat).sum →
        (∀ w, g₁.out w = g.out w ||| if hit T answers sets w fd then 2 ^ (fd % 32) else 0) →
        g'.ready = g.ready +
            ([Which.rd, .wr, .ex].map fun w => (List.range' fd (k + 1)).countP (hit T answers sets w)).sum ∧
          ∀ w b, (g'.out w).testBit b = true ↔ (g.out w).testBit b = true ∨
            ∃ x, fd ≤ x ∧ x < fd + (k + 1) ∧ hit T answers sets w x = true ∧ x % 32 = b := by
      intro g₁ hrest hready hout
      obtain ⟨hr, hb⟩ := ih hrest
      constructor
      · have hcount : ∀ w, (List.range' fd (k + 1)).countP (hit T answers sets w) =
            (List.range' (fd + 1) k).countP (hit T answers sets w) + (hit T answers sets w fd).toNat := by
          intro w
          rw [List.range'_succ, List.countP_cons]
          cases hit T answers sets w fd <;> rfl
        simp only [hr, hready, hcount, List.map_cons, List.map_nil, List.sum_cons, List.sum_nil]
        omega
      · intro w b
        rw [hb, hout, Nat.testBit_or, Bool.or_eq_true]
        have hbit : (if hit T answers sets w fd then 2 ^ (fd % 32) else 0).testBit b = true ↔
            hit T answers sets w fd = true ∧ fd % 32 = b := by
          split <;> simp [*, Nat.testBit_two_pow]
        rw [hbit]
        constructor
        · rintro ((h | ⟨h, hb⟩) | ⟨x, h₁, h₂, h⟩)
          · exact .inl h
          · exact .inr ⟨fd, Nat.le_refl _, by omega, h, hb⟩
          · exact .inr ⟨x, by omega, by omega, h⟩
        · rintro (h | ⟨x, h₁, h₂, h⟩)
          · exact .inl (.inl h)
          · obtain rfl | hlt := Nat.eq_or_lt_of_le h₁
            · exact .inl (.inr h)
            · exact .inr ⟨x, hlt, by omega, h⟩
    rw [selectLoop] at h
    split at h
    · rename_i hnone
      have hno : ∀ w, hit T answers sets w fd = false := by
        intro w
        apply hit_of_wants
        obtain ⟨hr, hw, he⟩ := hnone
        cases w with
        | rd => simpa using hr
        | wr => simpa using hw
        | ex => simpa using he
      exact hround g h (by simp [hno]) (by simp [hno])
    · simp only at h
      split at h
      · simp at h
      · obtain ⟨hready, hout⟩ := @foldl_findOne T answers sets fd g
        exact hround _ h hready hout

theorem selectLoop_start (h : selectLoop T answers sets nfds 0 ⟨fun _ => 0, 0, ⟨[], true⟩⟩ = some g) :
    g.ready = ([Which.rd, .wr, .ex].map fun w => (List.range nfds).countP (hit T answers sets w)).sum ∧
      ∀ w b, (g.out w).testBit b = true ↔ ∃ x < nfds, hit T answers sets w x = true ∧ x % 32 = b := by
  obtain ⟨hready, hbits⟩ := selectLoop_spec h
  constructor
  · rw [hready, Nat.zero_add, List.range_eq_range']
  · intro w b
    rw [hbits]
    constructor
    · rintro (h | ⟨x, -, h₂, h⟩)
      · simp at h
      · exact ⟨x, by omega, h⟩
    · rintro ⟨x, h₁, h⟩
      exact .inr ⟨x, Nat.zero_le x, by omega, h⟩

theorem ready_eq_zero (h : selectLoop T answers sets nfds 0 ⟨fun _ => 0, 0, ⟨[], true⟩⟩ = some g) :
    g.ready = 0 ↔ ∀ w, ∀ fd < nfds, hit T answers sets w fd = false := by
  rw [(selectLoop_start h).1]
  simp only [List.map_cons, List.map_nil, List.sum_cons, List.sum_nil, Nat.add_eq_zero_iff, List.countP_eq_zero,
    List.mem_range, Bool.not_eq_true]
  constructor
  · rintro ⟨hr, hw, he, -⟩ w
    cases w with
    | rd => exact hr
    | wr => exact hw
    | ex => exact he
  · intro h
    exact ⟨h .rd, h .wr, h .ex, trivial⟩

/-! ## The stores -/

section Stores

variable {s : UserSet}

theorem after_append (l l' : Stores) : s.after (l ++ l') = UserSet.after ⟨s.addr, s.after l⟩ l' := List.foldl_append ..

theorem after_clear (s : UserSet) (a n i : Nat) :
    s.after ((List.range n).map fun j => (j + a, 0)) i = if a ≤ i ∧ i < a + n then 0 else s.word i := by
  induction n with
  | zero =>
    rw [if_neg (by omega)]
    rfl
  | succ n ih =>
    rw [List.range_succ, List.map_append, after_append, List.map_singleton]
    show update (s.after _) (n + a) 0 i = _
    rw [update_apply, ih]
    by_cases hi : i = n + a
    · rw [if_pos hi, if_pos (by omega)]
    · rw [if_neg hi]
      exact if_congr (by omega) rfl rfl

theorem after_ready (s : UserSet) (v n i : Nat) (hi : i < n + 1) :
    s.after ((0, v) :: (List.range n).map fun j => (j + 1, 0)) i = if i = 0 then v else 0 := by
  show UserSet.after ⟨s.addr, update s.word 0 v⟩ _ i = _
  rw [after_clear]
  by_cases hz : i = 0
  · rw [if_neg (by omega), if_pos hz, hz]
    exact update_self 0 v s.word
  · rw [if_pos (by omega), if_neg hz]

end Stores

/-! ## The end of a call -/

/-- A call that found something is exact if none of it is above 31. -/
theorem ready_exact (h : selectLoop T answers sets nfds 0 ⟨fun _ => 0, 0, ⟨[], true⟩⟩ = some g) (hg : g.ready ≠ 0) :
    SelectExact T answers sets nfds g.ready (storesOf sets fun w =>
        (0, g.out w) :: (List.range (max ((nfds + 31) / 32) 1 - 1)).map fun i => (i + 1, 0)) ↔
      Narrow T answers sets nfds := by
  obtain ⟨hready, hbits⟩ := selectLoop_start h
  obtain ⟨w₀, fd₀, hfd₀, hhit₀⟩ : ∃ w, ∃ fd < nfds, hit T answers sets w fd = true := by
    by_contra hnone
    refine hg ((ready_eq_zero h).2 fun w fd hfd => ?_)
    by_contra hne
    exact hnone ⟨w, fd, hfd, by simpa using hne⟩
  have hmember : ∀ w fd, (sets w).addr ≠ 0 → fd < (nfds + 31) / 32 * 32 →
      member sets (storesOf sets fun w => (0, g.out w) ::
        (List.range (max ((nfds + 31) / 32) 1 - 1)).map fun i => (i + 1, 0)) w fd =
      ((if fd / 32 = 0 then g.out w else 0).testBit (fd % 32)) := by
    intro w fd hw hfd
    rw [member, storesOf, if_pos hw, after_ready _ _ _ _ (by omega)]
    simp [hw]
  have haddr : ∀ w fd, hit T answers sets w fd = true → (sets w).addr ≠ 0 := by
    intro w fd hh hz
    simp [hit, fdsetGet, hz] at hh
  constructor
  · intro hexact
    refine ⟨fun w fd hfd hhit => ?_, fun hnone => ?_⟩
    · by_contra hlow
      have hin := (hexact.bits w (haddr w fd hhit) fd (by omega)).2 ⟨hfd, hhit⟩
      rw [hmember w fd (haddr w fd hhit) (by omega), if_neg (by omega)] at hin
      simp at hin
    · rw [hnone w₀ fd₀ hfd₀] at hhit₀
      exact absurd hhit₀ (by decide)
  · intro hnarrow
    have hbit : ∀ w, (sets w).addr ≠ 0 → ∀ fd < (nfds + 31) / 32 * 32,
        (member sets (storesOf sets fun w => (0, g.out w) ::
          (List.range (max ((nfds + 31) / 32) 1 - 1)).map fun i => (i + 1, 0)) w fd = true ↔
            fd < nfds ∧ hit T answers sets w fd = true) := by
      intro w hw fd hfd
      rw [hmember w fd hw hfd]
      by_cases hz : fd / 32 = 0
      · rw [if_pos hz, hbits]
        constructor
        · rintro ⟨x, hx, hhit, hmod⟩
          have hxlow := hnarrow.low w x hx hhit
          obtain rfl : x = fd := by omega
          exact ⟨hx, hhit⟩
        · rintro ⟨hlt, hhit⟩
          exact ⟨fd, hlt, hhit, rfl⟩
      · rw [if_neg hz, Nat.zero_testBit]
        refine iff_of_false (by decide) ?_
        rintro ⟨hlt, hhit⟩
        have := hnarrow.low w fd hlt hhit
        omega
    refine ⟨hbit, ?_, ?_⟩
    · have hcount : ∀ w, (List.range nfds).countP (hit T answers sets w) = (List.range nfds).countP
          (member sets (storesOf sets fun w => (0, g.out w) ::
            (List.range (max ((nfds + 31) / 32) 1 - 1)).map fun i => (i + 1, 0)) w) := by
        intro w
        refine List.countP_congr fun fd hfd => ?_
        have hlt := List.mem_range.1 hfd
        by_cases hw : (sets w).addr = 0
        · simp [hit, fdsetGet, member, hw]
        · rw [hbit w hw fd (by omega)]
          exact ⟨fun hh => ⟨hlt, hh⟩, And.right⟩
      rw [hready]
      simp only [hcount]
    · intro w p hp
      rw [storesOf] at hp
      split at hp
      · obtain rfl | hp := List.mem_cons.1 hp
        · simp only
          omega
        · obtain ⟨i, hi, rfl⟩ := List.mem_map.1 hp
          have := List.mem_range.1 hi
          omega
      · simp at hp

theorem expiry_exact (hn : nfds ≤ MAX_FDS) (hnone : ∀ w, ∀ fd < nfds, hit T answers sets w fd = false) :
    SelectExact T answers sets nfds 0 (storesOf sets fun _ => (List.range K_FDSET_WORDS).map fun i => (i, 0)) ↔
      Narrow T answers sets nfds := by
  constructor
  · intro hexact
    refine ⟨fun w fd hfd hh => absurd ((hnone w fd hfd).symm.trans hh) (by decide), fun _ w => ?_⟩
    by_contra hw
    have hlast := hexact.within w (31, 0) (by
      rw [storesOf, if_pos hw]
      exact List.mem_map.2 ⟨31, List.mem_range.2 (by decide), rfl⟩)
    simp only [MAX_FDS] at hn hlast
    omega
  · intro hnarrow
    have haddr := hnarrow.expiry hnone
    refine ⟨fun w hw => absurd (haddr w) hw, ?_, fun w p hp => ?_⟩
    · have hcount : ∀ w, (List.range nfds).countP
          (member sets (storesOf sets fun _ => (List.range K_FDSET_WORDS).map fun i => (i, 0)) w) = 0 := by
        intro w
        simp [List.countP_eq_zero, member, haddr w]
      simp only [hcount]
      rfl
    · rw [storesOf, if_neg (by simp [haddr w])] at hp
      simp at hp

/-! ## poll -/

theorem pollLoop_spec (fds : List PollFd) (hev : ∀ e ∈ fds, e.events < 0x10000) (i : Nat) (p : Parked) :
    (pollLoop T answers i fds p).1 = fds.mapIdx (fun j e =>
        { e with revents := if e.fd < 0 then 0
            else fdReadyMask T answers (i + j) e.fd &&& (e.events ||| (POLLERR ||| POLLHUP ||| POLLNVAL)) }) ∧
      (pollLoop T answers i fds p).2.1 =
        (pollLoop T answers i fds p).1.countP fun e => decide (e.revents ≠ 0) := by
  induction fds generalizing i p with
  | nil => exact ⟨rfl, rfl⟩
  | cons e l ih =>
    have hshift : ∀ j, i + 1 + j = i + (j + 1) := fun j => by omega
    rw [pollLoop]
    split
    · rename_i hneg
      obtain ⟨hl, hn⟩ := ih (fun e he => hev e (List.mem_cons_of_mem _ he)) (i + 1) p
      constructor
      · simp only [List.mapIdx_cons, if_pos hneg, hl, hshift]
      · simp only [hn, List.countP_cons]
        simp
    · rename_i hneg
      obtain ⟨hl, hn⟩ := ih (fun e he => hev e (List.mem_cons_of_mem _ he)) (i + 1) (register T e.fd p)
      have hwant : e.events % 0x10000 = e.events := Nat.mod_eq_of_lt (hev e (List.mem_cons_self ..))
      have hrev : (fdReadyMask T answers i e.fd &&& (e.events ||| (POLLERR ||| POLLHUP ||| POLLNVAL))) % 0x10000 =
          fdReadyMask T answers i e.fd &&& (e.events ||| (POLLERR ||| POLLHUP ||| POLLNVAL)) := by
        refine Nat.mod_eq_of_lt (Nat.lt_of_le_of_lt Nat.and_le_right ?_)
        exact Nat.or_lt_two_pow (n := 16) (hev e (List.mem_cons_self ..)) (by decide)
      simp only [hwant, hrev]
      constructor
      · simp only [List.mapIdx_cons, if_neg hneg, hl, hshift, Nat.add_zero]
      · simp only [hn, List.countP_cons]
        simp

theorem waitOrExpire_done {β : Type} {P : Waiting} {key ticks n : Nat} {timeoutMs : Int} {p : Parked} {expired b : β}
    (h : (waitOrExpire P key timeoutMs ticks p expired).1 = .done n b) : n = 0 ∧ b = expired := by
  unfold waitOrExpire at h
  split at h
  · cases h
    exact ⟨rfl, rfl⟩
  · cases h

/-- A `select` that completes leaves exactly what was asked for and is ready,
counts it, and keeps to the words of the sets, if and only if nothing above 31
is ready and, if nothing at all is, there are no sets. A `poll` that completes
is exact. -/
theorem select_exact_iff_and_poll_exact (T : Fds) (answers : Nat → Nat → Nat) (P : Waiting) (ticks : Nat) :
    (∀ sets nfds tv n out, nfds ≤ MAX_FDS → (sysSelect T answers sets nfds tv P ticks).1 = .done n out →
      (SelectExact T answers sets nfds n out ↔ Narrow T answers sets nfds)) ∧
    ∀ addr fds timeoutMs n fds', (∀ e ∈ fds, e.events < 0x10000) →
      (sysPoll T answers addr fds timeoutMs P ticks).1 = .done n fds' → PollExact T answers n fds fds' := by
  constructor
  · intro sets nfds tv n out hn h
    have hmin : min (nfds : Int).toNat MAX_FDS = nfds := by omega
    rw [sysSelect, if_neg (by omega), hmin] at h
    cases hloop : selectLoop T answers sets nfds 0 ⟨fun _ => 0, 0, ⟨[], true⟩⟩ with
    | none =>
      simp only [hloop] at h
      cases h
    | some g =>
      simp only [hloop] at h
      split at h
      · rename_i hready
        cases h
        exact ready_exact hloop hready
      · rename_i hready
        obtain ⟨rfl, rfl⟩ := waitOrExpire_done h
        exact expiry_exact hn ((ready_eq_zero hloop).1 (not_not.1 hready))
  · intro addr fds timeoutMs n fds' hev h
    obtain ⟨hentries, hcount⟩ := pollLoop_spec (T := T) fds hev 0 ⟨[], true⟩
    simp only [Nat.zero_add] at hentries
    rw [sysPoll] at h
    split at h
    · cases h
    · split at h
      · cases h
      · simp only at h
        split at h
        · cases h
          exact ⟨hentries, hcount⟩
        · rename_i hzero
          obtain ⟨rfl, rfl⟩ := waitOrExpire_done h
          exact ⟨hentries, (not_not.1 hzero).symm.trans hcount⟩

/-! ## A readable socket -/

/-- Only one descriptor is open: a socket. -/
def oneSocket (fd : Nat) : Fds := fun i => if i = fd then .socket 7 else .free

/-- The only set is the one to read from, and the descriptor is in it. -/
def readSet (fd : Nat) : Which → UserSet
  | .rd => ⟨0x1000, update (fun _ => 0) (fd / 32) (2 ^ (fd % 32))⟩
  | _ => ⟨0, fun _ => 0⟩

/-- A `select` for descriptor 3 is exact, and a `poll` of it and of one that is
not open. -/
theorem select_and_poll_of_descriptor_3 :
    (∃ n out, (sysSelect (oneSocket 3) (fun _ _ => POLLIN) (readSet 3) 4 none ⟨0, 0⟩ 0).1 = .done n out ∧
      SelectExact (oneSocket 3) (fun _ _ => POLLIN) (readSet 3) 4 n out) ∧
    ∃ n fds, (sysPoll (oneSocket 3) (fun _ _ => POLLIN) 0x2000 [⟨3, POLLIN, 0⟩, ⟨5, POLLIN, 0⟩] 0 ⟨0, 0⟩ 0).1 =
        .done n fds ∧
      PollExact (oneSocket 3) (fun _ _ => POLLIN) n [⟨3, POLLIN, 0⟩, ⟨5, POLLIN, 0⟩] fds := by
  obtain ⟨hselect, hpoll⟩ := select_exact_iff_and_poll_exact (oneSocket 3) (fun _ _ => POLLIN) ⟨0, 0⟩ 0
  refine ⟨⟨_, _, rfl, (hselect (readSet 3) 4 none _ _ (by decide) rfl).2 ⟨fun w fd hfd _ => by omega, fun h => ?_⟩⟩,
    _, _, rfl, hpoll 0x2000 _ 0 _ _ (by decide) rfl⟩
  exact absurd (h .rd 3 (by decide)) (by decide)

/-- For descriptor 40 it answers 1 and leaves the set without it: it has set
bit 8 of the first word. -/
theorem select_of_descriptor_40 :
    ∃ out, (sysSelect (oneSocket 40) (fun _ _ => POLLIN) (readSet 40) 41 none ⟨0, 0⟩ 0).1 = .done 1 out ∧
      out .rd = [(0, 2 ^ 8), (1, 0)] ∧ ¬SelectExact (oneSocket 40) (fun _ _ => POLLIN) (readSet 40) 41 1 out := by
  refine ⟨_, rfl, rfl, fun h => ?_⟩
  exact absurd ((h.bits .rd (by decide) 40 (by decide)).2 ⟨by decide, by decide⟩) (by decide)

end NovarisOS.Select32
