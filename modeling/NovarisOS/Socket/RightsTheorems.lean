/-
NovarisOS.Socket.RightsTheorems — descriptors arrive with their own message.

`Faithful` is what a history should be.
-/
import Mathlib.Algebra.GroupWithZero.Nat
import Mathlib.Data.List.TakeWhile
import NovarisOS.Socket.Rights

namespace NovarisOS.Socket.Rights

open Tcp (wrap32)

variable {τ : Type}

/-! ## What a history should be -/

/-- The receive has returned the first byte of the message. -/
def Receipt.First (r : Receipt τ) (m : Message τ) : Prop := r.start ≤ m.start ∧ m.start < r.start + r.bytes.length

instance (r : Receipt τ) (m : Message τ) : Decidable (r.First m) := inferInstanceAs (Decidable (_ ∧ _))

structure History.Faithful (h : History τ) : Prop where
  /-- In order, without loss or duplication. -/
  order : h.taken ++ h.queue.buf = h.stream
  bytes : ∀ r ∈ h.receipts, r.bytes = (h.stream.drop r.start).take r.bytes.length
  /-- Not two messages, when the later one has descriptors. -/
  apart : ∀ r ∈ h.receipts, ∀ m ∈ h.messages, m.rights ≠ [] → m.payload ≠ [] →
    ¬ (r.start < m.start ∧ m.start < r.start + r.bytes.length)
  /-- Descriptors with the first byte, and with nothing else. -/
  own : ∀ r ∈ h.receipts, r.recvmsg = true → ∀ m ∈ h.messages, m.payload ≠ [] →
    r.rights.filter (fun right => right.1 = m.number) =
      if r.First m then m.rights.map (m.number, ·) else []
  errors : ∀ m ∈ h.messages, m.code < 0 → m.payload = [] ∧ m.rights = []

/-- The descriptors are all queued and come with at least a byte, or the first
fails; and the counters have not wrapped between the reader and the message. -/
def Queue.SendsWhole {σ : Type} (q : Queue τ) (rights : List (Option σ)) (vecs : List (List UInt8)) : Prop :=
  rights = [] ∨ q.passed.length ≥ MAX_PASSED_FDS ∨ rights.head? = some none ∨
    (∀ right ∈ rights, right ≠ none) ∧ q.passed.length + rights.length ≤ MAX_PASSED_FDS ∧
      (∃ v ∈ vecs, v ≠ []) ∧ q.buf.length < SOCK_BUF_SIZE ∧ q.rxRead ≤ q.rxWritten

/-- The descriptors that the reader has come to are all taken and installed,
with payload, and the payload ends where the next message with descriptors
begins; a look has one vector. -/
structure Queue.TakesWhole (q : Queue τ) (room free : Nat) (lens : List Nat) (peek : Bool) : Prop where
  rights : q.reached = [] ∨ ((∀ len ∈ lens, len = 0) ∧ room < CMSGHDR_BYTES + 4) ∨
    (peek = false ∧ CMSGHDR_BYTES + 4 * q.reached.length ≤ room ∧ q.reached.length ≤ free ∧
      ∃ len ∈ lens, len ≠ 0)
  vectors : peek = false → q.qLimit < q.buf.length →
    ∀ k, (lens.take k).sum = q.qLimit → ∀ len ∈ lens.drop k, len = 0
  look : peek = true → ∀ len len' rest, lens.filter (· ≠ 0) = len :: len' :: rest → q.qLimit < len

def History.Proper (h : History τ) : Call τ → Prop
  | .sendmsg rights vecs => h.queue.SendsWhole rights vecs
  | .recvmsg room free lens peek => h.queue.TakesWhole room free lens peek
  | .write _ | .read _ => True

/-! ## The limit -/

namespace Queue

variable {q : Queue τ}

theorem limit_fold (rxRead : Nat) (ps : List (Passed τ)) : ∀ limit : Nat,
    ps.foldl (fun limit p => if p.pos ≤ rxRead then limit else min limit (p.pos - rxRead)) limit ≤ limit ∧
    (∀ p ∈ ps, rxRead < p.pos →
      ps.foldl (fun limit p => if p.pos ≤ rxRead then limit else min limit (p.pos - rxRead)) limit ≤ p.pos - rxRead) ∧
    (0 < limit → 0 < ps.foldl (fun limit p => if p.pos ≤ rxRead then limit else min limit (p.pos - rxRead)) limit) := by
  induction ps with
  | nil => exact fun limit => ⟨Nat.le_refl _, nofun, id⟩
  | cons p ps ih =>
    intro limit
    rw [List.foldl_cons]
    by_cases hp : p.pos ≤ rxRead
    · rw [if_pos hp]
      obtain ⟨hle, hall, hpos⟩ := ih limit
      refine ⟨hle, fun p' hp' hlt => ?_, hpos⟩
      rcases List.mem_cons.mp hp' with rfl | hp'
      · omega
      · exact hall p' hp' hlt
    · rw [if_neg hp]
      obtain ⟨hle, hall, hpos⟩ := ih (min limit (p.pos - rxRead))
      refine ⟨by omega, fun p' hp' hlt => ?_, fun h => hpos (by omega)⟩
      rcases List.mem_cons.mp hp' with rfl | hp'
      · omega
      · exact hall p' hp' hlt

theorem qLimit_le (q : Queue τ) : q.qLimit ≤ q.buf.length := (limit_fold q.rxRead q.passed _).1

variable {p : Passed τ}

theorem qLimit_le_pos (hp : p ∈ q.passed) (hlt : q.rxRead < p.pos) : q.qLimit ≤ p.pos - q.rxRead :=
  (limit_fold q.rxRead q.passed _).2.1 p hp hlt

theorem qLimit_pos (h : q.buf ≠ []) : 0 < q.qLimit :=
  (limit_fold q.rxRead q.passed _).2.2 (List.length_pos_iff.mpr h)

/-- Every descriptor is ahead of the reader. -/
def Ahead (q : Queue τ) : Prop := ∀ p ∈ q.passed, q.rxRead < p.pos ∧ p.pos < 0x100000000

variable {n : Nat}

theorem Ahead.lt_pos (h : q.Ahead) (hn : n < q.qLimit) (hp : p ∈ q.passed) :
    q.rxRead + n < p.pos := by
  have hle := qLimit_le_pos hp (h p hp).1
  omega

theorem Ahead.rxRead_advance (h : q.Ahead) (hn : n < q.qLimit) (hp : p ∈ q.passed) :
    (q.advance n).rxRead = q.rxRead + n := by
  have h₁ := h.lt_pos hn hp
  have h₂ := (h p hp).2
  exact Nat.mod_eq_of_lt (by omega)

theorem Ahead.advance (h : q.Ahead) (hn : n < q.qLimit) : (q.advance n).Ahead := by
  intro p hp
  rw [h.rxRead_advance hn hp]
  exact ⟨h.lt_pos hn hp, (h p hp).2⟩

theorem limit_fold_sub (rxRead n : Nat) (ps : List (Passed τ)) : ∀ limit : Nat, (∀ p ∈ ps, rxRead + n < p.pos) →
    ps.foldl (fun limit p => if p.pos ≤ rxRead + n then limit else min limit (p.pos - (rxRead + n))) (limit - n) =
      ps.foldl (fun limit p => if p.pos ≤ rxRead then limit else min limit (p.pos - rxRead)) limit - n := by
  induction ps with
  | nil => exact fun _ _ => rfl
  | cons p ps ih =>
    intro limit hall
    have hp := hall p List.mem_cons_self
    rw [List.foldl_cons, List.foldl_cons, if_neg (by omega), if_neg (by omega),
      ← ih _ fun p' hp' => hall p' (List.mem_cons_of_mem p hp')]
    congr 1
    omega

theorem qLimit_advance (h : q.Ahead) (hn : n < q.qLimit) : (q.advance n).qLimit = q.qLimit - n := by
  cases hps : q.passed with
  | nil =>
    have hnone : q.qLimit = q.buf.length := by
      rw [qLimit, hps]
      rfl
    rw [hnone, qLimit, show (q.advance n).passed = [] from hps]
    exact List.length_drop
  | cons p ps =>
    have hread := h.rxRead_advance hn (hps ▸ List.mem_cons_self)
    rw [qLimit, hread, show (q.advance n).buf.length = q.buf.length - n from List.length_drop]
    exact limit_fold_sub q.rxRead n q.passed q.buf.length fun p' hp' => h.lt_pos hn hp'

theorem qLimit_unreached (q : Queue τ) :
    ({ q with passed := q.passed.dropWhile (·.pos ≤ q.rxRead) } : Queue τ).qLimit = q.qLimit := by
  have hskip : ∀ (ps : List (Passed τ)) (limit : Nat), (∀ p ∈ ps, p.pos ≤ q.rxRead) →
      ps.foldl (fun limit p => if p.pos ≤ q.rxRead then limit else min limit (p.pos - q.rxRead)) limit = limit := by
    intro ps
    induction ps with
    | nil => exact fun _ _ => rfl
    | cons p ps ih =>
      intro limit hall
      rw [List.foldl_cons, if_pos (hall p List.mem_cons_self)]
      exact ih limit fun p' hp' => hall p' (List.mem_cons_of_mem p hp')
  rw [qLimit, qLimit]
  conv_rhs => rw [← List.takeWhile_append_dropWhile (p := fun p => decide (p.pos ≤ q.rxRead)) (l := q.passed)]
  rw [List.foldl_append, hskip (q.passed.takeWhile _) _ fun p hp => by simpa using List.mem_takeWhile_imp hp]

/-! ## The loops of receiving -/

/-- With enough free descriptors none is lost. -/
theorem fdImport_all (tokens : List τ) : ∀ {free : Nat}, tokens.length ≤ free →
    fdImport free tokens = tokens.map some := by
  induction tokens with
  | nil => exact fun _ => by rw [fdImport, List.map_nil]
  | cons token tokens ih =>
    intro free hfree
    rw [List.length_cons] at hfree
    cases free with
    | zero => omega
    | succ free => rw [fdImport, ih (by omega), List.map_cons]

theorem recvControl_all {room free : Nat}
    (hroom : q.reached = [] ∨ CMSGHDR_BYTES + 4 * q.reached.length ≤ room ∧ q.reached.length ≤ free) :
    q.recvControl room free =
      ((q.reached.map (·.token)).map some, { q with passed := q.passed.dropWhile (·.pos ≤ q.rxRead) }) := by
  have hall : q.reached ++ q.passed.dropWhile (·.pos ≤ q.rxRead) = q.passed := List.takeWhile_append_dropWhile
  by_cases hnone : q.reached = []
  · rw [hnone, List.nil_append] at hall
    rw [recvControl, hnone, hall]
    split
    · rfl
    · simp [fdImport]
  · obtain ⟨hbig, hfree⟩ := hroom.resolve_left hnone
    have hpos := List.length_pos_iff.mpr hnone
    have hne : ¬ (q.passed = [] ∨ room < CMSGHDR_BYTES + 4) := by
      rintro (hnil | hsmall)
      · rw [reached, hnil] at hnone
        exact hnone rfl
      · omega
    have hmin : min q.reached.length ((room - CMSGHDR_BYTES) / 4) = q.reached.length := by
      omega
    rw [recvControl, if_neg hne]
    simp only [hmin]
    have htake : q.passed.take q.reached.length = q.reached := by
      conv_lhs => rw [← hall]
      exact List.take_left
    have hdrop : q.passed.drop q.reached.length = q.passed.dropWhile (·.pos ≤ q.rxRead) := by
      conv_lhs => rw [← hall]
      exact List.drop_left
    rw [htake, hdrop, fdImport_all _ (by rw [List.length_map]; exact hfree)]

theorem recvVecs_zeros {peek : Bool} (lens : List Nat) : ∀ {q : Queue τ} {got : List UInt8}, (∀ len ∈ lens, len = 0) →
    q.recvVecs peek got lens = (got, q) := by
  induction lens with
  | nil => exact fun _ => rfl
  | cons len lens ih =>
    intro q got hall
    rw [recvVecs, if_pos (hall len List.mem_cons_self)]
    exact ih fun len' hlen' => hall len' (List.mem_cons_of_mem len hlen')

theorem recvVecs_empty {peek : Bool} (lens : List Nat) : ∀ {q : Queue τ} {got : List UInt8}, q.buf = [] →
    q.recvVecs peek got lens = (got, q) := by
  induction lens with
  | nil => exact fun _ => rfl
  | cons len lens ih =>
    intro q got hempty
    by_cases hlen : len = 0
    · rw [recvVecs, if_pos hlen, ih hempty]
    · rw [recvVecs, if_neg hlen, if_pos hempty]

theorem advance_zero (h : q.rxRead < 0x100000000) : q.advance 0 = q := by
  rw [advance, List.drop_zero, Nat.add_zero, wrap32, Nat.mod_eq_of_lt h]

theorem advance_advance (m n : Nat) : (q.advance m).advance n = q.advance (m + n) := by
  simp only [advance, List.drop_drop, wrap32, Nat.mod_add_mod, Nat.add_assoc]

theorem length_take_limit (h : n ≤ q.qLimit) : (q.buf.take n).length = n := by
  rw [List.length_take, Nat.min_eq_left (Nat.le_trans h q.qLimit_le)]

theorem recvVecs_take (lens : List Nat) : ∀ {q : Queue τ} (got : List UInt8), q.Ahead → q.rxRead < 0x100000000 →
    (q.qLimit < q.buf.length → ∀ k, (lens.take k).sum = q.qLimit → ∀ len ∈ lens.drop k, len = 0) →
    ∃ n ≤ q.qLimit, q.recvVecs false got lens = (got ++ q.buf.take n, q.advance n) ∧
      (n = 0 → q.buf = [] ∨ ∀ len ∈ lens, len = 0) := by
  induction lens with
  | nil =>
    intro q got _ hread _
    refine ⟨0, Nat.zero_le _, ?_, fun _ => Or.inr nofun⟩
    rw [recvVecs, List.take_zero, List.append_nil, advance_zero hread]
  | cons len lens ih =>
    intro q got ha hread hcross
    by_cases hlen : len = 0
    · subst hlen
      obtain ⟨n, hn, heq, hzero⟩ := ih got ha hread fun hlt k hk => by
        have hnext := hcross hlt (k + 1)
        rw [List.take_succ_cons, List.sum_cons, Nat.zero_add, List.drop_succ_cons] at hnext
        exact hnext hk
      refine ⟨n, hn, by rw [recvVecs, if_pos rfl, heq], fun h0 => (hzero h0).imp_right fun hall len' hlen' => ?_⟩
      exact (List.mem_cons.mp hlen').elim id (hall len')
    · by_cases hempty : q.buf = []
      · refine ⟨0, Nat.zero_le _, ?_, fun _ => Or.inl hempty⟩
        rw [recvVecs_empty _ hempty, List.take_zero, List.append_nil, advance_zero hread]
      · have hpos := qLimit_pos hempty
        rw [recvVecs, if_neg hlen, if_neg hempty]
        simp only [qGet, Bool.false_eq_true, if_false]
        rw [length_take_limit (Nat.min_le_right _ _)]
        by_cases hshort : min len q.qLimit < len
        · rw [if_pos hshort]
          exact ⟨min len q.qLimit, Nat.min_le_right _ _, rfl, fun h0 => by omega⟩
        · rw [if_neg hshort, Nat.min_eq_left (by omega)]
          by_cases hmore : len < q.qLimit
          · -- the limit is ahead: the next vector goes on
            have hlim := qLimit_advance ha hmore
            have hblen : (q.advance len).buf.length = q.buf.length - len := List.length_drop
            obtain ⟨n, hn, heq, -⟩ := ih (got ++ q.buf.take len) (ha.advance hmore)
              (Nat.mod_lt _ (by decide)) fun hlt k hk => by
                have hnext := hcross (by omega) (k + 1)
                rw [List.take_succ_cons, List.sum_cons, List.drop_succ_cons] at hnext
                exact hnext (by omega)
            refine ⟨len + n, by omega, ?_, fun h0 => by omega⟩
            rw [heq, advance_advance, List.append_assoc, List.take_add]
            rfl
          · -- the limit is reached
            have hat : len = q.qLimit := by omega
            refine ⟨len, by omega, ?_, fun h0 => absurd h0 hlen⟩
            by_cases hend : q.qLimit < q.buf.length
            · have hrest := hcross hend 1
              exact recvVecs_zeros lens (hrest hat)
            · exact recvVecs_empty lens (List.drop_eq_nil_of_le (by omega))

theorem recvVecs_look (lens : List Nat) : ∀ got : List UInt8,
    (∀ len len' rest, lens.filter (· ≠ 0) = len :: len' :: rest → q.qLimit < len) →
    ∃ n ≤ q.qLimit, q.recvVecs true got lens = (got ++ q.buf.take n, q) := by
  induction lens with
  | nil => exact fun got _ => ⟨0, Nat.zero_le _, by rw [recvVecs, List.take_zero, List.append_nil]⟩
  | cons len lens ih =>
    intro got hlook
    by_cases hlen : len = 0
    · rw [recvVecs, if_pos hlen]
      exact ih got fun l l' rest heq => hlook l l' rest (by rw [List.filter_cons_of_neg (by simpa using hlen), heq])
    · rw [List.filter_cons_of_pos (by simpa using hlen)] at hlook
      by_cases hempty : q.buf = []
      · exact ⟨0, Nat.zero_le _, by rw [recvVecs_empty _ hempty, List.take_zero, List.append_nil]⟩
      · rw [recvVecs, if_neg hlen, if_neg hempty]
        simp only [qGet, if_true]
        rw [length_take_limit (Nat.min_le_right _ _)]
        by_cases hshort : min len q.qLimit < len
        · rw [if_pos hshort]
          exact ⟨_, Nat.min_le_right _ _, rfl⟩
        · rw [if_neg hshort]
          refine ⟨_, Nat.min_le_right len q.qLimit, recvVecs_zeros lens ?_⟩
          cases hrest : lens.filter (· ≠ 0) with
          | nil =>
            intro len' hlen'
            have hnot := List.filter_eq_nil_iff.mp hrest len' hlen'
            simpa using hnot
          | cons len' rest =>
            have := hlook len len' rest (by rw [hrest])
            omega

/-! ## The loops of sending -/

/-- Bytes are queued. -/
def append (q : Queue τ) (data : List UInt8) : Queue τ :=
  { q with buf := q.buf ++ data, rxWritten := wrap32 (q.rxWritten + data.length) }

theorem append_nil (h : q.rxWritten < 0x100000000) : q.append [] = q := by
  rw [append, List.append_nil, List.length_nil, Nat.add_zero, wrap32, Nat.mod_eq_of_lt h]

theorem append_append (a b : List UInt8) : (q.append a).append b = q.append (a ++ b) := by
  simp only [append, List.append_assoc, wrap32, Nat.mod_add_mod, Nat.add_assoc, List.length_append]

theorem socketWrite_spec {v : List UInt8} (hfits : q.buf.length ≤ SOCK_BUF_SIZE) (hlt : q.rxWritten < 0x100000000) :
    ∃ data, (q.socketWrite v).2 = q.append data ∧ q.buf.length + data.length ≤ SOCK_BUF_SIZE ∧
      ((q.socketWrite v).1 < 0 → data = []) ∧ (0 ≤ (q.socketWrite v).1 → (q.socketWrite v).1 = data.length) ∧
      (v ≠ [] → q.buf.length < SOCK_BUF_SIZE → data ≠ []) := by
  by_cases hv : v = []
  · refine ⟨[], ?_⟩
    rw [socketWrite, if_pos hv, append_nil hlt]
    exact ⟨rfl, hfits, fun _ => rfl, fun _ => rfl, fun hne => absurd hv hne⟩
  · have hpos := List.length_pos_iff.mpr hv
    generalize hn : min v.length (SOCK_BUF_SIZE - q.buf.length) = n
    have hlen : (v.take n).length = n := by
      rw [List.length_take]
      omega
    refine ⟨v.take n, ?_⟩
    rw [socketWrite, if_neg hv]
    simp only [qPut, hn]
    rw [append, hlen]
    by_cases h0 : n = 0
    · rw [if_pos h0]
      refine ⟨rfl, by omega, fun _ => ?_,
          fun hcode => absurd hcode (by show ¬ (0 : Int) ≤ -11; decide), fun _ hroom => ?_⟩
      · rw [h0, List.take_zero]
      · simp only [SOCK_BUF_SIZE] at hn hroom
        omega
    · rw [if_neg h0]
      refine ⟨rfl, by simp only [SOCK_BUF_SIZE] at *; omega, fun hcode => ?_, fun _ => rfl, fun _ _ hnil => ?_⟩
      · simp only at hcode
        omega
      · rw [hnil] at hlen
        exact h0 hlen.symm

theorem sendVecs_spec (vs : List (List UInt8)) : ∀ {q : Queue τ} (total : Nat), q.buf.length ≤ SOCK_BUF_SIZE →
    q.rxWritten < 0x100000000 →
    ∃ data, (q.sendVecs total vs).2 = q.append data ∧ q.buf.length + data.length ≤ SOCK_BUF_SIZE ∧
      ((q.sendVecs total vs).1 < 0 → data = []) ∧ (total ≠ 0 → 0 ≤ (q.sendVecs total vs).1) ∧
      ((∃ v ∈ vs, v ≠ []) → q.buf.length < SOCK_BUF_SIZE → data ≠ []) := by
  induction vs with
  | nil =>
    intro q total hfits hlt
    refine ⟨[], ?_⟩
    rw [sendVecs, append_nil hlt]
    exact ⟨rfl, hfits, fun _ => rfl, fun _ => Int.natCast_nonneg total, fun ⟨v, hv, _⟩ => nomatch hv⟩
  | cons v vs ih =>
    intro q total hfits hlt
    by_cases hv : v = []
    · obtain ⟨data, heq, hroom, hneg, hpos, hne⟩ := ih total hfits hlt
      refine ⟨data, ?_⟩
      rw [sendVecs, if_pos hv]
      refine ⟨heq, hroom, hneg, hpos, fun ⟨v', hv', hne'⟩ => hne ⟨v', ?_, hne'⟩⟩
      exact (List.mem_cons.mp hv').resolve_left fun h => hne' (h.trans hv)
    · obtain ⟨data, heq, hroom, hneg, hcode, hne⟩ := socketWrite_spec (v := v) hfits hlt
      rw [sendVecs, if_neg hv]
      simp only
      by_cases hfail : (q.socketWrite v).1 < 0
      · rw [if_pos hfail]
        refine ⟨data, heq, hroom, fun _ => hneg hfail, fun htotal => ?_, fun _ => hne hv⟩
        simp only [if_pos htotal]
        exact Int.natCast_nonneg total
      · rw [if_neg hfail]
        have hn := hcode (by omega)
        by_cases hshort : (q.socketWrite v).1 < v.length
        · rw [if_pos hshort]
          refine ⟨data, heq, hroom, fun hlow => ?_, fun _ => ?_, fun _ => hne hv⟩
          · simp only at hlow
            omega
          · simp only
            omega
        · rw [if_neg hshort, heq]
          have hlen : (q.append data).buf.length = q.buf.length + data.length := List.length_append
          have hdata : data ≠ [] := by
            rintro rfl
            have := List.length_pos_iff.mpr hv
            simp only [List.length_nil] at hn
            omega
          obtain ⟨more, heq', hroom', hneg', hpos', -⟩ :=
            ih (total + (q.socketWrite v).1.toNat) (by rw [hlen]; exact hroom)
              (Nat.mod_lt _ (show 0 < 0x100000000 by decide))
          have hdlen := List.length_pos_iff.mpr hdata
          refine ⟨data ++ more, by rw [heq', append_append], ?_, fun hlow => ?_,
              fun _ => hpos' (by omega), fun _ _ hnil => ?_⟩
          · rw [List.length_append]
            omega
          · exact absurd (hpos' (by omega)) (by omega)
          · exact hdata (List.append_eq_nil_iff.mp hnil).1

theorem sendControl_all (rights : List (Option τ)) : ∀ {q : Queue τ}, (∀ right ∈ rights, right ≠ none) →
    q.passed.length + rights.length ≤ MAX_PASSED_FDS →
    q.sendControl rights = (0, { q with passed := q.passed ++ (rights.filterMap id).map (⟨·, q.rxWritten⟩) }) := by
  induction rights with
  | nil =>
    intro q _ _
    rw [sendControl, List.filterMap_nil, List.map_nil, List.append_nil]
  | cons right rights ih =>
    intro q hall hroom
    rw [List.length_cons] at hroom
    cases right with
    | none => exact absurd rfl (hall none List.mem_cons_self)
    | some token =>
      rw [sendControl, if_neg (by omega), ih (fun r hr => hall r (List.mem_cons_of_mem _ hr)) (by
        rw [List.length_append, List.length_singleton]
        omega)]
      simp only [List.filterMap_cons_some (a := some token) (f := id) rfl, List.map_cons, List.append_assoc,
        List.singleton_append]

/-- What a send has done: nothing when it failed, and descriptors only with
payload. -/
structure Sends (q : Queue τ) (code : Int) (q' : Queue τ) (data : List UInt8) (tokens : List τ) : Prop where
  queue : q' = { q.append data with passed := q.passed ++ tokens.map (⟨·, q.rxWritten⟩) }
  room : q.buf.length + data.length ≤ SOCK_BUF_SIZE
  failed : code < 0 → data = [] ∧ tokens = []
  whole : tokens ≠ [] → data ≠ [] ∧ q.rxRead ≤ q.rxWritten

theorem sends_nothing {code : Int} (hfits : q.buf.length ≤ SOCK_BUF_SIZE) (hlt : q.rxWritten < 0x100000000) :
    q.Sends code q [] [] where
  queue := by rw [append_nil hlt, List.map_nil, List.append_nil]
  room := hfits
  failed := fun _ => ⟨rfl, rfl⟩
  whole := fun h => absurd rfl h

theorem write_sends (data : List UInt8) (hfits : q.buf.length ≤ SOCK_BUF_SIZE) (hlt : q.rxWritten < 0x100000000) :
    ∃ queued, q.Sends (q.socketWrite data).1 (q.socketWrite data).2 queued [] := by
  obtain ⟨queued, heq, hroom, hneg, -⟩ := socketWrite_spec (v := data) hfits hlt
  refine ⟨queued, ?_, hroom, fun hlow => ⟨hneg hlow, rfl⟩, fun h => absurd rfl h⟩
  rw [heq, List.map_nil, List.append_nil]
  rfl

theorem doSendmsg_sends {rights : List (Option τ)} {vecs : List (List UInt8)} (hwhole : q.SendsWhole rights vecs)
    (hfits : q.buf.length ≤ SOCK_BUF_SIZE) (hlt : q.rxWritten < 0x100000000) :
    ∃ data tokens, q.Sends (q.doSendmsg rights vecs).1 (q.doSendmsg rights vecs).2 data tokens ∧
      ∀ token ∈ tokens, some token ∈ rights := by
  cases rights with
  | nil =>
    obtain ⟨data, heq, hroom, hneg, -, -⟩ := sendVecs_spec vecs 0 hfits hlt
    refine ⟨data, [], ⟨?_, hroom, fun hlow => ⟨hneg hlow, rfl⟩, fun h => absurd rfl h⟩, nofun⟩
    rw [List.map_nil, List.append_nil]
    exact heq
  | cons right rights =>
    rcases hwhole with hnil | hfull | hhead | ⟨hall, hroom, hvecs, hspace, hread⟩
    · cases hnil
    · have hctl : q.sendControl (right :: rights) = (-EMSGSIZE, q) := by
        rw [sendControl.eq_def]
        exact if_pos hfull
      refine ⟨[], [], ?_, nofun⟩
      rw [doSendmsg, hctl]
      exact sends_nothing hfits hlt
    · obtain rfl : right = none := Option.some.inj hhead
      have hctl : q.sendControl (none :: rights) = (-EMSGSIZE, q) ∨ q.sendControl (none :: rights) = (-EBADF, q) := by
        rw [sendControl.eq_def]
        by_cases hfull : q.passed.length ≥ MAX_PASSED_FDS
        · exact Or.inl (if_pos hfull)
        · exact Or.inr (if_neg hfull)
      refine ⟨[], [], ?_, nofun⟩
      rcases hctl with hctl | hctl
      · rw [doSendmsg, hctl]
        exact sends_nothing hfits hlt
      · rw [doSendmsg, hctl]
        exact sends_nothing hfits hlt
    · have hctl := sendControl_all (right :: rights) hall hroom
      obtain ⟨data, heq, hsize, hneg, -, hdata⟩ :=
        sendVecs_spec vecs (q := { q with passed := q.passed ++ ((right :: rights).filterMap id).map (⟨·, q.rxWritten⟩) })
          0 hfits hlt
      have hne := hdata hvecs hspace
      refine ⟨data, (right :: rights).filterMap id, ?_, fun token ht => ?_⟩
      · rw [doSendmsg, hctl]
        exact ⟨heq, hsize, fun hlow => absurd (hneg hlow) hne, fun _ => ⟨hne, hread⟩⟩
      · obtain ⟨a, ha, rfl⟩ := List.mem_filterMap.mp ht
        exact ha

end Queue

/-! ## Descriptors of messages -/

/-- The descriptors of a message as they are queued. -/
def Message.entries (m : Message τ) : List (Passed (Nat × τ)) :=
  m.rights.map fun right => ⟨(m.number, right), wrap32 m.start⟩

variable {m : Message τ}

theorem Message.entries_nil (h : m.rights = []) : m.entries = [] := by
  rw [entries, h]
  rfl

theorem Message.mem_entries {p : Passed (Nat × τ)} (h : p ∈ m.entries) :
    p.token.1 = m.number ∧ p.pos = wrap32 m.start ∧ m.rights ≠ [] := by
  obtain ⟨right, hright, rfl⟩ := List.mem_map.mp h
  exact ⟨rfl, rfl, List.ne_nil_of_mem hright⟩

theorem entries_filter_congr {p q : Message τ → Bool} (ms : List (Message τ))
    (h : ∀ m ∈ ms, m.rights ≠ [] → p m = q m) :
    (ms.filter p).flatMap Message.entries = (ms.filter q).flatMap Message.entries := by
  induction ms with
  | nil => rfl
  | cons m ms ih =>
    have hrest := ih fun m' hm' => h m' (List.mem_cons_of_mem m hm')
    by_cases hm : m.rights = []
    · have hnil := Message.entries_nil hm
      simp only [List.filter_cons]
      cases p m <;> cases q m <;> simp [hnil, hrest]
    · have hpq := h m List.mem_cons_self hm
      simp only [List.filter_cons, hpq]
      cases q m <;> simp [hrest]

/-- The queue is in the order of the messages, so those that the reader has
come to are in front. -/
theorem entries_split (rxRead T : Nat) (ms : List (Message τ)) (hsorted : ms.Pairwise fun m m' => m.start ≤ m'.start)
    (h : ∀ m ∈ ms, m.rights ≠ [] → (wrap32 m.start ≤ rxRead ↔ m.start ≤ T)) :
    (ms.flatMap Message.entries).takeWhile (·.pos ≤ rxRead) =
      (ms.filter (·.start ≤ T)).flatMap Message.entries ∧
    (ms.flatMap Message.entries).dropWhile (·.pos ≤ rxRead) =
      (ms.filter (T < ·.start)).flatMap Message.entries := by
  induction ms with
  | nil => exact ⟨rfl, rfl⟩
  | cons m ms ih =>
    obtain ⟨hfirst, hsorted⟩ := List.pairwise_cons.mp hsorted
    obtain ⟨htake, hdrop⟩ := ih hsorted fun m' hm' => h m' (List.mem_cons_of_mem m hm')
    have hm := h m List.mem_cons_self
    rw [List.flatMap_cons]
    by_cases hle : m.start ≤ T
    · have hall : ∀ p ∈ m.entries, decide (p.pos ≤ rxRead) = true := by
        intro p hp
        obtain ⟨-, hpos, hne⟩ := Message.mem_entries hp
        rw [hpos, decide_eq_true ((hm hne).mpr hle)]
      rw [List.takeWhile_append_of_pos hall, List.dropWhile_append_of_pos hall, htake, hdrop,
        List.filter_cons_of_pos (by simpa using hle), List.filter_cons_of_neg (by simpa using hle), List.flatMap_cons]
      exact ⟨rfl, rfl⟩
    · rw [List.filter_cons_of_neg (by simpa using hle), List.filter_cons_of_pos (by simpa using hle), List.flatMap_cons]
      by_cases hne : m.rights = []
      · rw [Message.entries_nil hne, List.nil_append, List.nil_append]
        exact ⟨htake, hdrop⟩
      · -- the first is ahead of the reader, and all the others with it
        have hlate : ∀ m' ∈ ms, ¬ m'.start ≤ T := fun m' hm' => by
          have := hfirst m' hm'
          omega
        have hnone : ms.filter (·.start ≤ T) = [] :=
            List.filter_eq_nil_iff.mpr fun m' hm' => by simpa using hlate m' hm'
        have hrest : ms.filter (T < ·.start) = ms := List.filter_eq_self.mpr fun m' hm' => by simpa using hlate m' hm'
        obtain ⟨right, rights, hrights⟩ := List.exists_cons_of_ne_nil hne
        have hahead : ¬ wrap32 m.start ≤ rxRead := fun hw => hle ((hm hne).mp hw)
        rw [hnone, hrest, Message.entries, hrights, List.map_cons, List.cons_append]
        constructor
        · rw [List.takeWhile_cons_of_neg (by simpa using hahead)]
          rfl
        · rw [List.dropWhile_cons_of_neg (by simpa using hahead)]

theorem entries_own {p : Message τ → Bool} (ms : List (Message τ))
    (hdistinct : ms.Pairwise fun m m' => m.number ≠ m'.number)
    (hm : m ∈ ms) :
    (((ms.filter p).flatMap Message.entries).map (·.token)).filter (fun right => right.1 = m.number) =
      if p m then m.rights.map (m.number, ·) else [] := by
  -- the descriptors of a message with another number are not among them
  have hother : ∀ ms' : List (Message τ), (∀ m' ∈ ms', m'.number ≠ m.number) →
      (((ms'.filter p).flatMap Message.entries).map (·.token)).filter (fun right => right.1 = m.number) = [] := by
    intro ms' hne
    rw [List.filter_eq_nil_iff]
    intro right hright
    obtain ⟨e, he, rfl⟩ := List.mem_map.mp hright
    obtain ⟨m', hm', he⟩ := List.mem_flatMap.mp he
    have hnum := (Message.mem_entries he).1
    have hneq := hne m' (List.mem_filter.mp hm').1
    simpa [hnum] using hneq
  induction ms with
  | nil => cases hm
  | cons m' ms ih =>
    obtain ⟨hfirst, hdistinct⟩ := List.pairwise_cons.mp hdistinct
    rcases List.mem_cons.mp hm with rfl | hmem
    · have hrest := hother ms fun m' hm' => Ne.symm (hfirst m' hm')
      have hself : (m.entries.map (·.token)).filter (fun right => right.1 = m.number) = m.rights.map (m.number, ·) := by
        rw [Message.entries, List.map_map]
        exact List.filter_eq_self.mpr fun right hright => by
          obtain ⟨x, -, rfl⟩ := List.mem_map.mp hright
          simp
      rw [List.filter_cons]
      cases hp : p m with
      | true => simpa [hself] using hrest
      | false => simpa using hrest
    · have hne : m'.number ≠ m.number := hfirst m hmem
      have hself : (m'.entries.map (·.token)).filter (fun right => right.1 = m.number) = [] := by
        rw [List.filter_eq_nil_iff]
        intro right hright
        obtain ⟨e, he, rfl⟩ := List.mem_map.mp hright
        simpa [(Message.mem_entries he).1] using hne
      rw [← ih hdistinct hmem, List.filter_cons]
      cases p m' with
      | true => simp [hself]
      | false => simp

/-! ## The invariant -/

namespace History

structure Ok (h : History τ) : Prop where
  faithful : h.Faithful
  fits : h.queue.buf.length ≤ SOCK_BUF_SIZE
  written : h.queue.rxWritten = wrap32 h.stream.length
  read : h.queue.rxRead = wrap32 h.taken.length
  numbers : ∀ m ∈ h.messages, m.number < h.messages.length
  distinct : h.messages.Pairwise fun m m' => m.number ≠ m'.number
  starts : h.messages.Pairwise fun m m' => m.start ≤ m'.start
  within : ∀ m ∈ h.messages, m.start + m.payload.length ≤ h.stream.length
  payload : ∀ m ∈ h.messages, m.rights ≠ [] → m.payload ≠ []
  passed : h.queue.passed = (h.messages.filter (h.taken.length ≤ ·.start)).flatMap Message.entries
  noWrap : ∀ m ∈ h.messages, m.rights ≠ [] → h.taken.length ≤ m.start →
    wrap32 m.start = wrap32 h.taken.length + (m.start - h.taken.length)
  tags : ∀ r ∈ h.receipts, ∀ right ∈ r.rights, right.1 < h.messages.length
  past : ∀ r ∈ h.receipts, r.start + r.bytes.length ≤ h.stream.length

theorem init_ok : (init : History τ).Ok :=
  ⟨⟨rfl, nofun, nofun, nofun, nofun⟩, Nat.zero_le _, rfl, rfl, nofun, List.Pairwise.nil,
    List.Pairwise.nil, nofun, nofun, rfl,
    nofun, nofun, nofun⟩

variable {h h' : History τ} {n : Nat}

/-- A message is put behind the others. -/
structure Adds (h h' : History τ) (m : Message τ) : Prop where
  messages : h'.messages = h.messages ++ [m]
  receipts : h'.receipts = h.receipts
  buf : h'.queue.buf = h.queue.buf ++ m.payload
  number : m.number = h.messages.length
  start : m.start = h.stream.length

section Adds

variable {m : Message τ}

theorem Adds.stream (ha : Adds h h' m) : h'.stream = h.stream ++ m.payload := by
  rw [History.stream, ha.messages]
  simp [History.stream]

theorem Adds.taken (ha : Adds h h' m) : h'.taken = h.taken := by rw [History.taken, ha.receipts, History.taken]

theorem Adds.mem (ha : Adds h h' m) {m' : Message τ} (hm' : m' ∈ h'.messages) : m' ∈ h.messages ∨ m' = m := by
  rw [ha.messages] at hm'
  exact (List.mem_append.mp hm').imp_right List.mem_singleton.mp

/-- Nothing of the new message has been received. -/
theorem Adds.faithful (ha : Adds h h' m) (hok : h.Ok) (hfailed : m.code < 0 → m.payload = [] ∧ m.rights = []) :
    h'.Faithful := by
  refine ⟨?_, fun r hr => ?_, fun r hr m' hm' hri hpa => ?_, fun r hr hrecv m' hm' hpa => ?_, fun m' hm' hcode => ?_⟩
  · rw [ha.stream, ha.taken, ha.buf, ← hok.faithful.order, List.append_assoc]
  · rw [ha.receipts] at hr
    have hp := hok.past r hr
    rw [ha.stream, List.drop_append_of_le_length (by omega), List.take_append_of_le_length (by
      rw [List.length_drop]
      omega)]
    exact hok.faithful.bytes r hr
  · rw [ha.receipts] at hr
    rcases ha.mem hm' with hm' | rfl
    · exact hok.faithful.apart r hr m' hm' hri hpa
    · have hp := hok.past r hr
      rw [ha.start]
      omega
  · rw [ha.receipts] at hr
    rcases ha.mem hm' with hm' | rfl
    · exact hok.faithful.own r hr hrecv m' hm' hpa
    · have hp := hok.past r hr
      have hnot : ¬ r.First m' := by
        rintro ⟨-, hlt⟩
        rw [ha.start] at hlt
        omega
      rw [if_neg hnot, List.filter_eq_nil_iff]
      intro right hright
      have htag := hok.tags r hr right hright
      rw [ha.number]
      simp only [decide_eq_true_eq]
      omega
  · rcases ha.mem hm' with hm' | rfl
    · exact hok.faithful.errors m' hm' hcode
    · exact hfailed hcode

end Adds

/-- A receipt of `n` bytes from the front of the queue. -/
structure Takes (h h' : History τ) (r : Receipt τ) (n : Nat) : Prop where
  messages : h'.messages = h.messages
  receipts : h'.receipts = h.receipts ++ [r]
  buf : h'.queue.buf = if r.peek then h.queue.buf else h.queue.buf.drop n
  start : r.start = h.taken.length
  bytes : r.bytes = h.queue.buf.take n
  fits : n ≤ h.queue.buf.length

section Takes

variable {r : Receipt τ}

theorem Takes.length (ht : Takes h h' r n) : r.bytes.length = n := by
  rw [ht.bytes, List.length_take]
  exact Nat.min_eq_left ht.fits

theorem Takes.stream (ht : Takes h h' r n) : h'.stream = h.stream := by
  rw [History.stream, ht.messages, History.stream]

theorem Takes.taken (ht : Takes h h' r n) : h'.taken = h.taken ++ if r.peek then [] else h.queue.buf.take n := by
  rw [History.taken, History.taken, ht.receipts, List.filter_append, List.flatMap_append, ← ht.bytes]
  cases hp : r.peek <;> simp [hp]

theorem Takes.mem (ht : Takes h h' r n) {r' : Receipt τ} (hr' : r' ∈ h'.receipts) : r' ∈ h.receipts ∨ r' = r := by
  rw [ht.receipts] at hr'
  exact (List.mem_append.mp hr').imp_right List.mem_singleton.mp

theorem Takes.faithful (ht : Takes h h' r n) (hok : h.Ok)
    (hahead : ∀ m ∈ h.messages, m.rights ≠ [] → h.taken.length < m.start → h.taken.length + n ≤ m.start)
    (hown : r.recvmsg = true → ∀ m ∈ h.messages, m.payload ≠ [] → r.rights.filter (fun right => right.1 = m.number) =
      if h.taken.length ≤ m.start ∧ m.start < h.taken.length + n then m.rights.map (m.number, ·) else []) :
    h'.Faithful := by
  refine ⟨?_, fun r' hr' => ?_, fun r' hr' m hm hri hpa => ?_, fun r' hr' hrecv m hm hpa => ?_, ?_⟩
  · rw [ht.taken, ht.buf, ht.stream, ← hok.faithful.order]
    split
    · rw [List.append_nil]
    · rw [List.append_assoc, List.take_append_drop]
  · rw [ht.stream]
    rcases ht.mem hr' with hr' | rfl
    · exact hok.faithful.bytes r' hr'
    · rw [ht.length, ht.start, ← hok.faithful.order, List.drop_left, ht.bytes]
  · rw [ht.messages] at hm
    rcases ht.mem hr' with hr' | rfl
    · exact hok.faithful.apart r' hr' m hm hri hpa
    · rw [ht.length, ht.start]
      rintro ⟨hlt, hlt'⟩
      have := hahead m hm hri hlt
      omega
  · rw [ht.messages] at hm
    rcases ht.mem hr' with hr' | rfl
    · exact hok.faithful.own r' hr' hrecv m hm hpa
    · have hiff : r'.First m ↔ h.taken.length ≤ m.start ∧ m.start < h.taken.length + n := by
        rw [Receipt.First, ht.start, ht.length]
      simp only [hiff]
      exact hown hrecv m hm hpa
  · rw [ht.messages]
    exact hok.faithful.errors

end Takes

namespace Ok

theorem length_buf (hok : h.Ok) : h.taken.length + h.queue.buf.length = h.stream.length := by
  rw [← hok.faithful.order, List.length_append]

theorem reach (hok : h.Ok) {m : Message τ} (hm : m ∈ h.messages) (hr : m.rights ≠ []) (hs : h.taken.length ≤ m.start) :
    wrap32 m.start ≤ h.queue.rxRead ↔ m.start ≤ h.taken.length := by
  rw [hok.noWrap m hm hr hs, hok.read]
  omega

theorem split (hok : h.Ok) :
    h.queue.reached = (h.messages.filter fun m => h.taken.length ≤ m.start ∧
      m.start ≤ h.taken.length).flatMap Message.entries ∧
    h.queue.passed.dropWhile (·.pos ≤ h.queue.rxRead) =
      (h.messages.filter (h.taken.length < ·.start)).flatMap Message.entries := by
  obtain ⟨htake, hdrop⟩ := entries_split h.queue.rxRead h.taken.length
    (h.messages.filter (h.taken.length ≤ ·.start)) (hok.starts.filter _) fun m hm hr => by
      obtain ⟨hmem, hs⟩ := List.mem_filter.mp hm
      exact hok.reach hmem hr (by simpa using hs)
  rw [Queue.reached, hok.passed]
  refine ⟨htake.trans ?_, hdrop.trans ?_⟩
  · rw [List.filter_filter]
    congr 1
    refine List.filter_congr fun m _ => ?_
    simp [and_comm]
  · rw [List.filter_filter]
    congr 1
    refine List.filter_congr fun m _ => ?_
    rw [Bool.eq_iff_iff]
    simp only [Bool.and_eq_true, decide_eq_true_eq]
    omega

/-! ### Sending -/

/-- A send. -/
theorem send (hok : h.Ok) {code : Int} {q : Queue (Nat × τ)} {data : List UInt8} {tokens : List (Nat × τ)}
    (hs : h.queue.Sends code q data tokens) (htags : ∀ token ∈ tokens, token.1 = h.messages.length) :
    (h.sent code q).Ok := by
  have hpayload : q.buf.drop h.queue.buf.length = data := by
    rw [hs.queue]
    exact List.drop_left
  have hrights : (q.passed.drop h.queue.passed.length).map (·.token.2) = tokens.map Prod.snd := by
    rw [hs.queue]
    simp only [List.drop_left, List.map_map]
    rfl
  generalize hm : (⟨h.messages.length, code, h.stream.length, data, tokens.map Prod.snd⟩ : Message τ) = m
  have hstep : h.sent code q = { h with queue := q, messages := h.messages ++ [m] } := by
    rw [sent, hpayload, hrights, hm]
  have hbytes : m.payload = data := by rw [← hm]
  have ha : Adds h (h.sent code q) m := by
    rw [hstep]
    exact ⟨rfl, rfl, by rw [hs.queue, hbytes]; rfl, by rw [← hm], by rw [← hm]⟩
  have hrights' : m.rights ≠ [] → data ≠ [] ∧ h.queue.rxRead ≤ h.queue.rxWritten := by
    intro hr
    refine hs.whole fun hnil => hr ?_
    rw [← hm, hnil]
    rfl
  have hlen : (h.sent code q).stream.length = h.stream.length + data.length := by
    rw [ha.stream, List.length_append, hbytes]
  have hcount : (h.sent code q).messages.length = h.messages.length + 1 := by
    rw [ha.messages, List.length_append, List.length_singleton]
  have hbuf := hok.length_buf
  have hfailed : m.code < 0 → m.payload = [] ∧ m.rights = [] := by
    intro hcode
    obtain ⟨hd, ht⟩ := hs.failed (by rwa [← hm] at hcode)
    rw [← hm]
    exact ⟨hd, by rw [ht]; rfl⟩
  refine ⟨ha.faithful hok hfailed, ?_, ?_, hs.queue ▸ hok.read, ?_, ?_, ?_, ?_, ?_, ?_, ?_, ?_, ?_⟩
  · rw [hstep, hs.queue]
    exact Nat.le_trans (Nat.le_of_eq List.length_append) hs.room
  · rw [hlen, hstep, hs.queue]
    show wrap32 (h.queue.rxWritten + data.length) = _
    rw [hok.written, wrap32, wrap32, Nat.mod_add_mod]
    rfl
  · intro m' hm'
    rw [hcount]
    rcases ha.mem hm' with hm' | rfl
    · exact Nat.lt_succ_of_lt (hok.numbers m' hm')
    · rw [ha.number]
      exact Nat.lt_succ_self _
  · rw [ha.messages, List.pairwise_append]
    refine ⟨hok.distinct, List.pairwise_singleton _ _, fun m₁ h₁ m₂ h₂ => ?_⟩
    rw [List.mem_singleton.mp h₂, ha.number]
    exact Nat.ne_of_lt (hok.numbers m₁ h₁)
  · rw [ha.messages, List.pairwise_append]
    refine ⟨hok.starts, List.pairwise_singleton _ _, fun m₁ h₁ m₂ h₂ => ?_⟩
    have := hok.within m₁ h₁
    rw [List.mem_singleton.mp h₂, ha.start]
    omega
  · intro m' hm'
    rw [hlen]
    rcases ha.mem hm' with hm' | rfl
    · have := hok.within m' hm'
      omega
    · rw [ha.start, hbytes]
  · intro m' hm' hr
    rcases ha.mem hm' with hm' | rfl
    · exact hok.payload m' hm' hr
    · rw [hbytes]
      exact (hrights' hr).1
  · have hself : [m].filter (h.taken.length ≤ ·.start) = [m] :=
      List.filter_cons_of_pos (by rw [ha.start]; exact decide_eq_true (by omega))
    have hentries : m.entries = tokens.map (⟨·, h.queue.rxWritten⟩) := by
      rw [← hm, Message.entries, List.map_map, hok.written]
      refine List.map_congr_left fun token ht => ?_
      have htag := htags token ht
      obtain ⟨number, right⟩ := token
      subst htag
      rfl
    rw [ha.taken, ha.messages, List.filter_append, hself, List.flatMap_append, ← hok.passed, List.flatMap_singleton,
      hentries, hstep, hs.queue]
  · intro m' hm' hr hle
    rw [ha.taken] at hle ⊢
    rcases ha.mem hm' with hm' | rfl
    · exact hok.noWrap m' hm' hr hle
    · have hread := (hrights' hr).2
      have hfits := hok.fits
      rw [hok.read, hok.written] at hread
      rw [ha.start]
      simp only [wrap32, SOCK_BUF_SIZE] at hread hfits ⊢
      omega
  · intro r hr right hright
    rw [hcount]
    exact Nat.lt_succ_of_lt (hok.tags r hr right hright)
  · intro r hr
    have := hok.past r hr
    rw [hlen]
    omega

/-! ### Receiving -/

/-- A receipt that says what was in front of the queue. -/
theorem receive (hok : h.Ok) {recvmsg peek : Bool} {q : Queue (Nat × τ)} {rights : List (Nat × τ)}
    (hn : n ≤ h.queue.buf.length)
    (hbuf : q.buf = if peek then h.queue.buf else h.queue.buf.drop n)
    (hwritten : q.rxWritten = h.queue.rxWritten)
    (hread : q.rxRead = if peek then h.queue.rxRead else wrap32 (h.queue.rxRead + n))
    (hahead : ∀ m ∈ h.messages, m.rights ≠ [] → h.taken.length < m.start → h.taken.length + n ≤ m.start)
    (hown : recvmsg = true → ∀ m ∈ h.messages, m.payload ≠ [] → rights.filter (fun right => right.1 = m.number) =
      if h.taken.length ≤ m.start ∧ m.start < h.taken.length + n then m.rights.map (m.number, ·) else [])
    (htags : ∀ right ∈ rights, right.1 < h.messages.length)
    (hpassed : q.passed = (h.messages.filter
      (h.taken.length + (if peek then 0 else n) ≤ ·.start)).flatMap Message.entries) :
    (h.received recvmsg peek (h.queue.buf.take n) rights q).Ok := by
  have ht : Takes h (h.received recvmsg peek (h.queue.buf.take n) rights q)
      ⟨recvmsg, peek, h.taken.length, h.queue.buf.take n, rights⟩ n := ⟨rfl, rfl, hbuf, rfl, rfl, hn⟩
  have htlen : (h.received recvmsg peek (h.queue.buf.take n) rights q).taken.length =
      h.taken.length + if peek then 0 else n := by
    rw [ht.taken, List.length_append]
    cases peek
    · exact congrArg _ ht.length
    · rfl
  have hall := hok.length_buf
  refine ⟨ht.faithful hok hahead hown, ?_, ?_, ?_, hok.numbers, hok.distinct, hok.starts, hok.within, hok.payload,
    ?_, ?_, ?_, ?_⟩
  · show q.buf.length ≤ _
    have hfits := hok.fits
    rw [hbuf]
    split
    · exact hfits
    · rw [List.length_drop]
      omega
  · show q.rxWritten = _
    rw [hwritten]
    exact hok.written
  · rw [htlen]
    show q.rxRead = _
    rw [hread, hok.read]
    cases peek
    · simp only [Bool.false_eq_true, if_false, wrap32, Nat.mod_add_mod]
    · rfl
  · rw [htlen]
    exact hpassed
  · intro m hm hri hle
    rw [htlen] at hle ⊢
    cases peek
    · simp only [Bool.false_eq_true, if_false] at hle ⊢
      have hw := hok.noWrap m hm hri (by omega)
      simp only [wrap32] at hw ⊢
      omega
    · exact hok.noWrap m hm hri hle
  · intro r' hr' right hright
    rcases ht.mem hr' with hr' | rfl
    · exact hok.tags r' hr' right hright
    · exact htags right hright
  · intro r' hr'
    show _ ≤ h.stream.length
    rcases ht.mem hr' with hr' | rfl
    · exact hok.past r' hr'
    · rw [ht.length]
      show h.taken.length + n ≤ _
      omega

theorem idle (hok : h.Ok) (recvmsg peek : Bool) : (h.received recvmsg peek [] [] h.queue).Ok := by
  have hread : wrap32 (h.queue.rxRead + 0) = h.queue.rxRead := by
    rw [hok.read, Nat.add_zero, wrap32, wrap32, Nat.mod_mod]
  refine hok.receive (n := 0) (Nat.zero_le _) ?_ rfl ?_ (fun m _ _ hlt => Nat.le_of_lt hlt) ?_ nofun ?_
  · cases peek <;> rfl
  · rw [hread, ite_self]
  · intro _ m _ _
    rw [if_neg (by omega)]
    rfl
  · rw [ite_self]
    exact hok.passed

theorem begins (hok : h.Ok) (hnone : h.queue.reached = []) {m : Message τ} (hm : m ∈ h.messages) (hr : m.rights ≠ []) :
    m.start ≠ h.taken.length := by
  intro hs
  rw [hok.split.1, List.flatMap_eq_nil_iff] at hnone
  have hnil := hnone m (List.mem_filter.mpr ⟨hm, by simp [hs]⟩)
  exact hr (List.map_eq_nil_iff.mp hnil)

theorem limited (hok : h.Ok) (hn : n ≤ h.queue.qLimit) {m : Message τ} (hm : m ∈ h.messages) (hr : m.rights ≠ [])
    (hlt : h.taken.length < m.start) : h.taken.length + n ≤ m.start := by
  obtain ⟨right, rights, hrights⟩ := List.exists_cons_of_ne_nil hr
  have hmem : (⟨(m.number, right), wrap32 m.start⟩ : Passed (Nat × τ)) ∈ h.queue.passed := by
    rw [hok.passed, List.mem_flatMap]
    refine ⟨m, List.mem_filter.mpr ⟨hm, by simp; omega⟩, ?_⟩
    rw [Message.entries, hrights]
    exact List.mem_cons_self
  have hpos := hok.noWrap m hm hr (by omega)
  rw [← hok.read] at hpos
  have hle := Queue.qLimit_le_pos hmem (by simp only; omega)
  simp only at hle
  omega

theorem look (hok : h.Ok) (hn : n ≤ h.queue.qLimit) (hnone : h.queue.reached = []) :
    (h.received true true (h.queue.buf.take n) [] h.queue).Ok := by
  refine hok.receive (Nat.le_trans hn h.queue.qLimit_le) rfl rfl rfl
      (fun m hm hr hlt => hok.limited hn hm hr hlt) ?_ nofun
    hok.passed
  intro _ m hm _
  rw [List.filter_nil]
  split
  · rename_i hfirst
    by_cases hr : m.rights = []
    · rw [hr, List.map_nil]
    · have hne := hok.begins hnone hm hr
      have := hok.limited hn hm hr (by omega)
      omega
  · rfl

theorem take (hok : h.Ok) (recvmsg : Bool) (hn : n ≤ h.queue.qLimit) (h0 : n = 0 → h.queue.reached = []) :
    (h.received recvmsg false (h.queue.buf.take n) (if recvmsg then h.queue.reached.map (·.token) else [])
      (Queue.advance { h.queue with passed := h.queue.passed.dropWhile (·.pos ≤ h.queue.rxRead) } n)).Ok := by
  obtain ⟨hreached, hrest⟩ := hok.split
  refine hok.receive (Nat.le_trans hn h.queue.qLimit_le) rfl rfl rfl
      (fun m hm hr hlt => hok.limited hn hm hr hlt) ?_ ?_ ?_
  · rintro rfl m hm _
    rw [if_pos rfl, hreached, entries_own h.messages hok.distinct hm]
    by_cases hr : m.rights = []
    · rw [hr, List.map_nil, ite_self, ite_self]
    · have hiff : h.taken.length ≤ m.start ∧ m.start ≤ h.taken.length ↔
          h.taken.length ≤ m.start ∧ m.start < h.taken.length + n := by
        by_cases hz : n = 0
        · have := hok.begins (h0 hz) hm hr
          omega
        · have := hok.limited hn hm hr
          omega
      simp only [decide_eq_true_eq, hiff]
  · intro right hright
    cases recvmsg with
    | false => cases hright
    | true =>
      rw [if_pos rfl, hreached] at hright
      obtain ⟨e, he, rfl⟩ := List.mem_map.mp hright
      obtain ⟨m, hm, he⟩ := List.mem_flatMap.mp he
      rw [(Message.mem_entries he).1]
      exact hok.numbers m (List.mem_filter.mp hm).1
  · show h.queue.passed.dropWhile (·.pos ≤ h.queue.rxRead) = _
    rw [hrest]
    refine entries_filter_congr h.messages fun m hm hr => decide_eq_decide.mpr ?_
    simp only [Bool.false_eq_true, if_false]
    by_cases hz : n = 0
    · have := hok.begins (h0 hz) hm hr
      omega
    · have := hok.limited hn hm hr
      omega

/-! ### The calls -/

theorem reached_nil (hok : h.Ok) (hempty : h.queue.buf = []) : h.queue.reached = [] := by
  rw [hok.split.1, List.flatMap_eq_nil_iff]
  intro m hm
  obtain ⟨hmem, hs⟩ := List.mem_filter.mp hm
  have hbuf := hok.length_buf
  rw [hempty, List.length_nil] at hbuf
  by_contra hne
  have hr : m.rights ≠ [] := fun hnil => hne (Message.entries_nil hnil)
  have hlen := List.length_pos_iff.mpr (hok.payload m hmem hr)
  have hle := hok.within m hmem
  simp only [decide_eq_true_eq] at hs
  omega

theorem ahead (hok : h.Ok) :
    Queue.Ahead { h.queue with passed := h.queue.passed.dropWhile (·.pos ≤ h.queue.rxRead) } := by
  intro p hp
  simp only [hok.split.2] at hp
  obtain ⟨m, hm, he⟩ := List.mem_flatMap.mp hp
  obtain ⟨hmem, hs⟩ := List.mem_filter.mp hm
  obtain ⟨-, hpos, hr⟩ := Message.mem_entries he
  simp only [decide_eq_true_eq] at hs
  have hw := hok.noWrap m hmem hr (Nat.le_of_lt hs)
  rw [← hok.read] at hw
  refine ⟨?_, ?_⟩
  · show h.queue.rxRead < p.pos
    omega
  · rw [hpos]
    exact Nat.mod_lt _ (by decide)

theorem filterMap_some (rights : List τ) : (rights.map some).filterMap id = rights := by
  rw [List.filterMap_map]
  exact List.filterMap_some

theorem recvmsg (hok : h.Ok) {room free : Nat} {lens : List Nat} {peek : Bool}
    (hwhole : h.queue.TakesWhole room free lens peek) : (h.step (.recvmsg room free lens peek)).Ok := by
  rw [step]
  -- neither room nor vectors
  by_cases hnone : (∀ len ∈ lens, len = 0) ∧ room < CMSGHDR_BYTES + 4
  · rw [Queue.doRecvmsg, Queue.recvControl, if_pos (Or.inr hnone.2)]
    simp only [Queue.recvVecs_zeros lens hnone.1]
    exact hok.idle true peek
  · have hcases : h.queue.reached = [] ∨
        (peek = false ∧ CMSGHDR_BYTES + 4 * h.queue.reached.length ≤ room ∧
          h.queue.reached.length ≤ free ∧ ∃ len ∈ lens, len ≠ 0) :=
      hwhole.rights.imp_right fun hor => hor.resolve_left hnone
    rw [Queue.doRecvmsg, Queue.recvControl_all (hcases.imp_right fun hc => ⟨hc.2.1, hc.2.2.1⟩)]
    cases peek with
    | true =>
      have hreached := hcases.resolve_right fun hc => nomatch hc.1
      have hsame : h.queue.passed.dropWhile (·.pos ≤ h.queue.rxRead) = h.queue.passed := by
        have hall : h.queue.reached ++ h.queue.passed.dropWhile (·.pos ≤ h.queue.rxRead) = h.queue.passed :=
          List.takeWhile_append_dropWhile
        rw [hreached] at hall
        exact hall
      obtain ⟨n, hn, heq⟩ := Queue.recvVecs_look (q := h.queue) lens [] (hwhole.look rfl)
      simp only [hreached, hsame, heq, List.map_nil, List.filterMap_nil, List.nil_append]
      exact hok.look hn hreached
    | false =>
      have hlimit := h.queue.qLimit_unreached
      obtain ⟨n, hn, heq, hzero⟩ := Queue.recvVecs_take lens [] hok.ahead
        (by rw [hok.read]; exact Nat.mod_lt _ (by decide)) (by rw [hlimit]; exact hwhole.vectors rfl)
      rw [hlimit] at hn
      simp only [heq, List.nil_append, filterMap_some]
      refine hok.take true hn fun h0 => hcases.elim id fun hc => ?_
      obtain ⟨len, hlen, hne⟩ := hc.2.2.2
      exact hok.reached_nil ((hzero h0).resolve_right fun hall => hne (hall len hlen))

theorem readCall (hok : h.Ok) (len : Nat) : (h.step (.read len)).Ok := by
  rw [step, Queue.socketRead]
  split
  · rename_i bytes q heq
    split at heq
    · cases heq
      exact hok.idle false false
    · rename_i hsome
      rw [not_or] at hsome
      have hlimit := h.queue.qLimit_unreached
      have hpos := Queue.qLimit_pos hsome.2
      rw [Queue.qGet, hlimit] at heq
      cases heq
      exact hok.take false (Nat.min_le_right len _) fun h0 => by omega

theorem sendmsg (hok : h.Ok) {rights : List (Option τ)} {vecs : List (List UInt8)}
    (hwhole : h.queue.SendsWhole rights vecs) : (h.step (.sendmsg rights vecs)).Ok := by
  have htagged : h.queue.SendsWhole (rights.map fun right => right.map (h.messages.length, ·)) vecs := by
    rcases hwhole with hnil | hfull | hhead | ⟨hall, hroom, hrest⟩
    · exact Or.inl (by rw [hnil]; rfl)
    · exact Or.inr (Or.inl hfull)
    · refine Or.inr (Or.inr (Or.inl ?_))
      rw [List.head?_map, hhead]
      rfl
    · refine Or.inr (Or.inr (Or.inr ⟨fun right hright => ?_, by rw [List.length_map]; exact hroom, hrest⟩))
      obtain ⟨right', hright', rfl⟩ := List.mem_map.mp hright
      exact fun hnone => hall right' hright' (Option.map_eq_none_iff.mp hnone)
  obtain ⟨data, tokens, hsends, hmem⟩ := Queue.doSendmsg_sends htagged hok.fits
    (by rw [hok.written]; exact Nat.mod_lt _ (by decide))
  refine hok.send hsends fun token ht => ?_
  obtain ⟨right, -, hright⟩ := List.mem_map.mp (hmem token ht)
  obtain ⟨x, -, rfl⟩ := Option.map_eq_some_iff.mp hright
  rfl

theorem write (hok : h.Ok) (data : List UInt8) : (h.step (.write data)).Ok := by
  obtain ⟨queued, hsends⟩ := Queue.write_sends data hok.fits
    (by rw [hok.written]; exact Nat.mod_lt _ (by decide))
  exact hok.send hsends nofun

theorem call (hok : h.Ok) (c : Call τ) (hc : h.Proper c) : (h.step c).Ok := by
  cases c with
  | sendmsg rights vecs => exact hok.sendmsg hc
  | write data => exact hok.write data
  | recvmsg room free lens peek => exact hok.recvmsg hc
  | read len => exact hok.readCall len

end Ok

end History

/-! ## Runs -/

/-- In every run of proper calls the descriptors arrive with their messages. -/
theorem rights_with_message {τ : Type} (calls : List (Call τ))
    (hg : (machine τ).Guarded History.Proper History.init calls) :
    ((machine τ).run History.init calls).Faithful :=
  ((machine τ).invariant_of_step (fun (h : History τ) c (hok : h.Ok) hc => hok.call c hc) calls History.init
    History.init_ok hg).faithful

/-- Two bytes, then one byte with a descriptor; and two receives with room for
more, the second with one descriptor free. -/
def exchange : List (Call Nat) :=
  [.sendmsg [] [[65, 66]], .sendmsg [some 7] [[67]], .recvmsg 256 0 [10] false,
    .recvmsg 256 1 [10] false]

theorem exchange_proper : (machine Nat).Guarded History.Proper History.init exchange := by
  refine ⟨Or.inl rfl, Or.inr (Or.inr (Or.inr ⟨by decide, by decide, ⟨[67], List.mem_singleton.mpr rfl, nofun⟩,
    by decide, by decide⟩)), ⟨Or.inl (by decide), fun _ _ k hk => ?_, nofun⟩,
    ⟨Or.inr (Or.inr ⟨rfl, by decide, by decide, ⟨10, List.mem_singleton.mpr rfl, by decide⟩⟩),
      fun _ hlt => ?_, nofun⟩, trivial⟩
  · have hlimit : ((machine Nat).run History.init (exchange.take 2)).queue.qLimit = 2 := by decide
    have htwo := hk.trans hlimit
    cases k with
    | zero => cases htwo
    | succ k => cases k <;> cases htwo
  · exact absurd hlt (by decide)

theorem rights_with_message_exchange : ((machine Nat).run History.init exchange).Faithful :=
  rights_with_message exchange exchange_proper

/-- A second descriptor that is not open; a vector that ends where a message
ends; a look before the receive; no free descriptor. -/
theorem rights_astray :
    ¬ ((machine Nat).run History.init [.sendmsg [some 7, none] [[65]]]).Faithful ∧
    ¬ ((machine Nat).run History.init
      [.sendmsg [] [[65, 66]], .sendmsg [some 7] [[67]], .recvmsg 256 4 [2, 1] false]).Faithful ∧
    ¬ ((machine Nat).run History.init
      [.sendmsg [some 7] [[67]], .recvmsg 256 4 [1] true, .recvmsg 256 4 [1] false]).Faithful ∧
    ¬ ((machine Nat).run History.init
      [.sendmsg [some 7] [[67]], .recvmsg 256 0 [1] false]).Faithful := by
  refine ⟨fun h => ?_, fun h => ?_, fun h => ?_, fun h => ?_⟩
  · have herror := h.errors ⟨0, -9, 0, [], [7]⟩ (by decide) (by decide)
    cases herror.2
  · refine h.apart ⟨true, false, 0, [65, 66, 67], []⟩ (by decide) ⟨1, 1, 2, [67], [7]⟩ (by decide) nofun nofun ?_
    decide
  · have hown := h.own ⟨true, false, 0, [67], []⟩ (by decide) rfl ⟨0, 1, 0, [67], [7]⟩ (by decide) nofun
    exact absurd hown (by decide)
  · have hown := h.own ⟨true, false, 0, [67], []⟩ (by decide) rfl ⟨0, 1, 0, [67], [7]⟩ (by decide) nofun
    exact absurd hown (by decide)

end NovarisOS.Socket.Rights
