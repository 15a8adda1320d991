/-
NovarisOS.Http.Splits — a download and the reads it is cut into.

Whatever arrives when, the header loop has read a beginning of the stream and
the body loop a beginning of what follows the break. So the results depend on
the reads in three places only: a read over the end of the header buffer
loses what does not fit; a status line without a blank is read on into the
body; and the body loop stops when the Content-Length is reached, with what
the last read brought besides.
-/
import NovarisOS.Http.Get

namespace NovarisOS.Http

/-! ## The break -/

/-- A CRLFCRLF at this place. -/
def BreakAt (l : Bytes) (i : Nat) : Prop := (l.drop i).take 4 = [CR, LF, CR, LF]

variable {l : Bytes}

theorem findBreak_eq_some : ∀ {i : Nat},
    findBreak l = some i ↔ BreakAt l i ∧ ∀ j < i, ¬ BreakAt l j := by
  induction l with
  | nil =>
    intro i
    simp [findBreak, BreakAt]
  | cons b rest ih =>
    intro i
    have hzero : (b = CR ∧ rest.take 3 = [LF, CR, LF]) ↔ BreakAt (b :: rest) 0 := by simp [BreakAt]
    rw [findBreak]
    split
    · rename_i hbreak
      have hbreak := hzero.mp hbreak
      constructor
      · intro h
        cases h
        exact ⟨hbreak, nofun⟩
      · rintro ⟨-, hfirst⟩
        cases i with
        | zero => rfl
        | succ i => exact absurd hbreak (hfirst 0 (Nat.succ_pos i))
    · rename_i hbreak
      have hbreak : ¬ BreakAt (b :: rest) 0 := fun h => hbreak (hzero.mpr h)
      cases i with
      | zero => simp [hbreak]
      | succ i =>
        rw [Option.map_eq_some_iff]
        constructor
        · rintro ⟨k, hk, hki⟩
          have hki : k = i := by omega
          subst hki
          obtain ⟨hat, hfirst⟩ := ih.mp hk
          refine ⟨hat, fun j hj => ?_⟩
          cases j with
          | zero => exact hbreak
          | succ j => exact hfirst j (by omega)
        · rintro ⟨hat, hfirst⟩
          exact ⟨i, ih.mpr ⟨hat, fun j hj => hfirst (j + 1) (by omega)⟩, rfl⟩

variable {i m bodyMax : Nat}

theorem BreakAt.le (h : BreakAt l i) : i + 4 ≤ l.length := by
  have hlen := congrArg List.length h
  rw [List.length_take, List.length_drop] at hlen
  simp only [List.length_cons, List.length_nil] at hlen
  omega

theorem BreakAt.cons (h : BreakAt l i) : ∃ tail, l.drop i = CR :: tail := by
  unfold BreakAt at h
  cases hdrop : l.drop i with
  | nil =>
    rw [hdrop] at h
    cases h
  | cons b tail =>
    rw [hdrop, List.take_succ_cons] at h
    exact ⟨tail, by rw [(List.cons.inj h).1]⟩

theorem breakAt_take (h : i + 4 ≤ m) : BreakAt (l.take m) i ↔ BreakAt l i := by
  unfold BreakAt
  rw [List.drop_take, List.take_take, Nat.min_eq_left (by omega)]

theorem findBreak_take (h : i + 4 ≤ m) : findBreak (l.take m) = some i ↔ findBreak l = some i := by
  rw [findBreak_eq_some, findBreak_eq_some, breakAt_take h]
  constructor
  · rintro ⟨hat, hfirst⟩
    exact ⟨hat, fun j hj hb => hfirst j hj ((breakAt_take (by omega)).mpr hb)⟩
  · rintro ⟨hat, hfirst⟩
    exact ⟨hat, fun j hj hb => hfirst j hj ((breakAt_take (by omega)).mp hb)⟩

/-! ## The status -/

theorem number_append (a b : Bytes) : ∀ value : Nat, number value (a ++ CR :: b) = number value a := by
  induction a with
  | nil =>
    intro value
    rfl
  | cons x a ih =>
    intro value
    rw [List.cons_append, number, number]
    split
    · exact ih _
    · rfl

theorem dropWhile_append_of_mem {p : UInt8 → Bool} {a : Bytes} (b : Bytes) (h : ∃ x ∈ a, p x = false) :
    (a ++ b).dropWhile p = a.dropWhile p ++ b := by
  induction a with
  | nil =>
    obtain ⟨x, hx, -⟩ := h
    cases hx
  | cons y a ih =>
    rw [List.cons_append, List.dropWhile_cons, List.dropWhile_cons]
    split
    · rename_i hy
      obtain ⟨x, hx, hp⟩ := h
      rcases List.mem_cons.mp hx with heq | hx
      · rw [heq, hy] at hp
        cases hp
      · exact ih ⟨x, hx, hp⟩
    · rfl

theorem dropWhile_append_cons {p : UInt8 → Bool} (a : Bytes) {x : UInt8} (b : Bytes) (hx : p x = false) :
    (a ++ x :: b).dropWhile p = a.dropWhile p ++ x :: b := by
  induction a with
  | nil => simp [hx]
  | cons y a ih =>
    rw [List.cons_append, List.dropWhile_cons, List.dropWhile_cons]
    split
    · exact ih
    · rfl

theorem statusOf_append {a : Bytes} (b : Bytes) (h : SPACE ∈ a.drop 5) : statusOf (a ++ CR :: b) = statusOf a := by
  have hlen : 5 ≤ a.length := by
    by_contra hlt
    rw [List.drop_of_length_le (by omega)] at h
    cases h
  unfold statusOf
  rw [List.drop_append_of_le_length hlen, dropWhile_append_of_mem _ ⟨SPACE, h, by simp⟩,
    dropWhile_append_cons _ _ (by decide), number_append]

/-! ## Splitting -/

/-- Where the body begins, in a beginning of the stream. -/
def start (l : Bytes) (m : Nat) : Nat := (splitHeaders (l.take m)).1

theorem start_eq (h : start l m ≠ 0) :
    ∃ i, findBreak l = some i ∧ start l m = i + 4 ∧ i + 4 ≤ m ∧ 12 ≤ m ∧ i + 4 ≤ l.length ∧
      splitHeaders (l.take m) = (i + 4, statusOf (l.take m), lengthOf (l.take i)) := by
  unfold start splitHeaders at h
  unfold start
  split at h
  · exact absurd rfl h
  · rename_i hhead
    split at h
    · rename_i i hi
      have hle := (findBreak_eq_some.mp hi).1.le
      rw [List.length_take] at hle
      have hm : 12 ≤ m := by
        rw [not_or, List.length_take] at hhead
        omega
      have hsplit : splitHeaders (l.take m) = (i + 4, statusOf (l.take m), lengthOf (l.take i)) := by
        unfold splitHeaders
        rw [if_neg hhead, hi]
        simp only
        rw [List.take_take, Nat.min_eq_left (by omega)]
      exact ⟨i, (findBreak_take (by omega)).mp hi, by rw [hsplit], by omega, hm, by omega, hsplit⟩
    · exact absurd rfl h

theorem start_mono {m' : Nat} (h : start l m ≠ 0) (hle : m ≤ m') : start l m' = start l m := by
  obtain ⟨i, hfind, hstart, him, hm, hil, -⟩ := start_eq h
  unfold start splitHeaders at h
  have hhead : ¬ ((l.take m').length < 12 ∨ (l.take m').take 5 ≠ magic) := by
    split at h
    · exact absurd rfl h
    · rename_i hhead
      rw [List.take_take, Nat.min_eq_left (by omega)] at hhead ⊢
      rw [not_or, List.length_take] at hhead ⊢
      exact ⟨by omega, hhead.2⟩
  rw [hstart]
  unfold start splitHeaders
  rw [if_neg hhead, (findBreak_take (by omega)).mpr hfind]

theorem lt_of_start_eq_zero {m' : Nat} (h : start l m = 0) (h' : start l m' ≠ 0) :
    m < max 12 (start l m') := by
  obtain ⟨i, hfind, hstart, him, hm, hil, -⟩ := start_eq h'
  by_contra hge
  unfold start splitHeaders at h h'
  have hhead : ¬ ((l.take m).length < 12 ∨ (l.take m).take 5 ≠ magic) := by
    split at h'
    · exact absurd rfl h'
    · rename_i hhead
      rw [List.take_take, Nat.min_eq_left (by omega)] at hhead ⊢
      rw [not_or, List.length_take] at hhead ⊢
      exact ⟨by omega, hhead.2⟩
  rw [if_neg hhead, (findBreak_take (by omega)).mpr hfind] at h
  cases h

/-! ## The loop over the headers -/

theorem recv_spec (w : Wire) (max : Nat) : ∃ n, n ≤ max ∧ n ≤ w.stream.length ∧
    w.recv max = (w.stream.take n, ⟨w.stream.drop n, (w.recv max).2.arrivals⟩) ∧
    (0 < max → w.stream ≠ [] → n + w.arrivals.length ≠ 0) ∧
    (w.recv max).2.arrivals.length ≤ w.arrivals.length ∧
    (w.arrivals ≠ [] → (w.recv max).2.arrivals.length < w.arrivals.length) := by
  unfold Wire.recv
  cases harr : w.arrivals with
  | nil =>
    refine ⟨min max w.stream.length, Nat.min_le_left _ _, Nat.min_le_right _ _, ?_, ?_, by simp, by simp⟩
    · simp only
      rcases Nat.le_total max w.stream.length with hle | hle
      · rw [Nat.min_eq_left hle]
      · rw [Nat.min_eq_right hle, List.take_of_length_le hle, List.drop_of_length_le hle, List.take_length,
          List.drop_length]
    · intro hmax hne
      have := List.length_pos_iff.mpr hne
      omega
  | cons n arrivals =>
    refine ⟨min (min n max) w.stream.length, by omega, by omega, ?_, by simp, by simp, by simp⟩
    simp only
    rcases Nat.le_total (min n max) w.stream.length with hle | hle
    · rw [Nat.min_eq_left hle]
    · rw [Nat.min_eq_right hle, List.take_of_length_le hle, List.drop_of_length_le hle, List.take_length,
        List.drop_length]

/-- How the loop over the headers of a stream can end. -/
inductive HeadSpec (l : Bytes) : HeadEnd → Prop where
  | found (h n : Nat) (w : Wire) : start l h = 0 → n ≤ CHUNK_BYTES → h + n ≤ l.length →
      start l (min (h + n) HEAD_BYTES) ≠ 0 → w.stream = l.drop (h + n) →
      HeadSpec l (.found (l.take (min (h + n) HEAD_BYTES)) (splitHeaders (l.take (min (h + n) HEAD_BYTES))).1
        (splitHeaders (l.take (min (h + n) HEAD_BYTES))).2.1
        (splitHeaders (l.take (min (h + n) HEAD_BYTES))).2.2 w)
  | tooLong : HEAD_BYTES ≤ l.length → start l HEAD_BYTES = 0 → HeadSpec l .tooLong
  | closed : l.length < HEAD_BYTES → start l l.length = 0 → HeadSpec l (.closed (splitHeaders l).2.1)

theorem headLoop_spec (l : Bytes) (turns : Nat) : ∀ (w : Wire) (h : Nat), w.stream = l.drop h → h ≤ l.length →
    h < HEAD_BYTES → start l h = 0 → w.arrivals.length + w.stream.length < turns →
    HeadSpec l (headLoop turns w (l.take h) (splitHeaders (l.take h)).2.1) := by
  induction turns with
  | zero => exact fun _ _ _ _ _ _ hturns => absurd hturns (Nat.not_lt_zero _)
  | succ turns ih =>
    intro w h hstream hle hlt hstart hturns
    obtain ⟨n, hmax, hn, hrecv, hwait, hfewer, hless⟩ := recv_spec w CHUNK_BYTES
    rw [headLoop, hrecv]
    rw [hstream, List.length_drop] at hn hturns
    have hhead : (l.take h).length = h := by rw [List.length_take]; omega
    simp only
    rw [hstream] at hwait ⊢
    split
    · -- bytes came: the beginning is longer, up to the end of the buffer
      rename_i hchunk
      have hpos : 0 < n := by
        by_contra hzero
        have hzero : n = 0 := by omega
        rw [hzero] at hchunk
        exact hchunk (List.take_zero)
      have hgrown : l.take h ++ ((l.drop h).take n).take (HEAD_BYTES - (l.take h).length) =
          l.take (min (h + n) HEAD_BYTES) := by
        rw [hhead, List.take_take, ← List.take_add]
        congr 1
        omega
      rw [hgrown]
      rcases hsplit : splitHeaders (l.take (min (h + n) HEAD_BYTES)) with ⟨first, status, length⟩
      have hfirst : start l (min (h + n) HEAD_BYTES) = first := by rw [start, hsplit]
      split
      · rename_i hfound
        have hspec := @HeadSpec.found l h n ⟨(l.drop h).drop n, (w.recv CHUNK_BYTES).2.arrivals⟩ hstart hmax
          (by omega) (by rw [hfirst]; exact hfound) (by rw [List.drop_drop])
        rw [hsplit] at hspec
        exact hspec
      · rename_i hnot
        have hnot : first = 0 := by simpa using hnot
        rw [hnot] at hfirst
        have hlen : (l.take (min (h + n) HEAD_BYTES)).length = min (h + n) HEAD_BYTES := by
          rw [List.length_take]
          omega
        rw [hlen]
        split
        · rename_i hfull
          refine .tooLong (by omega) ?_
          rw [show min (h + n) HEAD_BYTES = HEAD_BYTES by omega] at hfirst
          exact hfirst
        · rename_i hroom
          have hmin : min (h + n) HEAD_BYTES = h + n := by omega
          rw [hmin] at hfirst hsplit ⊢
          have hnext := ih ⟨(l.drop h).drop n, (w.recv CHUNK_BYTES).2.arrivals⟩ (h + n) (by rw [List.drop_drop])
            (by omega) (by omega) hfirst (by rw [List.drop_drop, List.length_drop]; simp only; omega)
          rw [hsplit] at hnext
          exact hnext
    · -- nothing came: the end, or not yet
      rename_i hchunk
      have hzero : n = 0 ∨ l.drop h = [] := by
        have hnil : (l.drop h).take n = [] := not_not.mp hchunk
        exact List.take_eq_nil_iff.mp hnil
      split
      · rename_i heof
        have heof : (l.drop h).drop n = [] := by simpa [Wire.eof] using heof
        have hend : h = l.length := by
          rcases hzero with hn0 | hnil
          · rw [hn0, List.drop_zero, List.drop_eq_nil_iff] at heof
            omega
          · rw [List.drop_eq_nil_iff] at hnil
            omega
        subst hend
        rw [List.take_length]
        exact .closed hlt hstart
      · rename_i heof
        have hne : l.drop h ≠ [] := by
          intro hnil
          rw [hnil, List.drop_nil] at heof
          exact heof rfl
        have hn0 : n = 0 := hzero.resolve_right hne
        have harr : w.arrivals ≠ [] := by
          intro hnil
          have := hwait (by decide) hne
          rw [hnil, hn0] at this
          exact this rfl
        have hless := hless harr
        rw [hn0, List.drop_zero]
        exact ih ⟨l.drop h, (w.recv CHUNK_BYTES).2.arrivals⟩ h rfl hle hlt hstart (by
          rw [List.length_drop]
          simp only
          omega)

/-! ## The loop over the body -/

theorem bodyLoop_full {length turns : Nat} {w : Wire} {body : Bytes} {truncated : Bool}
    (h : bodyMax ≤ body.length) : (bodyLoop length bodyMax turns w body truncated).1 = body := by
  cases turns with
  | zero => rfl
  | succ turns =>
    rw [bodyLoop, if_pos h]
    split <;> rfl

/-- What is stored is a beginning of what follows the break: all of it that
fits, or at least the Content-Length. -/
theorem bodyLoop_spec (length bodyMax : Nat) (rest : Bytes) (turns : Nat) :
    ∀ (w : Wire) (b : Nat) (truncated : Bool), w.stream = rest.drop b → b ≤ rest.length → b ≤ bodyMax →
    w.arrivals.length + w.stream.length < turns →
    ∃ b', b' ≤ rest.length ∧ b' ≤ bodyMax ∧
      (bodyLoop length bodyMax turns w (rest.take b) truncated).1 = rest.take b' ∧
      (b' = min bodyMax rest.length ∨ length ≠ 0 ∧ length ≤ b') := by
  induction turns with
  | zero => exact fun _ _ _ _ _ _ hturns => absurd hturns (Nat.not_lt_zero _)
  | succ turns ih =>
    intro w b truncated hstream hle hmax hturns
    have hbody : (rest.take b).length = b := by rw [List.length_take]; omega
    rw [bodyLoop, hbody]
    split
    · rename_i hlength
      exact ⟨b, hle, hmax, rfl, Or.inr hlength⟩
    · split
      · rename_i hfull
        exact ⟨b, hle, hmax, rfl, Or.inl (by omega)⟩
      · rename_i hroom
        obtain ⟨n, hnmax, hn, hrecv, hwait, hfewer, hless⟩ := recv_spec w (bodyMax - b)
        rw [hrecv]
        rw [hstream, List.length_drop] at hn hturns
        simp only
        rw [hstream] at hwait ⊢
        split
        · rename_i hpiece
          have hpos : 0 < n := by
            by_contra hzero
            have hzero : n = 0 := by omega
            rw [hzero] at hpiece
            exact hpiece List.take_zero
          rw [← List.take_add]
          have hlen : (rest.take (b + n)).length = b + n := by rw [List.length_take]; omega
          rw [hlen]
          split
          · rename_i hfull
            exact ⟨b + n, by omega, by omega, rfl, Or.inl (by omega)⟩
          · exact ih ⟨(rest.drop b).drop n, (w.recv (bodyMax - b)).2.arrivals⟩ (b + n) truncated
              (by rw [List.drop_drop]) (by omega) (by omega) (by
                rw [List.drop_drop, List.length_drop]
                simp only
                omega)
        · rename_i hpiece
          have hzero : n = 0 ∨ rest.drop b = [] := List.take_eq_nil_iff.mp (not_not.mp hpiece)
          split
          · rename_i heof
            have heof : (rest.drop b).drop n = [] := by simpa [Wire.eof] using heof
            have hend : rest.length ≤ b := by
              rcases hzero with hn0 | hnil
              · rwa [hn0, List.drop_zero, List.drop_eq_nil_iff] at heof
              · rwa [List.drop_eq_nil_iff] at hnil
            exact ⟨b, hle, hmax, rfl, Or.inl (by omega)⟩
          · rename_i heof
            have hne : rest.drop b ≠ [] := by
              intro hnil
              rw [hnil, List.drop_nil] at heof
              exact heof rfl
            have hn0 : n = 0 := hzero.resolve_right hne
            have harr : w.arrivals ≠ [] := by
              intro hnil
              have := hwait (by omega) hne
              rw [hnil, hn0] at this
              exact this rfl
            have hless := hless harr
            rw [hn0, List.drop_zero]
            exact ih ⟨rest.drop b, (w.recv (bodyMax - b)).2.arrivals⟩ b truncated rfl hle hmax (by
              rw [List.length_drop]
              simp only
              omega)

/-! ## Any split -/

/-- No read can run over the end of the header buffer that has the break. -/
def HeadFits (l : Bytes) : Prop :=
  ∀ i, findBreak l = some i → i + 4 + (CHUNK_BYTES - 1) ≤ HEAD_BYTES ∨ l.length ≤ HEAD_BYTES ∨ HEAD_BYTES < i + 4

/-- The header has a blank for the status to stand behind. -/
def HasBlank (l : Bytes) : Prop := ∀ i, findBreak l = some i → SPACE ∈ (l.take i).drop 5

/-- What a download gives: the code, the status and the length, and the body
the stream calls for. -/
def wanted (l : Bytes) (bodyMax : Nat) : Int × Nat × Nat × Bytes :=
  if start l HEAD_BYTES ≠ 0 then
    let i := start l HEAD_BYTES - 4
    (HTTP_OK, statusOf (l.take i), lengthOf (l.take i), (l.drop (i + 4)).take bodyMax)
  else if HEAD_BYTES ≤ l.length then (HTTP_ERR_HEADERS, 0, 0, [])
  else (if (splitHeaders l).2.1 ≠ 0 then HTTP_ERR_HEADERS else HTTP_ERR_TIMEOUT, 0, 0, [])

theorem wanted_ok (h : (wanted l bodyMax).1 = HTTP_OK) : ∃ i, findBreak l = some i ∧
    wanted l bodyMax = (HTTP_OK, statusOf (l.take i), lengthOf (l.take i), (l.drop (i + 4)).take bodyMax) := by
  unfold wanted at h ⊢
  split at h
  · rename_i hstart
    obtain ⟨i, hfind, hi, -⟩ := start_eq hstart
    refine ⟨i, hfind, ?_⟩
    rw [if_pos hstart, hi, Nat.add_sub_cancel]
  · split at h
    · cases h
    · split at h <;> cases h

theorem wanted_error (h : (wanted l bodyMax).1 ≠ HTTP_OK) : (wanted l bodyMax).2.2.2 = [] := by
  unfold wanted at h ⊢
  split
  · rename_i hstart
    rw [if_pos hstart] at h
    exact absurd rfl h
  · split <;> rfl

/-- What a reply agrees with: everything but, when a Content-Length ended it,
the end of the body. -/
structure Agrees (l : Bytes) (bodyMax : Nat) (r : Reply) : Prop where
  code : r.code = (wanted l bodyMax).1
  status : r.status = (wanted l bodyMax).2.1
  contentLength : r.contentLength = (wanted l bodyMax).2.2.1
  body : ∃ b, r.body = (wanted l bodyMax).2.2.2.take b ∧
    (r.body = (wanted l bodyMax).2.2.2 ∨ r.contentLength ≠ 0 ∧ r.contentLength ≤ r.body.length)

theorem httpGet_agrees (l : Bytes) (bodyMax : Nat) (hfits : HeadFits l) (hblank : HasBlank l)
    (arrivals : List Nat) : Agrees l bodyMax (httpGet l bodyMax arrivals) := by
  have hspec := headLoop_spec l (Wire.turns ⟨l, arrivals⟩) ⟨l, arrivals⟩ 0 rfl (Nat.zero_le _) (by decide) rfl
    (Nat.lt_succ_self _)
  have hempty : (splitHeaders (l.take 0)).2.1 = 0 := rfl
  rw [hempty, List.take_zero] at hspec
  unfold httpGet
  generalize headLoop (Wire.turns ⟨l, arrivals⟩) ⟨l, arrivals⟩ [] 0 = r at hspec
  cases hspec with
  | tooLong hlen hstart =>
    have hwanted : wanted l bodyMax = (HTTP_ERR_HEADERS, 0, 0, []) := by
      unfold wanted
      rw [if_neg (by simp [hstart]), if_pos hlen]
    exact ⟨by rw [hwanted]; rfl, by rw [hwanted]; rfl, by rw [hwanted]; rfl, 0, by rw [hwanted]; rfl,
      Or.inl (by rw [hwanted]; rfl)⟩
  | closed hlen hstart =>
    have hnone : start l HEAD_BYTES = 0 := by
      unfold start at hstart ⊢
      rwa [List.take_of_length_le (Nat.le_of_lt hlen), ← @List.take_length _ l]
    have hwanted : wanted l bodyMax =
        (if (splitHeaders l).2.1 ≠ 0 then HTTP_ERR_HEADERS else HTTP_ERR_TIMEOUT, 0, 0, []) := by
      unfold wanted
      rw [if_neg (by simp [hnone]), if_neg (by omega)]
    exact ⟨by rw [hwanted]; rfl, by rw [hwanted]; rfl, by rw [hwanted]; rfl, 0, by rw [hwanted]; rfl,
      Or.inl (by rw [hwanted]; rfl)⟩
  | found h n w hstart hn hle hfound hstream =>
    obtain ⟨i, hfind, hi, him, hm, hil, hsplit⟩ := start_eq hfound
    -- the read that brought the break did not run over the end of the buffer
    have hbefore := lt_of_start_eq_zero hstart hfound
    have hread : min (h + n) HEAD_BYTES = h + n := by
      have hfits := hfits i hfind
      simp only [HEAD_BYTES, CHUNK_BYTES] at hfits hn him ⊢
      omega
    have hwhole : start l HEAD_BYTES = i + 4 := (start_mono hfound (Nat.min_le_right _ _)).trans hi
    rw [hread] at hsplit him ⊢
    -- the status is the header's
    have hstatus : statusOf (l.take (h + n)) = statusOf (l.take i) := by
      obtain ⟨tail, htail⟩ := (findBreak_eq_some.mp hfind).1.cons
      have hsplit : l.take (h + n) = l.take i ++ CR :: tail.take (h + n - i - 1) := by
        have hadd : h + n = i + (h + n - i - 1 + 1) := by omega
        rw [hadd, List.take_add, htail, List.take_succ_cons]
        congr 3
        omega
      rw [hsplit]
      exact statusOf_append _ (hblank i hfind)
    have hwanted : wanted l bodyMax =
        (HTTP_OK, statusOf (l.take i), lengthOf (l.take i), (l.drop (i + 4)).take bodyMax) := by
      unfold wanted
      rw [if_pos (by rw [hwhole]; omega), hwhole, Nat.add_sub_cancel]
    have hbody : ∃ b', b' ≤ (l.drop (i + 4)).length ∧ b' ≤ bodyMax ∧
        (afterHeaders bodyMax (.found (l.take (h + n)) (splitHeaders (l.take (h + n))).1
          (splitHeaders (l.take (h + n))).2.1 (splitHeaders (l.take (h + n))).2.2 w)).body =
            (l.drop (i + 4)).take b' ∧
        (b' = min bodyMax (l.drop (i + 4)).length ∨ lengthOf (l.take i) ≠ 0 ∧ lengthOf (l.take i) ≤ b') := by
      have hextra : (l.take (h + n)).drop (i + 4) = (l.drop (i + 4)).take (h + n - (i + 4)) := List.drop_take
      rw [hsplit]
      show ∃ b', _ ∧ _ ∧ (bodyLoop (lengthOf (l.take i)) bodyMax w.turns w
        (((l.take (h + n)).drop (i + 4)).take bodyMax) _).1 = _ ∧ _
      rw [hextra, List.take_take]
      rcases Nat.lt_or_ge (h + n - (i + 4)) bodyMax with hroom | hfull
      · rw [Nat.min_eq_right (by omega)]
        refine bodyLoop_spec _ _ _ w.turns w (h + n - (i + 4)) _ ?_ ?_ (by omega) (Nat.lt_succ_self _)
        · rw [hstream, List.drop_drop]
          congr 1
          omega
        · rw [List.length_drop]
          omega
      · rw [Nat.min_eq_left (by omega)]
        have hlen : ((l.drop (i + 4)).take bodyMax).length = bodyMax := by
          rw [List.length_take, List.length_drop]
          omega
        refine ⟨bodyMax, by rw [List.length_drop]; omega, Nat.le_refl _, bodyLoop_full (by omega), Or.inl ?_⟩
        rw [List.length_drop]
        omega
    obtain ⟨b', hb, hbmax, hbody, hend⟩ := hbody
    refine ⟨by rw [hwanted]; rfl, ?_, ?_, b', ?_, ?_⟩
    · rw [hwanted]
      show (splitHeaders (l.take (h + n))).2.1 = statusOf (l.take i)
      rw [hsplit]
      exact hstatus
    · rw [hwanted]
      show (splitHeaders (l.take (h + n))).2.2 = lengthOf (l.take i)
      rw [hsplit]
    · rw [hbody, hwanted]
      show _ = ((l.drop (i + 4)).take bodyMax).take b'
      rw [List.take_take, Nat.min_eq_left hbmax]
    · rw [hbody, hwanted]
      rcases hend with hall | hlength
      · left
        show (l.drop (i + 4)).take b' = (l.drop (i + 4)).take bodyMax
        rw [hall]
        rcases Nat.le_total bodyMax (l.drop (i + 4)).length with hle' | hle'
        · rw [Nat.min_eq_left hle']
        · rw [Nat.min_eq_right hle', List.take_length, List.take_of_length_le hle']
      · right
        show (splitHeaders (l.take (h + n))).2.2 ≠ 0 ∧ (splitHeaders (l.take (h + n))).2.2 ≤ _
        rw [hsplit, List.length_take, Nat.min_eq_left hb]
        exact hlength

/-- **A download does not depend on the reads**, but for the end of a body
that a Content-Length cuts short. -/
theorem download_any_split (l : Bytes) (bodyMax : Nat) (hfits : HeadFits l) (hblank : HasBlank l)
    (arrivals arrivals' : List Nat) :
    let r := httpGet l bodyMax arrivals
    let r' := httpGet l bodyMax arrivals'
    r.code = r'.code ∧ r.status = r'.status ∧ r.contentLength = r'.contentLength ∧
    (r.code = HTTP_OK → ∃ i, findBreak l = some i ∧ r.contentLength = lengthOf (l.take i) ∧
      r.body <+: (l.drop (i + 4)).take bodyMax ∧
      (r.body = (l.drop (i + 4)).take bodyMax ∨ r.contentLength ≠ 0 ∧ r.contentLength ≤ r.body.length) ∧
      (lengthOf (l.take i) = 0 ∨ ((l.drop (i + 4)).take bodyMax).length ≤ lengthOf (l.take i) →
        r.body = r'.body ∧ r.body = (l.drop (i + 4)).take bodyMax)) ∧
    (r.code ≠ HTTP_OK → r.body = [] ∧ r'.body = []) := by
  intro r r'
  have hr : Agrees l bodyMax r := httpGet_agrees l bodyMax hfits hblank arrivals
  have hr' : Agrees l bodyMax r' := httpGet_agrees l bodyMax hfits hblank arrivals'
  obtain ⟨b, hb, hend⟩ := hr.body
  obtain ⟨b', hb', hend'⟩ := hr'.body
  refine ⟨hr.code.trans hr'.code.symm, hr.status.trans hr'.status.symm,
    hr.contentLength.trans hr'.contentLength.symm, fun hok => ?_, fun hno => ?_⟩
  · obtain ⟨i, hfind, hwanted⟩ := wanted_ok (hr.code.symm.trans hok)
    have hlength := hr.contentLength
    have hlength' := hr'.contentLength
    rw [hwanted] at hb hend hb' hend' hlength hlength'
    refine ⟨i, hfind, hlength, ?_, hend, fun hcut => ?_⟩
    · rw [hb]
      exact List.take_prefix _ _
    · -- with that length, a body that it ended is whole all the same
      have hwhole : ∀ {body : Bytes} {b : Nat}, body = ((l.drop (i + 4)).take bodyMax).take b →
          (body = (l.drop (i + 4)).take bodyMax ∨ lengthOf (l.take i) ≠ 0 ∧ lengthOf (l.take i) ≤ body.length) →
          body = (l.drop (i + 4)).take bodyMax := by
        intro body b hbody hcase
        rcases hcase with hall | ⟨hne, hle⟩
        · exact hall
        · rw [hbody] at hle ⊢
          rw [List.length_take] at hle
          exact List.take_of_length_le (by omega)
      rw [hlength] at hend
      rw [hlength'] at hend'
      exact ⟨(hwhole hb hend).trans (hwhole hb' hend').symm, hwhole hb hend⟩
  · have hnil := wanted_error fun h => hno (hr.code.trans h)
    rw [hnil] at hb hb'
    exact ⟨hb.trans List.take_nil, hb'.trans List.take_nil⟩

/-- "HTTP/1.0 200" with a Content-Length of 1, and a body of two bytes. -/
def shortLength : Bytes :=
  [72, 84, 84, 80, 47, 49, 46, 48, 32, 50, 48, 48, 13, 10] ++
    [67, 111, 110, 116, 101, 110, 116, 45, 76, 101, 110, 103, 116, 104, 58, 32, 49] ++ [13, 10, 13, 10, 65, 66]

theorem download_any_split_short :
    (httpGet shortLength 100 [3, 0, 20]).code = HTTP_OK ∧ (httpGet shortLength 100 [3, 0, 20]).status = 200 ∧
      (httpGet shortLength 100 []).status = 200 := by
  have hfits : HeadFits shortLength := fun i _ => Or.inr (Or.inl (by decide))
  have hblank : HasBlank shortLength := by
    intro i hi
    have hbreak : findBreak shortLength = some 31 := by decide
    cases hi.symm.trans hbreak
    decide
  have hsame := download_any_split shortLength 100 hfits hblank [3, 0, 20] []
  have hstatus : (httpGet shortLength 100 [3, 0, 20]).status = 200 := by decide
  exact ⟨by decide, hstatus, hsame.2.1.symm.trans hstatus⟩

/-- With one read the body has both bytes, with a read that ends behind the
first it has one. -/
theorem download_depends_on_split :
    (httpGet shortLength 100 []).body = [65, 66] ∧ (httpGet shortLength 100 [36]).body = [65] ∧
      (httpGet shortLength 100 [36]).code = HTTP_OK := by
  refine ⟨?_, ?_, ?_⟩
  · decide
  · decide
  · decide

end NovarisOS.Http
