/-
NovarisOS.Pipe64.Vectored — `readv` and `recvmsg` on a pipe, and which bytes
they lose.

A read that finds nothing waits by starting its system call again, from the
first buffer: what the buffers before got in this attempt is then out of the
pipe, is overwritten, and is not counted. It happens where the bytes that are
there fill some buffers exactly and there is one more (`Stuck`).
-/
import NovarisOS.Pipe64.PipeTheorems

namespace NovarisOS.Pipe64.Vectored

/-- Which of the two loops over the buffers. -/
inductive Call where
  | readv
  | recvmsg
  deriving DecidableEq

/-- What an attempt finds apart from the pipe: the descriptor still reads from
it, it is nonblocking, a signal interrupts the wait, and no other task can
run. -/
structure Moment where
  rx : Bool
  nonblock : Bool
  signal : Bool
  alone : Bool

/-- `do_pipe_read`: what it returns (`none` if it waits), the bytes it copied
out, and the pipe. -/
def doPipeRead (e : Moment) (q : Pipe) (n : Nat) : Option Int × List UInt8 × Pipe :=
  if !e.rx then (some (-9), [], q)
  else
    let ((r, out), q) := q.read n
    if r ≠ -11 then (some r, out, q)
    else if e.nonblock then (some (-11), [], q)
    else if e.signal then (some (-4), [], q)
    else if e.alone then (some (-11), [], q)
    else (none, [], q)

/-- One run through the buffers: what the call returns (`none` if it is to be
started again), what the buffers hold, and what was taken out of the pipe. -/
structure Attempt where
  answer : Option Int
  bufs : List (List UInt8)
  taken : List UInt8
  pipe : Pipe

/-- What an error comes to after `total` bytes. -/
def Call.failed (k : Call) (total r : Int) : Int :=
  match k with
  | .readv => if total ≠ 0 then total else r
  | .recvmsg => r

/-- The loop over the buffers. -/
def readBufs (k : Call) (e : Moment) : List (List UInt8) → Int → Pipe → Attempt
  | [], total, q => ⟨some total, [], [], q⟩
  | b :: bs, total, q =>
    if b.length = 0 then
      let a := readBufs k e bs total q
      { a with bufs := b :: a.bufs }
    else
      let (r, out, q) := doPipeRead e q b.length
      let filled := out ++ b.drop out.length
      match r with
      | none => ⟨none, filled :: bs, out, q⟩
      | some r =>
        if r < 0 then ⟨some (k.failed total r), filled :: bs, out, q⟩
        else if r = 0 ∨ r < b.length then ⟨some (total + r), filled :: bs, out, q⟩
        else
          let a := readBufs k e bs (total + r) q
          { a with bufs := filled :: a.bufs, taken := out ++ a.taken }

/-- One attempt of the call; `recvmsg` looks at the descriptor first. -/
def attempt (k : Call) (e : Moment) (bufs : List (List UInt8)) (q : Pipe) : Attempt :=
  if k = .recvmsg ∧ e.rx = false then ⟨some (-9), bufs, [], q⟩ else readBufs k e bufs 0 q

/-- What happens before an attempt, and what it finds. -/
structure Turn where
  others : List Op
  moment : Moment

/-- A call, and all it has taken out of the pipe. -/
structure Doing where
  answer : Option Int
  bufs : List (List UInt8)
  taken : List UInt8
  pipe : Pipe

/-- The pipe after what others have done. -/
def after (q : Pipe) (ops : List Op) : Pipe := (sessions.run ⟨q, [], []⟩ ops).pipe

/-- The next attempt, if there has been no answer. -/
def turn (k : Call) (s : Doing) (t : Turn) : Doing :=
  match s.answer with
  | some _ => s
  | none =>
    let a := attempt k t.moment s.bufs (after s.pipe t.others)
    ⟨a.answer, a.bufs, s.taken ++ a.taken, a.pipe⟩

/-- The machine whose inputs are the turns of one call. -/
def turns (k : Call) : Machine Doing Turn Unit := ⟨fun s t => (turn k s t, ())⟩

/-- A call begins. -/
def begin (q : Pipe) (bufs : List (List UInt8)) : Doing := ⟨none, bufs, [], q⟩

/-! ## What is asked for -/

/-- What was taken is what the buffers hold first, and is counted; a call that
fails has taken nothing. -/
def Doing.Lossless (s : Doing) : Prop :=
  ∀ r, s.answer = some r →
    if r < 0 then s.taken = [] else (s.taken.length : Int) = r ∧ s.taken = s.bufs.flatten.take r.toNat

/-- `n` bytes fill some of the buffers exactly, and there is one more. -/
def Stuck (bufs : List (List UInt8)) (n : Nat) : Prop :=
  ∃ i, (bufs.take i).flatten.length = n ∧ ∃ b ∈ bufs.drop i, b ≠ []

/-- The call waits where it finds nothing. -/
def Moment.waits (e : Moment) : Bool := !e.nonblock && !e.signal && !e.alone

/-- The attempt loses bytes: they fill some buffers exactly, there is one more,
and a writer, so that the end of the loop is an error or a wait. -/
def Loses (k : Call) (e : Moment) (bufs : List (List UInt8)) (q : Pipe) : Prop :=
  e.rx = true ∧ q.used = true ∧ q.writers ≠ 0 ∧ 0 < q.len ∧ Stuck bufs q.len ∧ (k = .recvmsg ∨ e.waits = true)

/-- As long as there is no answer, no attempt loses bytes. -/
def NoLoss (k : Call) (s : Doing) (t : Turn) : Prop :=
  s.answer = none → ¬ Loses k t.moment s.bufs (after s.pipe t.others)

/-! ## Where the bytes end -/

section Ends

variable {b : List UInt8} {bs bufs : List (List UInt8)} {n : Nat}

theorem stuck_nil : ¬ Stuck [] n := by
  rintro ⟨i, -, b, hb, -⟩
  simp at hb

theorem stuck_cons_empty (hb : b = []) : Stuck (b :: bs) n ↔ Stuck bs n := by
  subst hb
  constructor
  · rintro ⟨i, hlen, c, hc, hne⟩
    cases i with
    | zero =>
      have hcs : c ∈ bs := by
        rcases List.mem_cons.1 hc with rfl | hc
        · exact absurd rfl hne
        · exact hc
      exact ⟨0, by simpa using hlen, c, hcs, hne⟩
    | succ i => exact ⟨i, by simpa using hlen, c, by simpa using hc, hne⟩
  · rintro ⟨i, hlen, c, hc, hne⟩
    exact ⟨i + 1, by simpa using hlen, c, by simpa using hc, hne⟩

theorem stuck_zero (hb : b ≠ []) : Stuck (b :: bs) 0 := ⟨0, rfl, b, by simp, hb⟩

theorem stuck_cons (hn : 0 < n) : Stuck (b :: bs) n ↔ b.length ≤ n ∧ Stuck bs (n - b.length) := by
  constructor
  · rintro ⟨i, hlen, c, hc, hne⟩
    cases i with
    | zero =>
      simp only [List.take_zero, List.flatten_nil, List.length_nil] at hlen
      omega
    | succ i =>
      simp only [List.take_succ_cons, List.flatten_cons, List.length_append] at hlen
      exact ⟨by omega, i, by omega, c, by simpa using hc, hne⟩
  · rintro ⟨hle, i, hlen, c, hc, hne⟩
    refine ⟨i + 1, ?_, c, by simpa using hc, hne⟩
    simp only [List.take_succ_cons, List.flatten_cons, List.length_append, hlen]
    omega

theorem Stuck.le (h : Stuck bufs n) : n ≤ bufs.flatten.length := by
  obtain ⟨i, rfl, -⟩ := h
  have hsplit : bufs.flatten = (bufs.take i).flatten ++ (bufs.drop i).flatten := by
    rw [← List.flatten_append, List.take_append_drop]
  rw [hsplit, List.length_append]
  exact Nat.le_add_right _ _

end Ends

/-! ## One attempt -/

section Attempts

variable {k : Call} {e : Moment} {q : Pipe} {n : Nat}

theorem read_writers (q : Pipe) (n : Nat) : (q.read n).2.writers = q.writers := by
  unfold Pipe.read
  repeat' split
  all_goals rfl

/-- What the loop returns where it finds nothing after `total` bytes, with a
buffer still to be filled. -/
def stuckAnswer (k : Call) (e : Moment) (q : Pipe) (total : Int) : Option Int :=
  if q.writers = 0 then some total
  else if e.nonblock then some (k.failed total (-11))
  else if e.signal then some (k.failed total (-4))
  else if e.alone then some (k.failed total (-11))
  else none

/-- What an attempt does with a pipe that can be read. -/
structure Spec (k : Call) (e : Moment) (bufs : List (List UInt8)) (total : Int) (q : Pipe) (a : Attempt) : Prop where
  length : a.taken.length = min bufs.flatten.length q.len
  stored : a.bufs.flatten.take a.taken.length = a.taken
  stuck : Stuck bufs q.len → a.answer = stuckAnswer k e q (total + q.len)
  free : ¬ Stuck bufs q.len → a.answer = some (total + a.taken.length)
  pipe : a.pipe.Wf

theorem ring_length {q : Pipe} : q.ring.length = q.len := RingBuffer.length_contents _ _ _ _

theorem readBufs_spec (hrx : e.rx = true) : ∀ (bufs : List (List UInt8)) (total : Int) (q : Pipe),
    q.used = true → q.Wf → Spec k e bufs total q (readBufs k e bufs total q)
  | [], total, q, _, hq => ⟨by simp [readBufs], rfl, fun h => absurd h stuck_nil, fun _ => by simp [readBufs], hq⟩
  | b :: bs, total, q, hused, hq => by
    rw [readBufs]
    split
    · rename_i hb
      have hb : b = [] := List.length_eq_zero_iff.1 hb
      obtain ⟨h₁, h₂, h₃, h₄, h₅⟩ := readBufs_spec hrx bs total q hused hq
      exact ⟨by simpa [hb] using h₁, by simpa [hb] using h₂, fun h => h₃ ((stuck_cons_empty hb).1 h),
        fun h => h₄ fun hs => h ((stuck_cons_empty hb).2 hs), h₅⟩
    · rename_i hb
      have hne : b ≠ [] := fun h => hb (by simp [h])
      have hcase := Pipe.read_cases hq b.length
      have hw := read_writers q b.length
      rw [doPipeRead, if_neg (by simp [hrx])]
      generalize q.read b.length = r at hcase hw
      cases hcase with
      | gone h => simp [hused] at h
      | ended _ hlen hwriters =>
        refine ⟨by simp [hlen], by simp, fun _ => ?_, fun h => absurd (hlen ▸ stuck_zero hne) h, hq⟩
        simp [stuckAnswer, hwriters, hlen]
      | empty _ hlen hwriters =>
        have hstuck : Stuck (b :: bs) q.len := hlen ▸ stuck_zero hne
        by_cases h₁ : e.nonblock = true
        · simp only [h₁, if_true]
          exact ⟨by simp [hlen], by simp, fun _ => by simp [stuckAnswer, hwriters, hlen, h₁],
              fun h => absurd hstuck h, hq⟩
        by_cases h₂ : e.signal = true
        · simp only [h₁, h₂, if_true]
          exact ⟨by simp [hlen], by simp, fun _ => by simp [stuckAnswer, hwriters, hlen, h₁, h₂],
              fun h => absurd hstuck h, hq⟩
        by_cases h₃ : e.alone = true
        · simp only [h₁, h₂, h₃, if_true]
          exact ⟨by simp [hlen], by simp, fun _ => by simp [stuckAnswer, hwriters, hlen, h₁, h₂, h₃],
            fun h => absurd hstuck h, hq⟩
        · simp only [h₁, h₂, h₃]
          exact ⟨by simp [hlen], by simp, fun _ => by simp [stuckAnswer, hwriters, h₁, h₂, h₃],
            fun h => absurd hstuck h, hq⟩
      | took out q' _ hlen hout hring hq' hused' =>
        have hrings := congrArg List.length hring
        rw [List.length_append, ring_length, ring_length] at hrings
        have hans : ((out.length : Int) ≠ -11) := by omega
        simp only [if_pos hans]
        rw [if_neg (by omega)]
        split
        · rename_i hshort
          refine ⟨?_, by simp, fun h => ?_, fun _ => rfl, hq'⟩
          · simp only [List.flatten_cons, List.length_append]
            omega
          · have hle := ((stuck_cons hlen).1 h).1
            omega
        · rename_i hfull
          have hlen' : out.length = b.length := by omega
          have hdrop : out ++ b.drop out.length = out := by simp [hlen']
          obtain ⟨h₁, h₂, h₃, h₄, h₅⟩ := readBufs_spec hrx bs (total + out.length) q' hused' hq'
          rw [hdrop]
          refine ⟨?_, ?_, fun h => ?_, fun h => ?_, h₅⟩
          · simp only [List.flatten_cons, List.length_append, h₁]
            omega
          · simp only [List.flatten_cons, List.length_append]
            rw [List.take_append, Nat.add_sub_cancel_left, h₂, List.take_of_length_le (Nat.le_add_right _ _)]
          · have hrest := ((stuck_cons hlen).1 h).2
            rw [show q.len - b.length = q'.len by omega] at hrest
            have hans := h₃ hrest
            have hsum : total + (out.length : Int) + q'.len = total + q.len := by omega
            rw [hsum] at hans
            rw [hans, stuckAnswer, stuckAnswer]
            rw [hw]
          · have hrest : ¬ Stuck bs q'.len := by
              intro hs
              exact h ((stuck_cons hlen).2 ⟨by omega, by rwa [show q.len - b.length = q'.len by omega]⟩)
            rw [h₄ hrest, List.length_append]
            simp only [Option.some.injEq]
            omega

theorem readBufs_error (h : e.rx = false ∨ q.used = false) : ∀ bufs : List (List UInt8),
    (readBufs k e bufs 0 q).taken = [] ∧ (readBufs k e bufs 0 q).pipe = q ∧
      ((readBufs k e bufs 0 q).answer = some 0 ∨ (readBufs k e bufs 0 q).answer = some (-9))
  | [] => ⟨rfl, rfl, .inl rfl⟩
  | b :: bs => by
    have herr : doPipeRead e q b.length = (some (-9), [], q) := by
      unfold doPipeRead
      rcases h with h | h
      · simp [h]
      · split
        · rfl
        · simp [Pipe.read, h]
    rw [readBufs]
    split
    · exact readBufs_error h bs
    · rw [herr]
      dsimp only
      rw [if_pos (by decide)]
      refine ⟨rfl, rfl, .inr ?_⟩
      cases k <;> rfl

theorem attempt_spec {bufs : List (List UInt8)} (hrx : e.rx = true) (hused : q.used = true) (hq : q.Wf) :
    Spec k e bufs 0 q (attempt k e bufs q) := by
  rw [attempt, if_neg (by simp [hrx])]
  exact readBufs_spec hrx bufs 0 q hused hq

theorem attempt_error {bufs : List (List UInt8)} (h : e.rx = false ∨ q.used = false) :
    (attempt k e bufs q).taken = [] ∧ (attempt k e bufs q).pipe = q ∧
      ((attempt k e bufs q).answer = some 0 ∨ (attempt k e bufs q).answer = some (-9)) := by
  unfold attempt
  split
  · exact ⟨rfl, rfl, .inr rfl⟩
  · exact readBufs_error h bufs

end Attempts

/-! ## What an attempt loses -/

section Losses

variable {k : Call} {e : Moment} {bufs : List (List UInt8)} {q : Pipe}

theorem attempt_sound (hq : q.Sound) : (attempt k e bufs q).pipe.Sound := by
  by_cases hread : e.rx = true ∧ q.used = true
  · exact fun _ => (attempt_spec hread.1 hread.2 (hq hread.2)).pipe
  · have herr := @attempt_error k e q bufs (by simpa [Decidable.or_iff_not_not_and_not] using hread)
    rw [herr.2.1]
    exact hq

theorem stuckAnswer_cases (hw : q.writers ≠ 0) (total : Int) :
    (stuckAnswer k e q total = none ∧ e.waits = true) ∨
      (∃ err < 0, stuckAnswer k e q total = some (k.failed total err)) ∧ e.waits = false := by
  unfold stuckAnswer Moment.waits
  rw [if_neg hw]
  cases e.nonblock with
  | true => exact .inr ⟨⟨-11, by decide, rfl⟩, rfl⟩
  | false =>
    cases e.signal with
    | true => exact .inr ⟨⟨-4, by decide, rfl⟩, rfl⟩
    | false =>
      cases e.alone with
      | true => exact .inr ⟨⟨-11, by decide, rfl⟩, rfl⟩
      | false => exact .inl ⟨rfl, rfl⟩

theorem taken_stuck {a : Attempt} (hspec : Spec k e bufs 0 q a) (hstuck : Stuck bufs q.len) :
    a.taken.length = q.len := by
  have hle := hstuck.le
  rw [hspec.length]
  omega

theorem Loses.spec (h : Loses k e bufs q) (hq : q.Sound) :
    (attempt k e bufs q).taken ≠ [] ∧ ∀ r, (attempt k e bufs q).answer = some r → r < 0 := by
  obtain ⟨hrx, hused, hw, hlen, hstuck, hkind⟩ := h
  have hspec := @attempt_spec k e q bufs hrx hused (hq hused)
  constructor
  · intro hnil
    have hlength := taken_stuck hspec hstuck
    rw [hnil, List.length_nil] at hlength
    omega
  · intro r hr
    rw [hspec.stuck hstuck] at hr
    rcases @stuckAnswer_cases k e q hw (0 + q.len) with ⟨hnone, -⟩ | ⟨⟨err, herr, hsome⟩, hnot⟩
    · rw [hnone] at hr
      cases hr
    · rcases hkind with rfl | hwaits
      · rw [hsome] at hr
        cases hr
        exact herr
      · rw [hwaits] at hnot
        cases hnot

theorem failed_le {total err : Int} (ht : 0 ≤ total) (herr : err < 0) : k.failed total err ≤ total := by
  cases k with
  | readv =>
    unfold Call.failed
    split <;> omega
  | recvmsg => exact Int.le_trans (Int.le_of_lt herr) ht

theorem answer_le (hq : q.Sound) {r : Int} (hr : (attempt k e bufs q).answer = some r) :
    r ≤ (attempt k e bufs q).taken.length := by
  by_cases hread : e.rx = true ∧ q.used = true
  · have hspec := @attempt_spec k e q bufs hread.1 hread.2 (hq hread.2)
    by_cases hstuck : Stuck bufs q.len
    · rw [taken_stuck hspec hstuck]
      rw [hspec.stuck hstuck] at hr
      by_cases hw : q.writers = 0
      · rw [stuckAnswer, if_pos hw] at hr
        cases hr
        omega
      · rcases @stuckAnswer_cases k e q hw (0 + q.len) with ⟨hnone, -⟩ | ⟨⟨err, herr, hsome⟩, -⟩
        · rw [hnone] at hr
          cases hr
        · rw [hsome] at hr
          cases hr
          have hle := @failed_le k (0 + q.len) err (by omega) herr
          omega
    · rw [hspec.free hstuck] at hr
      cases hr
      omega
  · have herr := @attempt_error k e q bufs (by simpa [Decidable.or_iff_not_not_and_not] using hread)
    rcases herr.2.2 with hans | hans
    · rw [hans] at hr
      cases hr
      omega
    · rw [hans] at hr
      cases hr
      omega

theorem spec_of_not_loses (h : ¬ Loses k e bufs q) (hq : q.Sound) :
    ((attempt k e bufs q).answer = none → (attempt k e bufs q).taken = []) ∧
      ∀ r, (attempt k e bufs q).answer = some r →
        if r < 0 then (attempt k e bufs q).taken = []
        else ((attempt k e bufs q).taken.length : Int) = r ∧
          (attempt k e bufs q).taken = (attempt k e bufs q).bufs.flatten.take r.toNat := by
  by_cases hread : e.rx = true ∧ q.used = true
  · obtain ⟨hrx, hused⟩ := hread
    have hspec := @attempt_spec k e q bufs hrx hused (hq hused)
    generalize attempt k e bufs q = a at *
    have hcount : ∀ r : Int, (a.taken.length : Int) = r →
        if r < 0 then a.taken = [] else (a.taken.length : Int) = r ∧ a.taken = a.bufs.flatten.take r.toNat := by
      rintro r rfl
      rw [if_neg (by omega)]
      exact ⟨rfl, by rw [Int.toNat_natCast, hspec.stored]⟩
    by_cases hstuck : Stuck bufs q.len
    · have hans := hspec.stuck hstuck
      have hlength := taken_stuck hspec hstuck
      by_cases hw : q.writers = 0
      · rw [stuckAnswer, if_pos hw] at hans
        rw [hans]
        exact ⟨nofun, fun r hr => hcount r (by cases hr; omega)⟩
      by_cases hzero : q.len = 0
      · have hnil : a.taken = [] := List.length_eq_zero_iff.1 (by omega)
        refine ⟨fun _ => hnil, fun r hr => ?_⟩
        rcases @stuckAnswer_cases k e q hw (0 + q.len) with ⟨hnone, -⟩ | ⟨⟨err, herr, hsome⟩, -⟩
        · rw [hans, hnone] at hr
          cases hr
        · rw [hans, hsome] at hr
          cases hr
          have hneg : k.failed (0 + q.len) err < 0 := by
            cases k with
            | readv => simpa [Call.failed, hzero] using herr
            | recvmsg => exact herr
          rw [if_pos hneg]
          exact hnil
      · -- `readv`, which returns what it has
        have hnot : k ≠ .recvmsg ∧ e.waits = false := by
          refine ⟨fun hk => h ⟨hrx, hused, hw, by omega, hstuck, .inl hk⟩, ?_⟩
          exact Bool.eq_false_iff.2 fun hwaits => h ⟨hrx, hused, hw, by omega, hstuck, .inr hwaits⟩
        obtain rfl : k = .readv := by
          cases k with
          | readv => rfl
          | recvmsg => exact absurd rfl hnot.1
        rcases @stuckAnswer_cases .readv e q hw (0 + q.len) with ⟨-, hwaits⟩ | ⟨⟨err, herr, hsome⟩, -⟩
        · rw [hnot.2] at hwaits
          cases hwaits
        · rw [hans, hsome]
          refine ⟨nofun, fun r hr => hcount r ?_⟩
          cases hr
          rw [Call.failed, if_pos (by omega)]
          omega
    · have hans := hspec.free hstuck
      rw [hans]
      exact ⟨nofun, fun r hr => hcount r (by cases hr; omega)⟩
  · obtain ⟨htaken, -, hans⟩ := @attempt_error k e q bufs (by simpa [Decidable.or_iff_not_not_and_not] using hread)
    rcases hans with hans | hans
    · simp [htaken, hans]
    · simp [htaken, hans]

end Losses

/-! ## A whole call -/

section Runs

variable {k : Call} {s : Doing} {t : Turn} {ts : List Turn}

theorem after_sound {q : Pipe} (ops : List Op) (h : q.Sound) : (after q ops).Sound :=
  sessions.invariant_of_step (fun (x : Session) op (hx : x.pipe.Sound) _ => hx.call op) ops ⟨q, [], []⟩ h
    (sessions.guarded_true _ ops)

/-- More has been taken than is or will be returned. -/
def Lost (s : Doing) : Prop := s.taken ≠ [] ∧ ∀ r, s.answer = some r → r < s.taken.length

theorem Lost.not_lossless (h : Lost s) {r : Int} (hr : s.answer = some r) : ¬ s.Lossless := by
  intro hl
  have hthis := hl r hr
  have hlt := h.2 r hr
  split at hthis
  · exact h.1 hthis
  · omega

theorem turn_answered {r : Int} (hr : s.answer = some r) (t : Turn) : turn k s t = s := by
  rw [turn, hr]

theorem run_answered {r : Int} (hr : s.answer = some r) (ts : List Turn) : (turns k).run s ts = s := by
  induction ts with
  | nil => rfl
  | cons t ts ih =>
    have hsame : ((turns k).step s t).1 = s := turn_answered hr t
    rw [Machine.run_cons, hsame, ih]

theorem guarded_answered {r : Int} (hr : s.answer = some r) (ts : List Turn) : (turns k).Guarded (NoLoss k) s ts := by
  induction ts with
  | nil => trivial
  | cons t ts ih =>
    have hsame : ((turns k).step s t).1 = s := turn_answered hr t
    refine ⟨fun hn => ?_, ?_⟩
    · rw [hr] at hn
      cases hn
    · rw [hsame]
      exact ih

theorem Lost.turn (h : Lost s) (hs : s.pipe.Sound) (t : Turn) :
    Lost (turn k s t) ∧ (Vectored.turn k s t).pipe.Sound := by
  cases hans : s.answer with
  | some r =>
    rw [turn_answered hans]
    exact ⟨h, hs⟩
  | none =>
    have hq := after_sound t.others hs
    rw [Vectored.turn, hans]
    refine ⟨⟨by simp [h.1], fun r hr => ?_⟩, attempt_sound hq⟩
    have hle := answer_le hq hr
    have hpos : 0 < s.taken.length := List.length_pos_iff.2 h.1
    simp only [List.length_append]
    omega

theorem Lost.run (h : Lost s) (hs : s.pipe.Sound) (ts : List Turn) : Lost ((turns k).run s ts) := by
  induction ts generalizing s with
  | nil => exact h
  | cons t ts ih => exact ih (h.turn hs t).1 (h.turn hs t).2

theorem lossless_iff (hfresh : s.answer = none ∧ s.taken = []) (hs : s.pipe.Sound) {r : Int}
    (hr : ((turns k).run s ts).answer = some r) :
    ((turns k).run s ts).Lossless ↔ (turns k).Guarded (NoLoss k) s ts := by
  induction ts generalizing s with
  | nil =>
    rw [Machine.run_nil, hfresh.1] at hr
    cases hr
  | cons t ts ih =>
    obtain ⟨hans, htaken⟩ := hfresh
    have hq := after_sound t.others hs
    have hturn : turn k s t = ⟨(attempt k t.moment s.bufs (after s.pipe t.others)).answer,
        (attempt k t.moment s.bufs (after s.pipe t.others)).bufs,
        (attempt k t.moment s.bufs (after s.pipe t.others)).taken,
        (attempt k t.moment s.bufs (after s.pipe t.others)).pipe⟩ := by
      rw [turn, hans, htaken]
      rfl
    have hsound : (turn k s t).pipe.Sound := by
      rw [hturn]
      exact attempt_sound hq
    by_cases hloses : Loses k t.moment s.bufs (after s.pipe t.others)
    · -- from here on more is out of the pipe than will be returned
      have hlost : Lost (turn k s t) := by
        have hspec := hloses.spec hq
        rw [hturn]
        exact ⟨hspec.1, fun r hr => Int.lt_of_lt_of_le (hspec.2 r hr) (Int.natCast_nonneg _)⟩
      constructor
      · exact fun hl => absurd hl ((hlost.run hsound ts).not_lossless hr)
      · exact fun hg => absurd hloses (hg.1 hans)
    · have hspec := spec_of_not_loses hloses hq
      have hguard : NoLoss k s t := fun _ => hloses
      cases hnext : (turn k s t).answer with
      | some r' =>
        have hdone : (turns k).run (turn k s t) ts = turn k s t := run_answered hnext ts
        refine ⟨fun _ => ⟨hguard, guarded_answered hnext ts⟩, fun _ => ?_⟩
        show ((turns k).run (turn k s t) ts).Lossless
        rw [hdone, hturn]
        exact hspec.2
      | none =>
        have hnil : (turn k s t).taken = [] := by
          rw [hturn] at hnext ⊢
          exact hspec.1 hnext
        have hrec := @ih (turn k s t) ⟨hnext, hnil⟩ hsound hr
        exact hrec.trans ⟨fun hg => ⟨hguard, hg⟩, fun hg => hg.2⟩

end Runs

/-- On a pipe that anything has been done to, a call that returns has lost
nothing exactly if none of its attempts has found the bytes to fill some
buffers exactly, with one more buffer and a writer still there. -/
theorem vectored_read_lossless_iff (k : Call) (buf : Mem) (ops : List Op) (bufs : List (List UInt8)) (ts : List Turn)
    (r : Int) (hr : ((turns k).run (begin (sessions.run (Session.start buf) ops).pipe bufs) ts).answer = some r) :
    ((turns k).run (begin (sessions.run (Session.start buf) ops).pipe bufs) ts).Lossless ↔
      (turns k).Guarded (NoLoss k) (begin (sessions.run (Session.start buf) ops).pipe bufs) ts :=
  lossless_iff ⟨rfl, rfl⟩ (Session.Fifo.run buf ops).wf hr

/-! ## Two buffers -/

/-- A reader that would wait. -/
def blocking : Moment := ⟨true, false, false, false⟩

/-- One byte is there, and a writer. -/
def oneByte : List Op := [.ref true true, .write (fun _ => 7) 1]

/-- Two bytes for two buffers of one. -/
theorem vectored_read_lossless_two :
    ((turns .readv).run (begin (sessions.run (Session.start fun _ => 0) [.ref true true, .write (fun _ => 7) 2]).pipe
      [[0], [0]]) [⟨[], blocking⟩]).Lossless := by
  refine (vectored_read_lossless_iff .readv (fun _ => 0) [.ref true true, .write (fun _ => 7) 2] [[0], [0]]
    [⟨[], blocking⟩] 2 (by decide)).2 ⟨fun _ hl => ?_, trivial⟩
  obtain ⟨-, -, -, hlen, hstuck, -⟩ := hl
  exact stuck_nil ((stuck_cons (by decide)).1 ((stuck_cons (by decide)).1 hstuck).2).2

/-- A byte fills the first buffer, the call waits for the second one, and then
returns the next byte alone. -/
theorem readv_loses_byte :
    ∃ ts r, ((turns .readv).run (begin (sessions.run (Session.start fun _ => 0) oneByte).pipe [[0], [0]]) ts).answer =
        some r ∧
      ¬ ((turns .readv).run (begin (sessions.run (Session.start fun _ => 0) oneByte).pipe [[0], [0]]) ts).Lossless := by
  have hanswer : ((turns .readv).run (begin (sessions.run (Session.start fun _ => 0) oneByte).pipe [[0], [0]])
      [⟨[], blocking⟩, ⟨[.write (fun _ => 8) 1, .unref false true], blocking⟩]).answer = some 1 := by decide
  have htaken : ((turns .readv).run (begin (sessions.run (Session.start fun _ => 0) oneByte).pipe [[0], [0]])
      [⟨[], blocking⟩, ⟨[.write (fun _ => 8) 1, .unref false true], blocking⟩]).taken = [7, 8] := by decide
  refine ⟨_, 1, hanswer, fun hl => ?_⟩
  have hcount := hl 1 hanswer
  rw [htaken] at hcount
  simp at hcount

end NovarisOS.Pipe64.Vectored
