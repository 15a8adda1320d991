/-
NovarisOS.Pipe64.StreamWrite — `stream_write` of `kernel/syscall64.c`: a write
that waits for room, and when each of its bytes goes into the pipe once.

A write that finds the pipe full starts its system call again, and skips what
has gone. How much that is is kept per task slot (`wprog`), with the number
and the arguments of the call, and a call takes up what it finds there if
these are its own.
-/
import NovarisOS.Pipe64.PipeTheorems

namespace NovarisOS.Pipe64.StreamWrite

open Function (update update_of_ne update_self)

/-- What a call is recognised by: its number, its descriptor, and its second
and third argument. -/
structure Args where
  nr : Nat
  fd : Nat
  buf : Nat
  len : Nat
  deriving DecidableEq

/-- An active entry of `wprog`. -/
structure Progress where
  args : Args
  done : Nat

/-- A call: the vectors it writes, and the pipe it writes to. -/
structure Call where
  args : Args
  iov : List (List UInt8)
  pipe : Nat

/-- All that the call writes. -/
def Call.data (c : Call) : List UInt8 := c.iov.flatten

/-- What an attempt finds apart from the pipe: the descriptor still writes to
it, it is nonblocking, a signal interrupts the wait, and no other task can
run. -/
structure Moment where
  tx : Bool
  nonblock : Bool
  signal : Bool
  alone : Bool

structure World where
  wprog : Nat → Option Progress
  pipes : Nat → Pipe

/-- How the loops over the vectors end. -/
inductive Stop where
  | all
  | full
  | error (r : Int)

/-- The state of the loops: how they have ended, how much of the call has
gone, what this attempt has put into the pipe, and the pipe. -/
structure Loop where
  stop : Stop
  done : Nat
  put : List UInt8
  pipe : Pipe

def doPipeWrite (e : Moment) (q : Pipe) (p : List UInt8) : Int × Pipe :=
  if !e.tx then (-9, q) else q.write (fun i => p.getD i 0) p.length

/-- The loop over what is left of a vector; each turn but the last puts at
least a byte. -/
def writeLeft (e : Moment) : Nat → List UInt8 → Nat → Pipe → Loop
  | 0, _, done, q => ⟨.all, done, [], q⟩
  | fuel + 1, p, done, q =>
    if p = [] then ⟨.all, done, [], q⟩
    else
      let (w, q) := doPipeWrite e q p
      if w = -11 then ⟨.full, done, [], q⟩
      else if w < 0 then ⟨.error w, done, [], q⟩
      else
        let l := writeLeft e fuel (p.drop w.toNat) (done + w.toNat) q
        { l with put := p.take w.toNat ++ l.put }

/-- The loop over the vectors. -/
def writeVectors (e : Moment) : List (List UInt8) → (skip done : Nat) → Pipe → Loop
  | [], _, done, q => ⟨.all, done, [], q⟩
  | b :: bs, skip, done, q =>
    if skip ≥ b.length then writeVectors e bs (skip - b.length) done q
    else
      let l := writeLeft e (b.length + 1) (b.drop skip) done q
      match l.stop with
      | .all =>
        let l' := writeVectors e bs 0 l.done l.pipe
        { l' with put := l.put ++ l'.put }
      | _ => l

/-- What has gone before, as the entry of the slot has it. -/
def Call.recognised (c : Call) : Option Progress → Nat
  | some g => if g.args = c.args then g.done else 0
  | none => 0

/-- An attempt, with what it returns (`none` if it waits) and what it has put
into the pipe. -/
structure Attempt where
  answer : Option Int
  put : List UInt8
  world : World

/-- What has gone, or the error if nothing has. -/
def answer (done : Nat) (err : Int) : Option Int := some (if done ≠ 0 then done else err)

/-- `stream_write`, in the slot `t`. -/
def attempt (t : Nat) (c : Call) (e : Moment) (w : World) : Attempt :=
  let before := c.recognised (w.wprog t)
  let l := writeVectors e c.iov before before (w.pipes c.pipe)
  let idle : World := ⟨update w.wprog t none, update w.pipes c.pipe l.pipe⟩
  match l.stop with
  | .all => ⟨some l.done, l.put, idle⟩
  | .error r => ⟨answer l.done r, l.put, idle⟩
  | .full =>
    if e.nonblock then ⟨answer l.done (-11), l.put, idle⟩
    else if e.signal then ⟨answer l.done (-4), l.put, idle⟩
    else if e.alone then ⟨answer l.done (-11), l.put, idle⟩
    else ⟨none, l.put, { idle with wprog := update w.wprog t (some ⟨c.args, l.done⟩) }⟩

/-! ## A whole call -/

/-- What happens while a call waits: something else is done to a pipe, or
another call is attempted in some slot. -/
inductive Other where
  | op (pipe : Nat) (o : Op)
  | write (slot : Nat) (c : Call) (e : Moment)

def Other.apply (w : World) : Other → World
  | .op p o => { w with pipes := update w.pipes p ((Session.mk (w.pipes p) [] []).call o).1.pipe }
  | .write slot c e => (attempt slot c e w).world

/-- What happens before the next attempt, and what it finds. -/
structure Turn where
  others : List Other
  moment : Moment

/-- A call, and all it has put into the pipe. -/
structure Doing where
  answer : Option Int
  put : List UInt8
  world : World

/-- The first attempt. -/
def begin (t : Nat) (c : Call) (e : Moment) (w : World) : Doing :=
  let a := attempt t c e w
  ⟨a.answer, a.put, a.world⟩

/-- The next attempt, if there has been no answer. -/
def turn (t : Nat) (c : Call) (s : Doing) (x : Turn) : Doing :=
  match s.answer with
  | some _ => s
  | none =>
    let a := attempt t c x.moment (x.others.foldl Other.apply s.world)
    ⟨a.answer, s.put ++ a.put, a.world⟩

/-- The machine whose inputs are the turns of one call. -/
def turns (t : Nat) (c : Call) : Machine Doing Turn Unit := ⟨fun s x => (turn t c s x, ())⟩

/-- The slot has no record that the call would take for its own. -/
def Fresh (t : Nat) (c : Call) (w : World) : Prop := ∀ g, w.wprog t = some g → g.args ≠ c.args

/-- The waiting task runs nothing else: other writes are made in other slots. -/
def Quiet (t : Nat) (_ : Doing) (x : Turn) : Prop := ∀ slot c e, .write slot c e ∈ x.others → slot ≠ t

/-! ## An attempt -/

section Attempts

variable {e : Moment} {q : Pipe}

theorem doPipeWrite_cases (e : Moment) (p : List UInt8) (hq : q.Sound) (hp : p ≠ []) :
    (∃ err < 0, doPipeWrite e q p = (err, q)) ∨
      ∃ (m : Nat) (q' : Pipe), 0 < m ∧ m ≤ p.length ∧ doPipeWrite e q p = ((m : Int), q') ∧ q'.Sound ∧
        q'.ring = q.ring ++ p.take m := by
  have hpos : 0 < p.length := List.length_pos_iff.2 hp
  unfold doPipeWrite
  split
  · exact .inl ⟨-9, by decide, rfl⟩
  by_cases hused : q.used = true
  · have hcase := Pipe.write_cases (hq hused) (fun i => p.getD i 0) p.length
    revert hcase
    generalize hr : q.write (fun i => p.getD i 0) p.length = r
    intro hcase
    cases hcase with
    | gone h => simp [hused] at h
    | broken => exact .inl ⟨-32, by decide, rfl⟩
    | full => exact .inl ⟨-11, by decide, rfl⟩
    | put m q' _ hm hring hlen' hwf _ =>
      by_cases hroom : PIPE64_BUF - q.len = 0
      · -- a full pipe says so
        unfold Pipe.write at hr
        rw [if_neg (by simp [hused])] at hr
        split at hr
        · exact .inl ⟨-32, by decide, hr.symm⟩
        · simp only [hroom, if_true] at hr
          exact .inl ⟨-11, by decide, hr.symm⟩
      · refine .inr ⟨m, q', by omega, by omega, rfl, fun _ => hwf, ?_⟩
        rw [hring]
        congr 1
        apply List.ext_getElem
        · simp only [Mem.length_bytes, List.length_take]
          omega
        · intro i h₁ h₂
          have hi : i < p.length := by
            simp only [List.length_take] at h₂
            omega
          simp [List.getElem?_eq_getElem hi]
  · exact .inl ⟨-9, by decide, by simp [Pipe.write, hused]⟩

/-- What the loops have put: the first `m` of the bytes `p`, all of them if
they come to their end. -/
structure Loop.Puts (l : Loop) (p : List UInt8) (done : Nat) (q : Pipe) : Prop where
  done : l.done = done + l.put.length
  put : l.put = p.take l.put.length
  le : l.put.length ≤ p.length
  all : l.stop = .all → l.put.length = p.length
  error : ∀ r, l.stop = .error r → r < 0
  sound : l.pipe.Sound
  ring : l.pipe.ring = q.ring ++ l.put

theorem Loop.Puts.nil {done : Nat} (hq : q.Sound) : Loop.Puts ⟨.all, done, [], q⟩ [] done q :=
  ⟨rfl, rfl, Nat.le_refl _, fun _ => rfl, nofun, hq, by simp⟩

theorem Loop.Puts.append {l : Loop} {p p' : List UInt8} {done : Nat} {q' : Pipe} (h : l.Puts p' (done + p.length) q')
    (hring : q'.ring = q.ring ++ p) : Loop.Puts { l with put := p ++ l.put } (p ++ p') done q where
  done := by
    have hd := h.done
    simp only [List.length_append]
    omega
  put := by
    simp only [List.length_append, List.take_length_add_append]
    rw [← h.put]
  le := by
    have hle := h.le
    simp only [List.length_append]
    omega
  all hs := by simp [h.all hs]
  error := h.error
  sound := h.sound
  ring := by
    have hr := h.ring
    rw [hr, hring, List.append_assoc]

theorem writeLeft_puts : ∀ (fuel : Nat) (p : List UInt8) (done : Nat) (q : Pipe), q.Sound → p.length < fuel →
    (writeLeft e fuel p done q).Puts p done q
  | 0, p, done, q, _, hf => absurd hf (Nat.not_lt_zero _)
  | fuel + 1, p, done, q, hq, hf => by
    rw [writeLeft]
    split
    · rename_i hp
      subst hp
      exact .nil hq
    · rename_i hp
      rcases doPipeWrite_cases e p hq hp with ⟨err, herr, heq⟩ | ⟨m, q', hpos, hle, heq, hq', hring⟩
      · rw [heq]
        dsimp only
        split
        · exact ⟨rfl, by simp, Nat.zero_le _, nofun, nofun, hq, by simp⟩
        · refine ⟨rfl, by simp, Nat.zero_le _, nofun, fun r hr => ?_, hq, by simp⟩
          cases hr
          exact herr
      · rw [heq]
        dsimp only
        rw [if_neg (by omega), if_neg (by omega), Int.toNat_natCast]
        have hrest := writeLeft_puts fuel (p.drop m) (done + m) q' hq' (by simp only [List.length_drop]; omega)
        have hlen : (p.take m).length = m := List.length_take_of_le hle
        have happend := @Loop.Puts.append q (writeLeft e fuel (p.drop m) (done + m) q') (p.take m) (p.drop m) done q'
          (by rw [hlen]; exact hrest) hring
        rwa [List.take_append_drop] at happend

theorem writeVectors_puts : ∀ (bs : List (List UInt8)) (skip done : Nat) (q : Pipe), q.Sound →
    (writeVectors e bs skip done q).Puts (bs.flatten.drop skip) done q
  | [], skip, done, q, hq => by simpa [writeVectors] using Loop.Puts.nil hq
  | b :: bs, skip, done, q, hq => by
    rw [writeVectors]
    split
    · rename_i hskip
      rw [List.flatten_cons, List.drop_append, List.drop_of_length_le hskip, List.nil_append]
      exact writeVectors_puts bs (skip - b.length) done q hq
    · rename_i hskip
      have hfirst := @writeLeft_puts e (b.length + 1) (b.drop skip) done q hq (by simp only [List.length_drop]; omega)
      have hdrop : (b :: bs).flatten.drop skip = b.drop skip ++ bs.flatten := by
        rw [List.flatten_cons, List.drop_append_of_le_length (by omega)]
      rw [hdrop]
      dsimp only
      split
      · rename_i hall
        have hput : (writeLeft e (b.length + 1) (b.drop skip) done q).put = b.drop skip := by
          rw [hfirst.put, hfirst.all hall, List.take_length]
        have hrest := writeVectors_puts bs 0 (writeLeft e (b.length + 1) (b.drop skip) done q).done
          (writeLeft e (b.length + 1) (b.drop skip) done q).pipe hfirst.sound
        rw [List.drop_zero, hfirst.done] at hrest
        rw [hput] at hrest ⊢
        rw [hfirst.done, hput]
        exact hrest.append (by rw [hfirst.ring, hput])
      · rename_i hnot
        have hle := hfirst.le
        exact ⟨hfirst.done, by rw [List.take_append_of_le_length hle]; exact hfirst.put,
          by simp only [List.length_append]; omega, fun h => absurd h hnot, hfirst.error, hfirst.sound, hfirst.ring⟩

end Attempts

/-! ## The record of the slot -/

section Records

variable {t : Nat} {c : Call} {e : Moment} {w : World}

/-- Every pipe is sound. -/
def World.Sound (w : World) : Prop := ∀ p, (w.pipes p).Sound

theorem answer_cases {done : Nat} {err r : Int} (herr : err < 0) (h : answer done err = some r) : r.toNat = done := by
  unfold answer at h
  split at h
  · cases h
    exact Int.toNat_natCast _
  · cases h
    omega

/-- What an attempt comes to, from what it takes for its own progress. -/
structure AttemptSpec (t : Nat) (c : Call) (before : Nat) (w : World) (a : Attempt) : Prop where
  put : a.put = (c.data.drop before).take a.put.length
  le : a.put.length ≤ (c.data.drop before).length
  answer : ∀ r, a.answer = some r → r.toNat = before + a.put.length
  waits : a.answer = none → a.world.wprog t = some ⟨c.args, before + a.put.length⟩
  others : ∀ slot, slot ≠ t → a.world.wprog slot = w.wprog slot
  sound : a.world.Sound
  ring : (a.world.pipes c.pipe).ring = (w.pipes c.pipe).ring ++ a.put

theorem attempt_spec (t : Nat) (c : Call) (e : Moment) (hw : w.Sound) :
    AttemptSpec t c (c.recognised (w.wprog t)) w (attempt t c e w) := by
  have hputs := @writeVectors_puts e c.iov (c.recognised (w.wprog t)) (c.recognised (w.wprog t)) _ (hw c.pipe)
  unfold attempt
  dsimp only
  generalize writeVectors e c.iov (c.recognised (w.wprog t)) (c.recognised (w.wprog t)) (w.pipes c.pipe) = l at *
  obtain ⟨hdone, hput, hle, -, herror, hsound, hring⟩ := hputs
  have hsounds : ∀ wprog, World.Sound ⟨wprog, update w.pipes c.pipe l.pipe⟩ := by
    intro wprog p
    by_cases hp : p = c.pipe
    · rw [hp]
      simpa using hsound
    · simpa [hp] using hw p
  have hidle : ∀ slot, slot ≠ t → update w.wprog t none slot = w.wprog slot := by
    intro slot hs
    exact update_of_ne hs _ _
  have hrings : (update w.pipes c.pipe l.pipe c.pipe).ring = (w.pipes c.pipe).ring ++ l.put := by
    rw [update_self, hring]
  have hanswered : ∀ ans : Option Int, (∀ r, ans = some r → r.toNat = l.done) → ans ≠ none →
      AttemptSpec t c (c.recognised (w.wprog t)) w
        ⟨ans, l.put, ⟨update w.wprog t none, update w.pipes c.pipe l.pipe⟩⟩ := by
    intro ans hans hne
    exact ⟨hput, hle, fun r hr => by rw [hans r hr, hdone], fun hn => absurd hn hne, hidle, hsounds _, hrings⟩
  split
  · exact hanswered _ (fun r hr => by cases hr; exact Int.toNat_natCast _) nofun
  · rename_i r hstop
    exact hanswered _ (fun _ => answer_cases (herror r hstop)) nofun
  · split
    · exact hanswered _ (fun _ => answer_cases (by decide)) nofun
    · split
      · exact hanswered _ (fun _ => answer_cases (by decide)) nofun
      · split
        · exact hanswered _ (fun _ => answer_cases (by decide)) nofun
        · refine ⟨hput, hle, nofun, fun _ => ?_, fun slot hs => update_of_ne hs _ _, hsounds _, hrings⟩
          dsimp only
          rw [update_self, hdone]

theorem recognised_self (c : Call) (done : Nat) : c.recognised (some ⟨c.args, done⟩) = done := by
  simp [Call.recognised]

theorem Fresh.recognised (h : Fresh t c w) : c.recognised (w.wprog t) = 0 := by
  cases hg : w.wprog t with
  | none => rfl
  | some g => simp [Call.recognised, h g hg]

theorem Other.apply_sound (hw : w.Sound) (x : Other) : (x.apply w).Sound := by
  cases x with
  | op p o =>
    intro p'
    by_cases hp : p' = p
    · have hcall := @Pipe.Sound.call (Session.mk (w.pipes p) [] []) (hw p) o
      rw [hp]
      simpa [Other.apply] using hcall
    · simpa [Other.apply, hp] using hw p'
  | write slot c e => exact (attempt_spec slot c e hw).sound

theorem Other.apply_wprog (hw : w.Sound) (x : Other) (h : ∀ slot c e, x = .write slot c e → slot ≠ t) :
    (x.apply w).wprog t = w.wprog t := by
  cases x with
  | op p o => rfl
  | write slot c e => exact (attempt_spec slot c e hw).others t (h slot c e rfl).symm

theorem others_keep (xs : List Other) (hw : w.Sound) (h : ∀ slot c e, .write slot c e ∈ xs → slot ≠ t) :
    (xs.foldl Other.apply w).Sound ∧ (xs.foldl Other.apply w).wprog t = w.wprog t := by
  induction xs generalizing w with
  | nil => exact ⟨hw, rfl⟩
  | cons x xs ih =>
    have hx := Other.apply_wprog hw x fun slot c e he => h slot c e (he ▸ List.mem_cons_self ..)
    obtain ⟨h₁, h₂⟩ := ih (Other.apply_sound hw x) fun slot c e he => h slot c e (List.mem_cons_of_mem _ he)
    exact ⟨h₁, h₂.trans hx⟩

end Records

/-! ## Every run -/

section Runs

variable {t : Nat} {c : Call} {s : Doing}

/-- While the call waits, its record is what it has put; when it has returned,
it has put what it says. -/
structure Going (t : Nat) (c : Call) (s : Doing) : Prop where
  put : s.put = c.data.take s.put.length
  waits : s.answer = none → s.world.wprog t = some ⟨c.args, s.put.length⟩
  answer : ∀ r, s.answer = some r → r.toNat = s.put.length
  sound : s.world.Sound

theorem AttemptSpec.going {before : List UInt8} {w : World} {a : Attempt} (h : AttemptSpec t c before.length w a)
    (hbefore : before = c.data.take before.length) : Going t c ⟨a.answer, before ++ a.put, a.world⟩ := by
  have hput : before ++ a.put = c.data.take (before.length + a.put.length) := by
    rw [List.take_add, ← h.put, ← hbefore]
  refine ⟨by simpa using hput, fun hn => ?_, fun r hr => ?_, h.sound⟩
  · simpa using h.waits hn
  · simpa using h.answer r hr

theorem Going.turn (h : Going t c s) (x : Turn) (hquiet : Quiet t s x) : Going t c (turn t c s x) := by
  unfold StreamWrite.turn
  cases hans : s.answer with
  | some r => exact h
  | none =>
    obtain ⟨hsound, hslot⟩ := others_keep x.others h.sound hquiet
    have hspec := attempt_spec t c x.moment hsound
    rw [hslot, h.waits hans, recognised_self] at hspec
    exact hspec.going h.put

end Runs

/-! ## A record that is left behind -/

/-- A writer that would wait. -/
def blocking : Moment := ⟨true, false, false, false⟩

/-- Pipes with a reader, a writer and `n` bytes. -/
def filled (n : Nat) : World :=
  ⟨fun _ => none, fun _ => (sessions.run (Session.start fun _ => 0) [.ref true true, .write (fun _ => 7) n]).pipe⟩

end NovarisOS.Pipe64.StreamWrite
