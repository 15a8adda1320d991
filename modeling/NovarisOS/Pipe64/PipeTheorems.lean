/-
NovarisOS.Pipe64.PipeTheorems — a pipe is a lossless FIFO.

The three counters say one thing: the bytes of the pipe are the `len` ones
from `head` on, and `tail` is where they end (`Pipe.Wf`). Each copy loop is
a step on that list, however often it goes round: the read takes a prefix
off it (`readLoop_spec`), the write puts the data behind it
(`writeLoop_spec`).
-/
import NovarisOS.Lib.Ring
import NovarisOS.Pipe64.Pipe

namespace NovarisOS.Pipe64

open RingBuffer (contents)

namespace Pipe

/-- The bytes in the pipe, oldest first. -/
def ring (q : Pipe) : List UInt8 := contents PIPE64_BUF q.buf q.head q.len

structure Wf (q : Pipe) : Prop where
  head : q.head < PIPE64_BUF
  tail : q.tail = (q.head + q.len) % PIPE64_BUF
  len : q.len ≤ PIPE64_BUF

/-! ## The loops -/

theorem readLoop_spec (buf : Mem) (n : Nat) : ∀ (fuel head : Nat) (out : List UInt8),
    head < PIPE64_BUF → out.length ≤ n → n - out.length ≤ fuel →
      readLoop buf n fuel head out =
        ((head + (n - out.length)) % PIPE64_BUF,
          out ++ contents PIPE64_BUF buf head (n - out.length)) := by
  intro fuel
  induction fuel with
  | zero =>
    intro head out hhead hle hfuel
    have hdone : n - out.length = 0 := by omega
    rw [readLoop, hdone, Nat.add_zero, Nat.mod_eq_of_lt hhead, RingBuffer.contents_zero, List.append_nil]
  | succ fuel ih =>
    intro head out hhead hle hfuel
    rw [readLoop]
    split
    · rename_i hmore
      simp only
      generalize hrun : (if PIPE64_BUF - head > n - out.length then n - out.length else PIPE64_BUF - head) = run
      have hsize : 0 < run ∧ run ≤ n - out.length ∧ head + run ≤ PIPE64_BUF := by
        split at hrun <;> omega
      have hcopied : buf.bytes head run = contents PIPE64_BUF buf head run := (RingBuffer.contents_run hsize.2.2).symm
      rw [ih _ _ (Nat.mod_lt _ (by decide)) (by simp; omega) (by simp; omega)]
      have hleft : n - (out ++ buf.bytes head run).length = n - out.length - run := by
        simp
        omega
      rw [hleft, hcopied, List.append_assoc, ← RingBuffer.contents_add, Nat.mod_add_mod, Nat.add_assoc,
        Nat.add_sub_cancel' hsize.2.1]
    · have hdone : n - out.length = 0 := by omega
      rw [hdone, Nat.add_zero, Nat.mod_eq_of_lt hhead, RingBuffer.contents_zero, List.append_nil]

theorem contents_copy {buf data : Mem} {head len run put : Nat} (hroom : len + run ≤ PIPE64_BUF)
    (hrun : (head + len) % PIPE64_BUF + run ≤ PIPE64_BUF) :
    contents PIPE64_BUF (buf.copyAt ((head + len) % PIPE64_BUF) (data.shift put) run) head (len + run) =
      contents PIPE64_BUF buf head len ++ data.bytes put run := by
  rw [RingBuffer.contents_add, RingBuffer.contents_write buf hroom fun p hp => Mem.copyAt_outside hp,
    RingBuffer.contents_run hrun, List.append_cancel_left_eq]
  apply List.map_congr_left
  intro i hi
  have hi := List.mem_range.mp hi
  rw [Mem.copyAt_inside (by omega) (by omega), Mem.shift_apply, Nat.add_sub_cancel_left]

theorem writeLoop_spec (data : Mem) (n head : Nat) : ∀ (fuel len : Nat) (buf : Mem) (put : Nat),
    put ≤ n → n - put ≤ fuel → len + (n - put) ≤ PIPE64_BUF →
      ∃ buf', writeLoop data n fuel ((head + len) % PIPE64_BUF) buf put =
          ((head + (len + (n - put))) % PIPE64_BUF, buf', n) ∧
        contents PIPE64_BUF buf' head (len + (n - put)) =
          contents PIPE64_BUF buf head len ++ data.bytes put (n - put) := by
  intro fuel
  induction fuel with
  | zero =>
    intro len buf put hle hfuel _
    have hdone : put = n := by omega
    subst hdone
    exact ⟨buf, by simp [writeLoop], by simp [Mem.bytes]⟩
  | succ fuel ih =>
    intro len buf put hle hfuel hroom
    rw [writeLoop]
    split
    · rename_i hmore
      simp only
      have htail : (head + len) % PIPE64_BUF < PIPE64_BUF := Nat.mod_lt _ (by decide)
      generalize hrun : (if PIPE64_BUF - (head + len) % PIPE64_BUF > n - put then n - put
        else PIPE64_BUF - (head + len) % PIPE64_BUF) = run
      have hsize : 0 < run ∧ run ≤ n - put ∧ (head + len) % PIPE64_BUF + run ≤ PIPE64_BUF := by
        split at hrun <;> omega
      have hnext : ((head + len) % PIPE64_BUF + run) % PIPE64_BUF = (head + (len + run)) % PIPE64_BUF := by
        rw [Nat.mod_add_mod, Nat.add_assoc]
      have hleft : n - put = run + (n - (put + run)) := by omega
      obtain ⟨buf', hloop, hcontents⟩ := ih (len + run)
        (buf.copyAt ((head + len) % PIPE64_BUF) (data.shift put) run) (put + run) (by omega) (by omega)
        (by omega)
      refine ⟨buf', ?_, ?_⟩
      · rw [hnext, hloop, hleft, Nat.add_assoc len]
      · rw [hleft, ← Nat.add_assoc, hcontents, contents_copy (by omega) hsize.2.2, Mem.bytes_add,
          List.append_assoc]
    · have hdone : put = n := by omega
      subst hdone
      exact ⟨buf, by simp, by simp [Mem.bytes]⟩

/-! ## The calls -/

/-- What `pipe64_read` can do. -/
inductive ReadCase (q : Pipe) (n : Nat) : (Int × List UInt8) × Pipe → Prop where
  | gone : q.used = false → ReadCase q n ((-9, []), q)
  | ended : q.used = true → q.len = 0 → q.writers = 0 → ReadCase q n ((0, []), q)
  | empty : q.used = true → q.len = 0 → q.writers ≠ 0 → ReadCase q n ((-11, []), q)
  | took (out : List UInt8) (q' : Pipe) : q.used = true → 0 < q.len → out.length = min n q.len →
      q.ring = out ++ q'.ring → q'.Wf → q'.used = true → ReadCase q n ((out.length, out), q')

theorem read_cases {q : Pipe} (h : q.Wf) (n : Nat) : ReadCase q n (q.read n) := by
  unfold read
  split
  · rename_i hused
    exact .gone (by simpa using hused)
  · rename_i hused
    have hused : q.used = true := by simpa using hused
    split
    · rename_i hlen
      split
      · rename_i hwriters
        exact .ended hused hlen hwriters
      · rename_i hwriters
        exact .empty hused hlen hwriters
    · rename_i hlen
      simp only
      generalize hm : (if n > q.len then q.len else n) = m
      have hmin : m = min n q.len := by
        split at hm <;> omega
      rw [readLoop_spec q.buf m m q.head [] h.head (Nat.zero_le _) (by simp)]
      simp only [List.length_nil, Nat.sub_zero, List.nil_append, RingBuffer.length_contents]
      have hout := RingBuffer.length_contents PIPE64_BUF q.buf q.head m
      have hcase := ReadCase.took (n := n) (contents PIPE64_BUF q.buf q.head m)
        { q with head := (q.head + m) % PIPE64_BUF, len := q.len - m } hused (by omega)
        (by rw [hout, hmin]) ?_ ?_ hused
      · rw [hout] at hcase
        exact hcase
      · show contents _ _ _ q.len = _ ++ contents _ _ _ (q.len - m)
        rw [← RingBuffer.contents_add, Nat.add_sub_cancel' (by omega)]
      · refine ⟨Nat.mod_lt _ (by decide), ?_, Nat.le_trans (Nat.sub_le ..) h.len⟩
        show q.tail = ((q.head + m) % PIPE64_BUF + (q.len - m)) % PIPE64_BUF
        rw [h.tail, Nat.mod_add_mod, Nat.add_assoc, Nat.add_sub_cancel' (by omega)]

/-- What `pipe64_write` can do. -/
inductive WriteCase (q : Pipe) (data : Mem) (n : Nat) : Int × Pipe → Prop where
  | gone : q.used = false → WriteCase q data n (-9, q)
  | broken : q.used = true → q.readers = 0 → WriteCase q data n (-32, q)
  | full : q.used = true → q.len = PIPE64_BUF → WriteCase q data n (-11, q)
  | put (m : Nat) (q' : Pipe) : q.used = true → m = min n (PIPE64_BUF - q.len) →
      q'.ring = q.ring ++ data.bytes 0 m → q'.len = q.len + m → q'.Wf → q'.used = true →
      WriteCase q data n (m, q')

theorem write_cases {q : Pipe} (h : q.Wf) (data : Mem) (n : Nat) : WriteCase q data n (q.write data n) := by
  unfold write
  split
  · rename_i hused
    exact .gone (by simpa using hused)
  · rename_i hused
    have hused : q.used = true := by simpa using hused
    split
    · rename_i hreaders
      exact .broken hused hreaders
    · simp only
      split
      · rename_i hroom
        have := h.len
        exact .full hused (by omega)
      · generalize hm : (if n > PIPE64_BUF - q.len then PIPE64_BUF - q.len else n) = m
        have hmin : m = min n (PIPE64_BUF - q.len) := by
          split at hm <;> omega
        obtain ⟨buf', hloop, hcontents⟩ := writeLoop_spec data m q.head m q.len q.buf 0 (Nat.zero_le _) (by omega)
          (by omega)
        rw [← h.tail] at hloop
        rw [hloop]
        refine .put m _ hused hmin hcontents rfl ⟨h.head, rfl, ?_⟩ hused
        show q.len + m ≤ PIPE64_BUF
        omega

end Pipe

/-! ## Runs -/

/-- While the pipe is there, what has been read and what is left in it are
what has been written. -/
structure Session.Fifo (s : Session) : Prop where
  wf : s.pipe.used = true → s.pipe.Wf
  len : s.pipe.len ≤ PIPE64_BUF
  fifo : s.pipe.used = true → s.returned ++ s.pipe.ring = s.accepted

namespace Session.Fifo

variable {s : Session}

theorem start (buf : Mem) : (Session.start buf).Fifo :=
  ⟨fun _ => ⟨Nat.zero_lt_succ _, rfl, Nat.zero_le _⟩, Nat.zero_le _, fun _ => rfl⟩

theorem write (h : s.Fifo) (data : Mem) (n : Nat) : (s.call (.write data n)).1.Fifo := by
  by_cases hused : s.pipe.used = true
  · have hcase := Pipe.write_cases (h.wf hused) data n
    show Session.Fifo ⟨(s.pipe.write data n).2, s.accepted ++ data.bytes 0 (s.pipe.write data n).1.toNat,
      s.returned⟩
    revert hcase
    generalize s.pipe.write data n = r
    intro hcase
    have hsame : Session.Fifo ⟨s.pipe, s.accepted ++ data.bytes 0 0, s.returned⟩ := by
      simpa [Mem.bytes] using h
    cases hcase with
    | gone => exact hsame
    | broken => exact hsame
    | full => exact hsame
    | put m q' _ _ hring hlen hwf _ =>
      refine ⟨fun _ => hwf, hwf.len, fun _ => ?_⟩
      show s.returned ++ q'.ring = s.accepted ++ data.bytes 0 m
      rw [hring, ← List.append_assoc, h.fifo hused]
  · have hgone : s.pipe.write data n = (-9, s.pipe) := by simp [Pipe.write, hused]
    have hbytes : s.accepted ++ data.bytes 0 (-9 : Int).toNat = s.accepted := by simp [Mem.bytes]
    show Session.Fifo ⟨(s.pipe.write data n).2, s.accepted ++ data.bytes 0 (s.pipe.write data n).1.toNat,
      s.returned⟩
    rw [hgone, hbytes]
    exact h

theorem read (h : s.Fifo) (n : Nat) : (s.call (.read n)).1.Fifo := by
  show Session.Fifo ⟨(s.pipe.read n).2, s.accepted, s.returned ++ (s.pipe.read n).1.2⟩
  by_cases hused : s.pipe.used = true
  · have hcase := Pipe.read_cases (h.wf hused) n
    revert hcase
    generalize s.pipe.read n = r
    intro hcase
    have hsame : Session.Fifo ⟨s.pipe, s.accepted, s.returned ++ []⟩ := by simpa using h
    cases hcase with
    | gone => exact hsame
    | ended => exact hsame
    | empty => exact hsame
    | took out q' _ _ _ hring hwf _ =>
      refine ⟨fun _ => hwf, hwf.len, fun _ => ?_⟩
      show s.returned ++ out ++ q'.ring = s.accepted
      rw [List.append_assoc, ← hring, h.fifo hused]
  · have hgone : s.pipe.read n = ((-9, []), s.pipe) := by simp [Pipe.read, hused]
    rw [hgone, List.append_nil]
    exact h

theorem unref (h : s.Fifo) (reader writer : Bool) : (s.call (.unref reader writer)).1.Fifo := by
  show Session.Fifo ⟨s.pipe.unref reader writer, s.accepted, s.returned⟩
  unfold Pipe.unref
  split
  · exact h
  · rename_i hused
    have hused : s.pipe.used = true := by simpa using hused
    have hwf := h.wf hused
    simp only
    generalize (if reader && s.pipe.readers > 0 then s.pipe.readers - 1 else s.pipe.readers) = readers
    generalize (if writer && s.pipe.writers > 0 then s.pipe.writers - 1 else s.pipe.writers) = writers
    split
    · exact ⟨fun hgone => absurd hgone (by simp), Nat.zero_le _, fun hgone => absurd hgone (by simp)⟩
    · exact ⟨fun _ => ⟨hwf.head, hwf.tail, hwf.len⟩, h.len, fun _ => h.fifo hused⟩

theorem ref (h : s.Fifo) (reader writer : Bool) : (s.call (.ref reader writer)).1.Fifo := by
  show Session.Fifo ⟨s.pipe.ref reader writer, s.accepted, s.returned⟩
  unfold Pipe.ref
  split
  · exact h
  · rename_i hused
    have hused : s.pipe.used = true := by simpa using hused
    have hwf := h.wf hused
    exact ⟨fun _ => ⟨hwf.head, hwf.tail, hwf.len⟩, h.len, fun _ => h.fifo hused⟩

theorem step (h : s.Fifo) (op : Op) : (sessions.step s op).1.Fifo := by
  cases op with
  | write data n => exact h.write data n
  | read n => exact h.read n
  | ref reader writer => exact h.ref reader writer
  | unref reader writer => exact h.unref reader writer

theorem run (buf : Mem) (ops : List Op) : (sessions.run (Session.start buf) ops).Fifo :=
  sessions.invariant_of_step (fun (s : Session) op (h : s.Fifo) _ => h.step op) ops _ (start buf)
    (sessions.guarded_true _ ops)

end Session.Fifo

/-- A pipe is well formed as long as it is used. -/
def Pipe.Sound (q : Pipe) : Prop := q.used = true → q.Wf

theorem Pipe.Sound.call {x : Session} (h : x.pipe.Sound) (op : Op) : (x.call op).1.pipe.Sound := by
  by_cases hused : x.pipe.used = true
  · have hfifo : Session.Fifo ⟨x.pipe, x.pipe.ring, []⟩ := ⟨fun _ => h hused, (h hused).len, fun _ => rfl⟩
    have hsame : (sessions.step ⟨x.pipe, x.pipe.ring, []⟩ op).1.pipe = (x.call op).1.pipe := by
      cases op <;> rfl
    rw [← hsame]
    exact (hfifo.step op).wf
  · have hsame : (x.call op).1.pipe = x.pipe := by
      cases op with
      | write data n => simp [Session.call, Pipe.write, hused]
      | read n => simp [Session.call, Pipe.read, hused]
      | ref reader writer => simp [Session.call, Pipe.ref, hused]
      | unref reader writer => simp [Session.call, Pipe.unref, hused]
    rw [hsame]
    exact h

/-- In every interleaving of calls on a pipe: as long as it is there, the
bytes returned and the bytes left are the bytes accepted, in order; the ring
never holds more than it has room for; a write says `EAGAIN` only if the
ring is full and takes less than it was given only if that fills it; and a
read of at least one byte says 0 only at the end of the stream. -/
theorem pipe_fifo (buf : Mem) (ops : List Op) :
    ((sessions.run (Session.start buf) ops).pipe.used = true →
      (sessions.run (Session.start buf) ops).returned ++ (sessions.run (Session.start buf) ops).pipe.ring =
        (sessions.run (Session.start buf) ops).accepted) ∧
    (sessions.run (Session.start buf) ops).pipe.len ≤ PIPE64_BUF ∧
    (∀ data n, ((sessions.run (Session.start buf) ops).pipe.write data n).1 = -11 →
      (sessions.run (Session.start buf) ops).pipe.len = PIPE64_BUF) ∧
    (∀ data n, 0 ≤ ((sessions.run (Session.start buf) ops).pipe.write data n).1 →
      ((sessions.run (Session.start buf) ops).pipe.write data n).1 < n →
      ((sessions.run (Session.start buf) ops).pipe.write data n).2.len = PIPE64_BUF) ∧
    ∀ n, ((sessions.run (Session.start buf) ops).pipe.read n).1.1 = 0 →
      n = 0 ∨ ((sessions.run (Session.start buf) ops).pipe.len = 0 ∧
        (sessions.run (Session.start buf) ops).pipe.writers = 0) := by
  have h := Session.Fifo.run buf ops
  generalize sessions.run (Session.start buf) ops = s at h
  by_cases hused : s.pipe.used = true
  · have hwrite := Pipe.write_cases (h.wf hused)
    have hread := Pipe.read_cases (h.wf hused)
    refine ⟨h.fifo, h.len, fun data n hr => ?_, fun data n h0 hlt => ?_, fun n hr => ?_⟩
    · have hcase := hwrite data n
      generalize s.pipe.write data n = r at hcase hr
      cases hcase with
      | gone hgone => simp [hused] at hgone
      | broken => cases hr
      | full _ hfull => exact hfull
      | put m => omega
    · have hcase := hwrite data n
      generalize s.pipe.write data n = r at hcase h0 hlt
      cases hcase with
      | gone hgone => simp [hused] at hgone
      | broken => exact absurd h0 (by simp)
      | full => exact absurd h0 (by simp)
      | put m q' _ hm _ hlen =>
        have := h.len
        show q'.len = PIPE64_BUF
        omega
    · have hcase := hread n
      generalize s.pipe.read n = r at hcase hr
      cases hcase with
      | gone hgone => simp [hused] at hgone
      | ended _ hlen hwriters => exact Or.inr ⟨hlen, hwriters⟩
      | empty => cases hr
      | took out q' _ hlen hout =>
        have hr : (out.length : Int) = 0 := hr
        omega
  · have hw : ∀ data n, s.pipe.write data n = (-9, s.pipe) := fun data n => by simp [Pipe.write, hused]
    have hr : ∀ n, s.pipe.read n = ((-9, []), s.pipe) := fun n => by simp [Pipe.read, hused]
    refine ⟨fun h => absurd h hused, h.len, fun data n h11 => ?_, fun data n h0 => ?_, fun n h0 => ?_⟩
    · rw [hw] at h11
      exact absurd h11 (by simp)
    · rw [hw] at h0
      exact absurd h0 (by simp)
    · rw [hr] at h0
      exact absurd h0 (by simp)

/-- A read of no bytes says 0 with a byte in the pipe and a writer at it. -/
theorem read_nothing_zero :
    ¬ ∀ n, ((sessions.run (Session.start fun _ => 0) [.ref true true, .write (fun _ => 7) 1]).pipe.read n).1.1 =
        0 →
      (sessions.run (Session.start fun _ => 0) [.ref true true, .write (fun _ => 7) 1]).pipe.len = 0 ∧
        (sessions.run (Session.start fun _ => 0) [.ref true true, .write (fun _ => 7) 1]).pipe.writers = 0 :=
  fun h => absurd (h 0 (by decide)).1 (by decide)

end NovarisOS.Pipe64
