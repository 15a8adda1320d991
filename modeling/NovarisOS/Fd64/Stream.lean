/-
NovarisOS.Fd64.Stream — bytes and descriptors on their way through a pipe.

`pipe64.h` on what rides beside the bytes: the kernel "keeps a queue per pipe
and hands the oldest batch to the next recvmsg". Where Linux ties a control
message to a point in the stream, here the two queues are paired by the order
of the calls alone.
-/
import NovarisOS.Fd64.Exact

namespace NovarisOS.Fd64

/-- A batch that a `sendmsg` has queued: how many bytes had been put in before
it, and what it returned. -/
structure Sending where
  batch : List Target
  start : Nat
  result : Int
  deriving DecidableEq

/-- A batch that a `recvmsg` has taken: the bytes of the stream it returned. -/
structure Receipt where
  batch : List Target
  start : Nat
  stop : Nat
  deriving DecidableEq

/-- What has passed through a pipe. -/
structure Log where
  put : Nat
  taken : Nat
  sent : List Sending
  got : List Receipt

def Log.empty : Log := ⟨0, 0, [], []⟩

/-- What a call has done to a pipe: `c` before, `c'` after, `r` its answer. -/
def Log.next (l : Log) (c c' : Channel) (r : Int) : Log where
  put := l.put + (c'.pipe.len - c.pipe.len)
  taken := l.taken + (c.pipe.len - c'.pipe.len)
  sent := l.sent ++ (c'.inflight.drop c.inflight.length).map fun b => ⟨b, l.put, r⟩
  got := l.got ++ (c.inflight.take (c.inflight.length - c'.inflight.length)).map fun b =>
    ⟨b, l.taken, l.taken + r.toNat⟩

/-- What is said to one descriptor. -/
inductive Talk where
  | sendmsg (control : List (Option (List Int))) (iov : List (List UInt8))
  | write (data : List UInt8)
  | read (n : Nat)
  | recvmsg (control : Option Nat) (iov : List Nat) (cloexec : Bool)

def Talk.op (fd : Nat) : Talk → Op
  | .sendmsg control iov => .sendmsg fd control iov
  | .write data => .write fd data
  | .read n => .read fd n
  | .recvmsg control iov cloexec => .recvmsg fd control iov cloexec

/-- One end: whose descriptor it is, where it reads and where it writes. -/
structure End where
  me : Nat
  fd : Nat
  rx : Nat
  tx : Nat

/-- The end is an open stream. -/
def End.Open (e : End) (w : World) : Prop :=
  w.procs e.me = .running ∧ e.me < PROC64_MAX ∧
    ∃ d, w.fds e.me e.fd = some d ∧ d.isStream = true ∧ d.rx = some e.rx ∧ d.tx = some e.tx

/-- The tables, and what has passed through each pipe. -/
structure Line where
  w : World
  logs : Nat → Log

def Line.call (s : Line) (e : End) (t : Talk) : Line × Int :=
  let (r, w') := s.w.call e.me (t.op e.fd)
  (⟨w', fun x => (s.logs x).next (s.w.pipes x) (w'.pipes x) r⟩, r)

/-- The two ends call in any order; `true` is the first. -/
def talking (a b : End) : Machine Line (Bool × Talk) Int := ⟨fun s c => s.call (if c.1 then a else b) c.2⟩

namespace World

/-! ## What a call leaves of a pipe -/

/-- A pipe that is there afterwards was there before, with the same bytes and
the same messages. -/
structure Calm (w w' : World) (x : Nat) : Prop where
  used : (w'.pipes x).pipe.used = true → (w.pipes x).pipe.used = true
  len : (w'.pipes x).pipe.used = true → (w'.pipes x).pipe.len = (w.pipes x).pipe.len
  inflight : (w'.pipes x).pipe.used = true → (w'.pipes x).inflight = (w.pipes x).inflight

namespace Calm

variable {w w' w₁ w₂ : World} {x : Nat}

theorem of_eq (h : w'.pipes x = w.pipes x) : Calm w w' x :=
  ⟨fun hu => h ▸ hu, fun _ => by rw [h], fun _ => by rw [h]⟩

theorem refl (w : World) (x : Nat) : Calm w w x := of_eq rfl

theorem trans (h : Calm w w₁ x) (h' : Calm w₁ w₂ x) : Calm w w₂ x :=
  ⟨fun hu => h.used (h'.used hu), fun hu => (h'.len hu).trans (h.len (h'.used hu)),
    fun hu => (h'.inflight hu).trans (h.inflight (h'.used hu))⟩

theorem setPipe_other {p : Nat} (w : World) (c : Channel) (hx : x ≠ p) : Calm w (w.setPipe p c) x :=
  of_eq (by simp [World.setPipe, hx])

theorem ref (w : World) (r : Res) (x : Nat) : Calm w (w.ref r) x := by
  have hpipe : ∀ p reader writer,
      Calm w (w.setPipe p { w.pipes p with pipe := (w.pipes p).pipe.ref reader writer }) x := by
    intro p reader writer
    by_cases hx : x = p
    · subst hx
      have hused : ((w.pipes x).pipe.ref reader writer).used = (w.pipes x).pipe.used := by
        unfold Pipe64.Pipe.ref
        split <;> rfl
      have hlen : ((w.pipes x).pipe.ref reader writer).len = (w.pipes x).pipe.len := by
        unfold Pipe64.Pipe.ref
        split <;> rfl
      constructor <;> simp [World.setPipe, hused, hlen]
    · exact setPipe_other w _ hx
  cases r with
  | reader p => exact hpipe p true false
  | writer p => exact hpipe p false true
  | node n => exact of_eq rfl

theorem takeRef (w : World) (t : Target) (x : Nat) : Calm w (w.takeRef t) x := by
  unfold World.takeRef
  generalize t.ends = rs
  induction rs generalizing w with
  | nil => exact refl w x
  | cons r rest ih => exact (ref w r x).trans (ih _)

theorem unrefOne (w : World) (r : Res) (x : Nat) : Calm w (w.unrefOne r).2 x := by
  have hpipe : ∀ p reader writer, Calm w (w.unrefPipe p reader writer).2 x := by
    intro p reader writer
    have hgone : ((w.pipes p).pipe.unref reader writer).used = true → (w.pipes p).pipe.used = true := by
      unfold Pipe64.Pipe.unref
      grind
    have hlen : ((w.pipes p).pipe.unref reader writer).used = true →
        ((w.pipes p).pipe.unref reader writer).len = (w.pipes p).pipe.len := by
      unfold Pipe64.Pipe.unref
      grind
    unfold World.unrefPipe
    dsimp only
    by_cases hx : x = p
    · subst hx
      split
      · rename_i hfreed
        have hnot : ((w.pipes x).pipe.unref reader writer).used = false := by
          simp only [Bool.and_eq_true, Bool.not_eq_true'] at hfreed
          exact hfreed.2
        constructor <;> simp [World.setPipe, hnot]
      · constructor
        · simpa [World.setPipe] using hgone
        · simpa [World.setPipe] using hlen
        · simp [World.setPipe]
    · split <;> exact setPipe_other w _ hx
  cases r with
  | reader p => exact hpipe p true false
  | writer p => exact hpipe p false true
  | node n => exact of_eq rfl

theorem unrefAll (x : Nat) : ∀ (fuel : Nat) (rs : List Res) (w : World), Calm w (World.unrefAll fuel rs w) x
  | 0, _, w => refl w x
  | _ + 1, [], w => refl w x
  | fuel + 1, r :: _, w => (unrefOne w r x).trans (unrefAll x fuel _ _)

theorem unref (w : World) (rs : List Res) (x : Nat) : Calm w (w.unref rs) x := unrefAll x _ rs w

theorem gather (me x : Nat) : ∀ (sent : List Int) (got : List Target) (w : World),
    Calm w (World.gather me sent got w).2 x
  | [], _, w => refl w x
  | sfd :: rest, got, w => by
    unfold World.gather
    split
    · exact refl w x
    · split
      · exact refl w x
      · exact (takeRef w _ x).trans (gather me x rest _ _)

theorem gatherAll (me x : Nat) : ∀ (control : List (Option (List Int))) (got : List Target) (w : World),
    Calm w (World.gatherAll me control got w).2 x
  | [], _, w => refl w x
  | none :: rest, got, w => gatherAll me x rest got w
  | some sent :: rest, got, w => by
    have hone := gather me x sent got w
    unfold World.gatherAll
    split
    · exact refl w x
    · split
      · rename_i heq
        rw [heq] at hone
        exact hone
      · rename_i got' w₁ heq
        rw [heq] at hone
        have hflag : Calm w₁ { w₁ with smashed := w₁.smashed || decide (8 < got'.length) } x := of_eq rfl
        exact (hone.trans hflag).trans (gatherAll me x rest _ _)

theorem install (me x : Nat) (cloexec : Bool) : ∀ (got : List Target) (w : World),
    Calm w (World.install me cloexec got w) x
  | [], w => refl w x
  | t :: rest, w => by
    unfold World.install
    split
    · exact (unref w _ x).trans (install me x cloexec rest _)
    · rename_i nfd _
      have hset : Calm w (w.setFd me nfd (some ⟨t, none, 0, false, cloexec⟩)) x := of_eq rfl
      exact hset.trans (install me x cloexec rest _)

end Calm

/-! ## Bytes -/

theorem readLoop_length (buf : Mem) (n : Nat) : ∀ (fuel head : Nat) (out : List UInt8), out.length ≤ n →
    (Pipe64.Pipe.readLoop buf n fuel head out).2.length ≤ n
  | 0, _, _, h => h
  | fuel + 1, head, out, h => by
    unfold Pipe64.Pipe.readLoop
    split
    · dsimp only
      refine readLoop_length buf n fuel _ _ ?_
      rw [List.length_append, Mem.length_bytes]
      split <;> omega
    · exact h

theorem writeLoop_put (data : Mem) (n : Nat) : ∀ (fuel tail : Nat) (buf : Mem) (put : Nat), put ≤ n →
    (Pipe64.Pipe.writeLoop data n fuel tail buf put).2.2 ≤ n
  | 0, _, _, _, h => h
  | fuel + 1, tail, buf, put, h => by
    unfold Pipe64.Pipe.writeLoop
    split
    · dsimp only
      refine writeLoop_put data n fuel _ _ _ ?_
      split <;> omega
    · exact h

theorem read_len (q : Pipe64.Pipe) (n : Nat) :
    (q.read n).2.used = q.used ∧ (q.read n).2.len ≤ q.len ∧
      (0 ≤ (q.read n).1.1 → (q.read n).1.1 = ((q.len - (q.read n).2.len : Nat) : Int)) ∧
      ((q.read n).1.1 < 0 → (q.read n).2.len = q.len) := by
  unfold Pipe64.Pipe.read
  split
  · simp
  · split
    · split <;> simp
    · dsimp only
      have hlen := readLoop_length q.buf (if n > q.len then q.len else n) (if n > q.len then q.len else n) q.head []
        (Nat.zero_le _)
      generalize Pipe64.Pipe.readLoop q.buf (if n > q.len then q.len else n) (if n > q.len then q.len else n) q.head []
        = res at hlen
      have hle : res.2.length ≤ q.len := by
        split at hlen <;> omega
      refine ⟨rfl, by omega, ?_, ?_⟩
      · intro _
        omega
      · intro hneg
        omega

/-- `pipe64_write`: what it returns goes on the length, and it is refused only
for want of readers or of room. -/
theorem write_len (q : Pipe64.Pipe) (data : Mem) (n : Nat) :
    (q.write data n).2.used = q.used ∧ (q.write data n).2.readers = q.readers ∧ q.len ≤ (q.write data n).2.len ∧
      (0 ≤ (q.write data n).1 → (q.write data n).1 = (((q.write data n).2.len - q.len : Nat) : Int)) ∧
      ((q.write data n).1 < 0 → (q.write data n).2.len = q.len) ∧ (q.write data n).1 ≤ n ∧
      (q.used = true → q.readers ≠ 0 → q.len < Pipe64.PIPE64_BUF → 0 ≤ (q.write data n).1) := by
  unfold Pipe64.Pipe.write
  split
  · rename_i hu
    refine ⟨rfl, rfl, Nat.le_refl _, by simp, fun _ => rfl, by omega, ?_⟩
    intro hused
    simp [hused] at hu
  · split
    · rename_i hr
      refine ⟨rfl, rfl, Nat.le_refl _, by simp, fun _ => rfl, by omega, ?_⟩
      intro _ hreaders
      exact absurd hr hreaders
    · dsimp only
      split
      · rename_i hroom
        refine ⟨rfl, rfl, Nat.le_refl _, by simp, fun _ => rfl, by omega, ?_⟩
        intro _ _ hlt
        omega
      · have hput := writeLoop_put data (if n > Pipe64.PIPE64_BUF - q.len then Pipe64.PIPE64_BUF - q.len else n)
          (if n > Pipe64.PIPE64_BUF - q.len then Pipe64.PIPE64_BUF - q.len else n) q.tail q.buf 0 (Nat.zero_le _)
        generalize Pipe64.Pipe.writeLoop data (if n > Pipe64.PIPE64_BUF - q.len then Pipe64.PIPE64_BUF - q.len else n)
          (if n > Pipe64.PIPE64_BUF - q.len then Pipe64.PIPE64_BUF - q.len else n) q.tail q.buf 0 = res at hput
        obtain ⟨tail, buf, put⟩ := res
        have hle : put ≤ n := by
          dsimp only at hput
          split at hput <;> omega
        dsimp only
        refine ⟨rfl, rfl, by omega, ?_, ?_, by omega, ?_⟩
        · intro _
          omega
        · intro hneg
          omega
        · intro _ _ _
          omega

/-- Bytes have gone into pipe `p` (`s` is 1) or have come out (`s` is -1):
`total` of `r` were counted before. -/
structure Carried (s : Int) (w w' : World) (p total : Nat) (r : Int) : Prop where
  other : ∀ x, x ≠ p → w'.pipes x = w.pipes x
  used : (w'.pipes p).pipe.used = (w.pipes p).pipe.used
  inflight : (w'.pipes p).inflight = (w.pipes p).inflight
  way : s * (w.pipes p).pipe.len ≤ s * (w'.pipes p).pipe.len
  count : 0 ≤ r → s * (w'.pipes p).pipe.len = s * (w.pipes p).pipe.len + (r - total)

theorem Carried.one {s : Int} {w : World} {p total : Nat} {r : Int} {q : Pipe64.Pipe}
    (hused : q.used = (w.pipes p).pipe.used) (hway : s * (w.pipes p).pipe.len ≤ s * q.len)
    (hcount : 0 ≤ r → s * q.len = s * (w.pipes p).pipe.len + (r - total)) :
    Carried s w (w.setPipe p { w.pipes p with pipe := q }) p total r :=
  ⟨fun x hx => by simp [setPipe, hx], by simpa [setPipe], by simp [setPipe], by simpa [setPipe], by simpa [setPipe]⟩

theorem Carried.trans {s : Int} {w w₁ w' : World} {p total : Nat} {m r : Int} (h : Carried s w w₁ p 0 m)
    (hm : 0 ≤ m) (hrest : Carried s w₁ w' p (total + m.toNat) r) : Carried s w w' p total r := by
  refine ⟨fun x hx => (hrest.other x hx).trans (h.other x hx), hrest.used.trans h.used,
    hrest.inflight.trans h.inflight, h.way.trans hrest.way, fun hr => ?_⟩
  have := h.count hm
  have := hrest.count hr
  omega

abbrev Fed : World → World → Nat → Nat → Int → Prop := Carried 1

abbrev Drained : World → World → Nat → Nat → Int → Prop := Carried (-1)

theorem sendBytes_fed (p : Nat) : ∀ (iov : List (List UInt8)) (total : Nat) (w : World),
    Fed w (sendBytes p iov total w).2 p total (sendBytes p iov total w).1
  | [], total, w => ⟨fun _ _ => rfl, rfl, rfl, Int.le_refl _, by simp [sendBytes]⟩
  | v :: rest, total, w => by
    unfold sendBytes
    split
    · exact sendBytes_fed p rest total w
    · obtain ⟨hused, _, hmore, hcount, hnone, hle, _⟩ := write_len (w.pipes p).pipe (fun i => v.getD i 0) v.length
      generalize (w.pipes p).pipe.write (fun i => v.getD i 0) v.length = res at hused hmore hcount hnone hle ⊢
      obtain ⟨r, q⟩ := res
      dsimp only at hused hmore hcount hnone hle ⊢
      split
      · exact .one hused (by omega) fun hr => by omega
      · split
        · exact .one hused (by omega) fun _ => by have := hcount (by omega); omega
        · exact (Carried.one (r := r) hused (by omega) fun hr => by have := hcount hr; omega).trans (by omega)
            (sendBytes_fed p rest (total + r.toNat) _)

theorem sendBytes_room (p : Nat) : ∀ (iov : List (List UInt8)) (total : Nat) (w : World),
    (w.pipes p).pipe.used = true → (w.pipes p).pipe.readers ≠ 0 →
    (w.pipes p).pipe.len + (iov.map List.length).sum ≤ Pipe64.PIPE64_BUF → 0 ≤ (sendBytes p iov total w).1
  | [], _, _, _, _, _ => Int.natCast_nonneg _
  | v :: rest, total, w, hu, hr, hroom => by
    rw [List.map_cons, List.sum_cons] at hroom
    unfold sendBytes
    split
    · exact sendBytes_room p rest total w hu hr (by omega)
    · rename_i hv
      have hpos : 0 < v.length := List.length_pos_iff.mpr hv
      obtain ⟨hused, hreaders, hmore, hcount, _, hle, hok⟩ :=
        write_len (w.pipes p).pipe (fun i => v.getD i 0) v.length
      have hnot := hok hu hr (by omega)
      generalize (w.pipes p).pipe.write (fun i => v.getD i 0) v.length = res at hused hreaders hmore hcount hle hnot ⊢
      obtain ⟨r, q⟩ := res
      dsimp only at hused hreaders hmore hcount hle hnot ⊢
      rw [if_neg (by omega)]
      split
      · omega
      · have hself : (w.setPipe p { w.pipes p with pipe := q }).pipes p = { w.pipes p with pipe := q } := by
          simp [setPipe]
        refine sendBytes_room p rest _ _ ?_ ?_ ?_
        · rw [hself]
          exact hused.trans hu
        · rw [hself]
          rw [hreaders]
          exact hr
        · rw [hself]
          dsimp only
          omega

theorem recvBytes_drained (p : Nat) : ∀ (iov : List Nat) (total : Nat) (w : World),
    Drained w (recvBytes p iov total w).2 p total (recvBytes p iov total w).1
  | [], total, w => ⟨fun _ _ => rfl, rfl, rfl, Int.le_refl _, by simp [recvBytes]⟩
  | n :: rest, total, w => by
    unfold recvBytes
    split
    · exact recvBytes_drained p rest total w
    · obtain ⟨hused, hless, hcount, hnone⟩ := read_len (w.pipes p).pipe n
      generalize (w.pipes p).pipe.read n = res at hused hless hcount hnone ⊢
      obtain ⟨⟨r, out⟩, q⟩ := res
      dsimp only at hused hless hcount hnone ⊢
      split
      · exact .one hused (by omega) fun hr => by omega
      · split
        · exact .one hused (by omega) fun _ => by have := hcount (by omega); omega
        · exact (Carried.one (r := r) hused (by omega) fun hr => by have := hcount hr; omega).trans (by omega)
            (recvBytes_drained p rest (total + r.toNat) _)

/-! ## The calls -/

theorem gather_error {me : Nat} {e : Int} : ∀ (sent : List Int) (got : List Target) (w : World),
    (gather me sent got w).1 = .error e → e < 0
  | [], _, _, h => by cases h
  | sfd :: rest, got, w, h => by
    unfold gather at h
    split at h
    · cases h
      decide
    · split at h
      · cases h
        decide
      · exact gather_error rest _ _ h

theorem gatherAll_error {me : Nat} {e : Int} : ∀ (control : List (Option (List Int))) (got : List Target) (w : World),
    (gatherAll me control got w).1 = .error e → e < 0
  | [], _, _, h => by cases h
  | none :: rest, got, w, h => gatherAll_error rest got w h
  | some sent :: rest, got, w, h => by
    unfold gatherAll at h
    split at h
    · cases h
      decide
    · split at h
      · rename_i e' w₁ heq
        cases h
        exact gather_error sent got w (by rw [heq])
      · exact gatherAll_error rest _ _ h

/-- What a call that puts into pipe `p` and returns `r` has done to the pipe
`x`. -/
structure Puts (w w' : World) (p x : Nat) (r : Int) (l : List (List Target)) : Prop where
  used : (w'.pipes x).pipe.used = true → (w.pipes x).pipe.used = true
  inflight : (w'.pipes x).pipe.used = true → (w'.pipes x).inflight = (w.pipes x).inflight ++ l
  one : l.length ≤ 1
  more : (w'.pipes x).pipe.used = true → (w.pipes x).pipe.len ≤ (w'.pipes x).pipe.len
  count : (w'.pipes x).pipe.used = true → x = p → 0 ≤ r →
    r = (((w'.pipes x).pipe.len - (w.pipes x).pipe.len : Nat) : Int)
  other : (w'.pipes x).pipe.used = true → x ≠ p → l = [] ∧ (w'.pipes x).pipe.len = (w.pipes x).pipe.len

theorem Calm.puts {w w' : World} {p x : Nat} {r : Int} (h : Calm w w' x) (hr : r < 0) : Puts w w' p x r [] :=
  ⟨h.used, fun hu => by rw [h.inflight hu, List.append_nil], by simp, fun hu => by rw [h.len hu],
    fun _ _ hnot => by omega, fun hu _ => ⟨rfl, h.len hu⟩⟩

theorem Fed.puts {w w₁ w' : World} {p x : Nat} {r : Int} {l : List (List Target)} (h : Fed w₁ w' p 0 r)
    (hone : l.length ≤ 1) (hother : x ≠ p → Calm w w₁ x ∧ l = [])
    (hself : x = p → ((w₁.pipes x).pipe.used = true → (w.pipes x).pipe.used = true ∧
      (w₁.pipes x).pipe.len = (w.pipes x).pipe.len ∧ (w₁.pipes x).inflight = (w.pipes x).inflight ++ l)) :
    Puts w w' p x r l := by
  by_cases hx : x = p
  · subst hx
    have hself := fun hu => hself rfl (h.used.symm.trans hu)
    have hmore := h.way
    have hcount := h.count
    refine ⟨fun hu => (hself hu).1, fun hu => by rw [h.inflight, (hself hu).2.2], hone, ?_, ?_, ?_⟩
    · intro hu
      have := (hself hu).2.1
      omega
    · intro hu _ hr
      have := (hself hu).2.1
      omega
    · intro _ hne
      exact absurd rfl hne
  · obtain ⟨hcalm, rfl⟩ := hother hx
    have hsame := h.other x hx
    refine ⟨?_, ?_, hone, ?_, ?_, ?_⟩
    · rw [hsame]
      exact hcalm.used
    · intro hu
      rw [hsame] at hu ⊢
      rw [hcalm.inflight hu, List.append_nil]
    · intro hu
      rw [hsame] at hu ⊢
      rw [hcalm.len hu]
    · intro _ heq
      exact absurd heq hx
    · intro hu _
      rw [hsame] at hu ⊢
      exact ⟨rfl, hcalm.len hu⟩

variable {w : World} {e : End}

theorem sendmsg_puts (h : e.Open w) (control : List (Option (List Int))) (iov : List (List UInt8)) (x : Nat) :
    ∃ l, Puts w (w.sysSendmsg e.me e.fd control iov).2 e.tx x (w.sysSendmsg e.me e.fd control iov).1 l := by
  obtain ⟨_, _, d, hd, hstream, _, htx⟩ := h
  have hcalm := Calm.gatherAll e.me x control [] w
  have herror := fun c => @gatherAll_error e.me c control [] w
  simp only [sysSendmsg, hd, hstream, htx, Bool.not_true, Bool.false_eq_true, if_false]
  generalize gatherAll e.me control [] w = res at hcalm herror ⊢
  obtain ⟨answer, w₁⟩ := res
  cases answer with
  | error c => exact ⟨[], hcalm.puts (herror c rfl)⟩
  | ok got =>
    dsimp only
    have hplain : ∀ w₂ : World, w₂ = w₁ →
        Puts w (sendBytes e.tx iov 0 w₂).2 e.tx x (sendBytes e.tx iov 0 w₂).1 [] := by
      rintro w₂ rfl
      refine (sendBytes_fed e.tx iov 0 w₂).puts (by simp) (fun _ => ⟨hcalm, rfl⟩) ?_
      intro _ hu
      exact ⟨hcalm.used hu, hcalm.len hu, by rw [hcalm.inflight hu, List.append_nil]⟩
    split
    · exact ⟨[], hplain w₁ rfl⟩
    · unfold pipe64SendFds
      by_cases hfull : (!(w₁.pipes e.tx).pipe.used || got.isEmpty || decide (8 < got.length) ||
          decide (PIPE64_INFLIGHT ≤ (w₁.pipes e.tx).inflight.length)) = true
      · rw [if_pos hfull]
        have hneg : (-11 : Int) < 0 := by decide
        exact ⟨[], (hcalm.trans (Calm.unref w₁ _ x)).puts hneg⟩
      · rw [if_neg hfull]
        by_cases hx : x = e.tx
        · subst hx
          refine ⟨[got], (sendBytes_fed _ iov 0 _).puts (by simp) (fun hne => absurd rfl hne) ?_⟩
          intro _ hu
          have hself : ((w₁.setPipe e.tx { w₁.pipes e.tx with inflight := (w₁.pipes e.tx).inflight ++ [got] }).pipes
              e.tx) = { w₁.pipes e.tx with inflight := (w₁.pipes e.tx).inflight ++ [got] } := by simp [setPipe]
          rw [hself] at hu ⊢
          exact ⟨hcalm.used hu, hcalm.len hu, by dsimp only; rw [hcalm.inflight hu]⟩
        · refine ⟨[], (sendBytes_fed _ iov 0 _).puts (by simp) (fun _ => ⟨?_, rfl⟩) (fun heq => absurd heq hx)⟩
          exact hcalm.trans (Calm.setPipe_other w₁ _ hx)

theorem write_puts (h : e.Open w) (data : List UInt8) (x : Nat) :
    Puts w (w.sysWrite e.me e.fd data).2 e.tx x (w.sysWrite e.me e.fd data).1 [] := by
  obtain ⟨_, _, d, hd, hstream, _, htx⟩ := h
  simp only [sysWrite, hd, hstream, htx, if_true]
  obtain ⟨hused, _, hmore, hcount, hnone, _, _⟩ :=
    write_len (w.pipes e.tx).pipe (fun i => data.getD i 0) data.length
  generalize (w.pipes e.tx).pipe.write (fun i => data.getD i 0) data.length = res at hused hmore hcount hnone ⊢
  obtain ⟨r, q⟩ := res
  dsimp only at hused hmore hcount hnone ⊢
  have hwrite : Fed w (w.setPipe e.tx { w.pipes e.tx with pipe := q }) e.tx 0 r :=
    .one hused (by omega) fun hr => by have := hcount hr; omega
  refine hwrite.puts (by simp) (fun _ => ⟨Calm.refl w x, rfl⟩) ?_
  intro _ hu
  exact ⟨hu, rfl, (List.append_nil _).symm⟩

/-- What a call that takes from pipe `p` and returns `r` has done to the pipe
`x`; `n` batches have gone. -/
structure Takes (w w' : World) (p x : Nat) (r : Int) (n : Nat) : Prop where
  used : (w'.pipes x).pipe.used = true → (w.pipes x).pipe.used = true
  inflight : (w'.pipes x).pipe.used = true → (w'.pipes x).inflight = (w.pipes x).inflight.drop n
  less : (w'.pipes x).pipe.used = true → (w'.pipes x).pipe.len ≤ (w.pipes x).pipe.len
  count : (w'.pipes x).pipe.used = true → x = p → 0 ≤ r →
    r = (((w.pipes x).pipe.len - (w'.pipes x).pipe.len : Nat) : Int)
  other : (w'.pipes x).pipe.used = true → x ≠ p → n = 0 ∧ (w'.pipes x).pipe.len = (w.pipes x).pipe.len

/-- Bytes come out before a step that leaves the pipe alone or takes `n`
batches. -/
theorem Drained.takes {w₁ w' : World} {p x n : Nat} {r : Int} (h : Drained w w₁ p 0 r)
    (hother : x ≠ p → Calm w₁ w' x ∧ n = 0)
    (hself : x = p → (w'.pipes x).pipe.used = true → (w₁.pipes x).pipe.used = true ∧
      (w'.pipes x).pipe.len = (w₁.pipes x).pipe.len ∧ (w'.pipes x).inflight = (w₁.pipes x).inflight.drop n) :
    Takes w w' p x r n := by
  by_cases hx : x = p
  · subst hx
    have hself := hself rfl
    have hless := h.way
    have hcount := h.count
    refine ⟨fun hu => h.used ▸ (hself hu).1, fun hu => by rw [(hself hu).2.2, h.inflight], ?_, ?_, ?_⟩
    · intro hu
      have := (hself hu).2.1
      omega
    · intro hu _ hr
      have := (hself hu).2.1
      omega
    · intro _ hne
      exact absurd rfl hne
  · obtain ⟨hcalm, rfl⟩ := hother hx
    have hsame := h.other x hx
    refine ⟨?_, ?_, ?_, fun _ heq => absurd heq hx, ?_⟩
    · rw [← hsame]
      exact hcalm.used
    · intro hu
      rw [hcalm.inflight hu, hsame]
      rfl
    · intro hu
      rw [hcalm.len hu, hsame]
    · intro hu _
      exact ⟨rfl, by rw [hcalm.len hu, hsame]⟩

theorem read_takes (h : e.Open w) (n x : Nat) :
    Takes w (w.sysRead e.me e.fd n).2 e.rx x (w.sysRead e.me e.fd n).1.1 0 := by
  obtain ⟨_, _, d, hd, hstream, hrx, _⟩ := h
  simp only [sysRead, hd, hstream, hrx, if_true]
  obtain ⟨hused, hless, hcount, hnone⟩ := read_len (w.pipes e.rx).pipe n
  generalize (w.pipes e.rx).pipe.read n = res at hused hless hcount hnone ⊢
  obtain ⟨⟨r, out⟩, q⟩ := res
  dsimp only at hused hless hcount hnone ⊢
  have hread : Drained w (w.setPipe e.rx { w.pipes e.rx with pipe := q }) e.rx 0 r :=
    .one hused (by omega) fun hr => by have := hcount hr; omega
  exact hread.takes (fun _ => ⟨Calm.refl _ x, rfl⟩) fun _ hu => ⟨hu, rfl, rfl⟩

theorem recvmsg_rest (me x : Nat) (control : Option Nat) (cloexec : Bool) (total : Int) (got : List Target)
    (w : World) :
    Calm w (match control with
      | none => (total, w)
      | some room =>
        if got = [] then (total, w)
        else if room < 16 + 4 * got.length then (total, w.unref (got.flatMap Target.pipeEnds))
        else (total, install me cloexec got w)).2 x := by
  cases control with
  | none => exact Calm.refl w x
  | some room =>
    dsimp only
    split
    · exact Calm.refl w x
    · split
      · exact Calm.unref w _ x
      · exact Calm.install me x cloexec got w

theorem recvmsg_result (me : Nat) (control : Option Nat) (cloexec : Bool) (total : Int) (got : List Target)
    (w : World) :
    (match control with
      | none => (total, w)
      | some room =>
        if got = [] then (total, w)
        else if room < 16 + 4 * got.length then (total, w.unref (got.flatMap Target.pipeEnds))
        else (total, install me cloexec got w)).1 = total := by
  cases control with
  | none => rfl
  | some room =>
    dsimp only
    split
    · rfl
    · split <;> rfl

/-- `recvmsg` takes the oldest batch exactly when it does not fail. -/
theorem recvmsg_takes (h : e.Open w) (control : Option Nat) (iov : List Nat) (cloexec : Bool) (x : Nat) :
    Takes w (w.sysRecvmsg e.me e.fd control iov cloexec).2 e.rx x (w.sysRecvmsg e.me e.fd control iov cloexec).1
        (if x = e.rx ∧ 0 ≤ (w.sysRecvmsg e.me e.fd control iov cloexec).1 then 1 else 0) ∧
      (w.sysRecvmsg e.me e.fd control iov cloexec).1 = (recvBytes e.rx iov 0 w).1 ∧
      ((recvBytes e.rx iov 0 w).1 < 0 →
        (w.sysRecvmsg e.me e.fd control iov cloexec).2 = (recvBytes e.rx iov 0 w).2) := by
  obtain ⟨_, _, d, hd, hstream, hrx, _⟩ := h
  have hdrained := recvBytes_drained e.rx iov 0 w
  simp only [sysRecvmsg, hd, hstream, hrx, Bool.not_true, Bool.false_eq_true, if_false]
  generalize recvBytes e.rx iov 0 w = res at hdrained ⊢
  obtain ⟨total, w₁⟩ := res
  split
  · rename_i hneg
    refine ⟨?_, rfl, fun _ => rfl⟩
    rw [if_neg (by omega)]
    exact hdrained.takes (fun _ => ⟨Calm.refl w₁ x, rfl⟩) fun _ hu => ⟨hu, rfl, rfl⟩
  · rename_i hpos
    have hall : ∀ res : Int × World, res.1 = total → Calm (w₁.pipe64RecvFds e.rx).2 res.2 x →
        Takes w res.2 e.rx x res.1 (if x = e.rx ∧ 0 ≤ res.1 then 1 else 0) ∧ res.1 = total ∧
          (total < 0 → res.2 = w₁) := by
      rintro ⟨r, w'⟩ rfl hrest
      refine ⟨?_, rfl, fun hneg => absurd hneg hpos⟩
      refine hdrained.takes ?_ ?_
      · intro hx
        refine ⟨Calm.trans ?_ hrest, if_neg fun hboth => hx hboth.1⟩
        unfold pipe64RecvFds
        dsimp only
        split
        · exact Calm.refl w₁ x
        · split
          · exact Calm.refl w₁ x
          · exact (Calm.setPipe_other w₁ _ hx).trans (Calm.unref _ _ x)
      · rintro rfl hu
        rw [if_pos ⟨rfl, by omega⟩]
        have hu₂ := hrest.used hu
        have hlen := hrest.len hu
        have hin := hrest.inflight hu
        have hqueue : ((w₁.pipe64RecvFds e.rx).2.pipes e.rx).pipe.used = true →
            (w₁.pipes e.rx).pipe.used = true ∧
            ((w₁.pipe64RecvFds e.rx).2.pipes e.rx).pipe.len = (w₁.pipes e.rx).pipe.len ∧
            ((w₁.pipe64RecvFds e.rx).2.pipes e.rx).inflight = (w₁.pipes e.rx).inflight.drop 1 := by
          unfold pipe64RecvFds
          dsimp only
          split
          · rename_i hnil
            exact fun hu => ⟨hu, rfl, by rw [hnil]; rfl⟩
          · rename_i batch rest heq
            split
            · rename_i hnot
              intro hu
              rw [hu] at hnot
              cases hnot
            · have hcalm := Calm.unref (w₁.setPipe e.rx { w₁.pipes e.rx with inflight := rest })
                ((batch.drop 8).flatMap Target.ends) e.rx
              have hself : (w₁.setPipe e.rx { w₁.pipes e.rx with inflight := rest }).pipes e.rx =
                  { w₁.pipes e.rx with inflight := rest } := by simp [setPipe]
              intro hu
              have hu' := hcalm.used hu
              have hlen := hcalm.len hu
              have hin := hcalm.inflight hu
              rw [hself] at hu' hlen hin
              refine ⟨hu', hlen, ?_⟩
              rw [heq]
              exact hin
        obtain ⟨hused, hlen₂, hin₂⟩ := hqueue hu₂
        exact ⟨hused, hlen.trans hlen₂, hin.trans hin₂⟩
    exact hall _ (recvmsg_result e.me control cloexec total _ _) (recvmsg_rest e.me x control cloexec total _ _)

end World

end NovarisOS.Fd64
