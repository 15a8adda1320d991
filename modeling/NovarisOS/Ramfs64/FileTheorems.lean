/-
NovarisOS.Ramfs64.FileTheorems — a ramfs64 file is a byte array, as long as
it never grows over bytes it gave up.

`byteAt` reads a file's storage wherever it is, heap block or frames, and
`room` is how far that storage reaches. Nothing in `kernel/ramfs64.c` clears
storage when a file shrinks, so past `size` the storage holds what the file
used to be.
-/
import Mathlib.Algebra.Group.Nat.Defs
import NovarisOS.Ramfs64.File

namespace NovarisOS.Ramfs64

/-! ## Frames as one run of bytes -/

/-- Byte `i` of a list of pages; past the last page there is nothing. -/
def frameByte (frames : List Mem) (i : Nat) : UInt8 :=
  frames.getD (i / 4096) (fun _ => 0) (i % 4096)

theorem frameByte_of_le {frames : List Mem} {i : Nat} (h : 4096 * frames.length ≤ i) :
    frameByte frames i = 0 := by
  have : frames.length ≤ i / 4096 := by omega
  rw [frameByte, List.getD_eq_default _ _ this]

theorem frameByte_append (frames : List Mem) (p : Mem) (i : Nat) :
    frameByte (frames ++ [p]) i =
      if i / 4096 = frames.length then p (i % 4096) else frameByte frames i := by
  simp only [frameByte, List.getD_eq_getElem?_getD, List.getElem?_append]
  by_cases h₁ : i / 4096 < frames.length
  · rw [if_pos h₁, if_neg (by omega)]
  · rw [if_neg h₁, List.getElem?_eq_none (l := frames) (by omega)]
    by_cases h₂ : i / 4096 = frames.length
    · simp [h₂]
    · rw [if_neg h₂, List.getElem?_eq_none (by simp; omega)]

theorem frameByte_modify (frames : List Mem) (page : Nat) (f : Mem → Mem) (i : Nat)
    (h : page < frames.length) :
    frameByte (frames.modify page f) i =
      if i / 4096 = page then f (frames.getD page fun _ => 0) (i % 4096)
      else frameByte frames i := by
  simp only [frameByte, List.getD_eq_getElem?_getD, List.getElem?_modify]
  by_cases hp : page = i / 4096
  · subst hp
    simp [h]
  · rw [if_neg (fun hc => hp hc.symm)]
    simp [hp]

theorem length_frameStore (fuel : Nat) : ∀ (frames : List Mem) (off : Nat) (buf : Mem)
    (len done : Nat), (frameStore fuel frames off buf len done).length = frames.length := by
  induction fuel with
  | zero => intros; rfl
  | succ fuel ih =>
    intro frames off buf len done
    rw [frameStore]
    split
    · dsimp only
      split
      · rfl
      · rw [ih, List.length_modify]
    · rfl

theorem frameByte_frameStore (fuel : Nat) : ∀ (frames : List Mem) (off : Nat) (buf : Mem)
    (len done : Nat), len - done ≤ fuel → off + len ≤ 4096 * frames.length → ∀ i,
    frameByte (frameStore fuel frames off buf len done) i =
      if off + done ≤ i ∧ i < off + len then buf (i - off) else frameByte frames i := by
  induction fuel with
  | zero =>
    intro frames off buf len done hf hroom i
    rw [frameStore, if_neg (by omega)]
  | succ fuel ih =>
    intro frames off buf len done hf hroom i
    rw [frameStore]
    by_cases hd : done < len
    · rw [if_pos hd]
      simp only [PAGE64_SIZE]
      rw [if_neg (by omega)]
      generalize hrun : (if 4096 - (off + done) % 4096 > len - done then len - done
        else 4096 - (off + done) % 4096) = run
      have hr : run ≤ len - done ∧ run ≤ 4096 - (off + done) % 4096 ∧ 0 < run := by
        subst hrun
        split <;> omega
      rw [ih _ off buf len (done + run) (by omega) (by rw [List.length_modify]; omega) i,
        frameByte_modify _ _ _ _ (by omega), Mem.copyAt_apply, Mem.shift_apply]
      by_cases hin : off + done ≤ i ∧ i < off + (done + run)
      · have hpage : i / 4096 = (off + done) / 4096 := by omega
        rw [if_neg (by omega), if_pos hpage, if_pos (by omega), if_pos (by omega)]
        congr 1
        omega
      · by_cases hpage : i / 4096 = (off + done) / 4096
        · by_cases htail : off + (done + run) ≤ i ∧ i < off + len
          · rw [if_pos htail, if_pos (by omega)]
          · rw [if_neg htail, if_pos hpage, if_neg (by omega), if_neg (by omega), ← hpage,
              frameByte]
        · by_cases htail : off + (done + run) ≤ i ∧ i < off + len
          · rw [if_pos htail, if_pos (by omega)]
          · rw [if_neg htail, if_neg hpage, if_neg (by omega)]
    · rw [if_neg hd, if_neg (by omega)]

theorem frameLoad_apply (fuel : Nat) : ∀ (frames : List Mem) (off : Nat) (buf : Mem)
    (len done : Nat), len - done ≤ fuel → off + len ≤ 4096 * frames.length → ∀ j,
    frameLoad fuel frames off buf len done j =
      if done ≤ j ∧ j < len then frameByte frames (off + j) else buf j := by
  induction fuel with
  | zero =>
    intro frames off buf len done hf hroom j
    rw [frameLoad, if_neg (by omega)]
  | succ fuel ih =>
    intro frames off buf len done hf hroom j
    rw [frameLoad]
    by_cases hd : done < len
    · rw [if_pos hd]
      have hpage : (off + done) / 4096 < frames.length := by omega
      rw [List.getElem?_eq_getElem hpage]
      dsimp only
      generalize hrun : (if 4096 - (off + done) % 4096 > len - done then len - done
        else 4096 - (off + done) % 4096) = run
      have hr : run ≤ len - done ∧ run ≤ 4096 - (off + done) % 4096 ∧ 0 < run := by
        subst hrun
        split <;> omega
      rw [ih frames off _ len (done + run) (by omega) hroom j, Mem.copyAt_apply,
        Mem.shift_apply]
      by_cases hin : done ≤ j ∧ j < done + run
      · have hp : (off + j) / 4096 = (off + done) / 4096 := by omega
        rw [if_neg (by omega), if_pos hin, if_pos (by omega), frameByte, hp,
          List.getD_eq_getElem _ _ hpage,
          show (off + done) % 4096 + (j - done) = (off + j) % 4096 by omega]
      · by_cases htail : done + run ≤ j ∧ j < len
        · rw [if_pos htail, if_pos (by omega)]
        · rw [if_neg htail, if_neg hin, if_neg (by omega)]
    · rw [if_neg hd, if_neg (by omega)]

variable {env : Env}

theorem addFrames_spec : ∀ {count : Nat} {frames frames' : List Mem},
    addFrames env count frames = some frames' →
    frames'.length = frames.length + count ∧
      ∀ i, frameByte frames' i = if i < 4096 * frames.length then frameByte frames i else 0 := by
  intro count
  induction count with
  | zero =>
    intro frames frames' h
    cases h
    refine ⟨rfl, fun i => ?_⟩
    split
    · rfl
    · exact frameByte_of_le (by omega)
  | succ count ih =>
    intro frames frames' h
    simp only [addFrames, Option.bind_eq_bind, Option.bind_eq_some_iff] at h
    obtain ⟨f, -, h⟩ := h
    obtain ⟨hlen, hbyte⟩ := ih h
    simp only [List.length_append, List.length_cons, List.length_nil, Nat.zero_add,
      Nat.mul_add, Nat.mul_one] at hlen hbyte
    refine ⟨by omega, fun i => ?_⟩
    rw [hbyte, frameByte_append]
    by_cases h₁ : i < 4096 * frames.length
    · have h₂ : i < 4096 * frames.length + 4096 := by omega
      have h₃ : ¬ i / 4096 = frames.length := by omega
      simp only [h₁, h₂, h₃, if_true, if_false]
    · rw [if_neg h₁]
      split
      · split
        · exact Mem.fillAt_inside (Nat.zero_le _) (by simp only [PAGE64_SIZE]; omega)
        · omega
      · rfl

theorem addFrames_isSome (h : ∀ k, env.frame k ≠ none) : ∀ (count : Nat)
    (frames : List Mem), ∃ frames', addFrames env count frames = some frames' := by
  intro count
  induction count with
  | zero => intro frames; exact ⟨frames, rfl⟩
  | succ count ih =>
    intro frames
    obtain ⟨f, hf⟩ := Option.ne_none_iff_exists'.mp (h frames.length)
    obtain ⟨frames', hfs⟩ := ih (frames ++ [f.fillAt 0 0 PAGE64_SIZE])
    exact ⟨frames', by simp [addFrames, hf, hfs]⟩

/-! ## The file in its storage -/

/-- Byte `i` of the storage, wherever it is. -/
def byteAt (nd : Node64) (i : Nat) : UInt8 :=
  match nd.frames, nd.data with
  | some frames, _ => frameByte frames i
  | none, some d => d i
  | none, none => 0

/-- How far the storage reaches. -/
def room (nd : Node64) : Nat :=
  match nd.frames with
  | some frames => 4096 * frames.length
  | none => nd.capacity

/-- Node `nd` stores the bytes `a`, in one place only. -/
structure Stores (nd : Node64) (a : List UInt8) : Prop where
  file : nd.isDir = false
  len : nd.size = a.length
  small : nd.size < 9223372036854775808
  fits : nd.size ≤ room nd
  framed : nd.frames ≠ none → nd.data = none
  bare : nd.data = none → nd.capacity = 0
  holds : ∀ i, i < nd.size → byteAt nd i = a.getD i 0

/-- Every request of the call is granted. -/
def AllocOk (env : Env) : Prop := (∀ n, env.heap n ≠ none) ∧ ∀ k, env.frame k ≠ none

theorem growCap_ge (fuel : Nat) : ∀ cap want, want ≤ 2 ^ fuel * cap →
    want ≤ growCap fuel cap want ∧ cap ≤ growCap fuel cap want := by
  induction fuel with
  | zero =>
    intro cap want h
    simp only [growCap]
    omega
  | succ fuel ih =>
    intro cap want h
    rw [growCap]
    split
    · have := ih (cap * 2) want (by rw [Nat.pow_succ] at h; rwa [Nat.mul_comm cap, ← Nat.mul_assoc])
      omega
    · omega

variable {nd : Node64} {a : List UInt8}

/-- The heap block after `ensure_capacity`: the old one if it is large
enough, else a larger one that is zero past the file. -/
theorem ensureCapacity_spec (want : Nat)
    (henv : AllocOk env) (h : Stores nd a) (hheap : nd.frames = none)
    (hw : want < 18446744073709551616) :
    ∃ nd', ensureCapacity env nd want = (true, nd') ∧ Stores nd' a ∧ nd'.frames = none ∧
      want ≤ nd'.capacity ∧ nd'.size = nd.size ∧
      ∀ i, nd.size ≤ i → i < nd'.capacity →
        (want ≤ nd.capacity → i < nd.capacity ∧ byteAt nd' i = byteAt nd i) ∧
        (nd.capacity < want → byteAt nd' i = 0) := by
  by_cases hfit : want ≤ nd.capacity
  · refine ⟨nd, by rw [ensureCapacity, if_pos hfit], h, hheap, hfit, rfl, ?_⟩
    intro i _ hi
    exact ⟨fun _ => ⟨hi, rfl⟩, fun hlt => by omega⟩
  · have hcap := growCap_ge 64 (if nd.capacity = 0 then 64 else nd.capacity) want
      (by split <;> omega)
    generalize hc : growCap 64 (if nd.capacity = 0 then 64 else nd.capacity) want = cap at hcap
    have hfits := h.fits
    simp only [room, hheap] at hfits
    obtain ⟨fresh, hfresh⟩ := Option.ne_none_iff_exists'.mp (henv.1 cap)
    have hrun : ensureCapacity env nd want = (true, { nd with
        data := some ((nd.data.elim fresh fun d => fresh.copyAt 0 d nd.size).fillAt nd.size 0 (cap - nd.size))
        capacity := cap }) := by
      rw [ensureCapacity, if_neg hfit, hc]
      cases nd.data <;> simp only [hfresh, Option.elim_none, Option.elim_some]
    refine ⟨_, hrun, ⟨h.file, h.len, h.small, ?_, ?_, by simp, ?_⟩, hheap, hcap.1, rfl, ?_⟩
    · simp only [room, hheap]
      omega
    · intro hframed
      exact absurd hheap hframed
    · intro i hi
      dsimp only at hi
      have hsome : nd.data ≠ none := fun hnone => by have := h.bare hnone; omega
      obtain ⟨d, hd⟩ := Option.ne_none_iff_exists'.mp hsome
      have hold := h.holds i hi
      simp only [byteAt, hheap, hd, Option.elim_some] at hold ⊢
      rw [Mem.fillAt_outside (by omega), Mem.copyAt_inside (by omega) (by omega)]
      exact hold
    · intro i hi hlt
      refine ⟨fun hcontra => absurd hcontra hfit, fun _ => ?_⟩
      simp only [byteAt, hheap]
      exact Mem.fillAt_inside hi (by dsimp only at hlt; omega)

/-- The frames after `make_framed`: the ones it had, or the whole file moved
out of the heap, and zero beyond. -/
theorem makeFramed_spec (bytes : Nat)
    (henv : AllocOk env) (h : Stores nd a) (hb : bytes < 9223372036854775808)
    (hmove : nd.frames = none → nd.size ≤ 4096 * ((bytes + 4095) / 4096)) :
    ∃ nd', makeFramed env nd bytes = (true, nd') ∧ Stores nd' a ∧ nd'.frames ≠ none ∧
      bytes ≤ room nd' ∧ nd'.size = nd.size ∧
      ∀ i, nd.size ≤ i →
        (nd.frames ≠ none → i < room nd → byteAt nd' i = byteAt nd i) ∧
        (nd.frames = none ∨ room nd ≤ i → byteAt nd' i = 0) := by
  unfold makeFramed
  simp only [PAGE64_SIZE]
  generalize hneed : (if (bytes + 4096 - 1) / 4096 = 0 then 1 else (bytes + 4096 - 1) / 4096) = need
  have hn : (bytes + 4095) / 4096 ≤ need ∧ 0 < need := by
    subst hneed
    split <;> omega
  by_cases henough : (nd.frames.isSome && decide (need ≤ (nd.frames.getD []).length)) = true
  · rw [if_pos henough]
    simp only [Bool.and_eq_true, decide_eq_true_eq] at henough
    obtain ⟨fs, hfs⟩ := Option.isSome_iff_exists.mp henough.1
    have hlen : need ≤ fs.length := by simpa [hfs] using henough.2
    refine ⟨nd, rfl, h, by simp [hfs], ?_, rfl, ?_⟩
    · simp only [room, hfs]
      omega
    · intro i _
      refine ⟨fun _ _ => rfl, ?_⟩
      simp only [room, hfs, byteAt]
      intro hor
      exact frameByte_of_le (by simpa using hor)
  · rw [if_neg henough]
    have hgrant : ¬ (decide (need > nd.fcap) &&
        (env.heap (growCap 64 (if nd.fcap = 0 then 16 else nd.fcap) need * 8)).isNone) = true := by
      obtain ⟨b, hb⟩ := Option.ne_none_iff_exists'.mp
        (henv.1 (growCap 64 (if nd.fcap = 0 then 16 else nd.fcap) need * 8))
      simp [hb]
    rw [if_neg hgrant]
    obtain ⟨fs', hadd⟩ := addFrames_isSome henv.2 (need - (nd.frames.getD []).length)
      (nd.frames.getD [])
    obtain ⟨hlen, hbyte⟩ := addFrames_spec hadd
    simp only [hadd]
    generalize (if need > nd.fcap then growCap 64 (if nd.fcap = 0 then 16 else nd.fcap) need
      else nd.fcap) = fcap
    have hfits := h.fits
    cases hd : nd.data with
    | none =>
      -- Framed already, or empty: the frames it had, and zeros after them.
      have hroom : nd.size ≤ 4096 * (nd.frames.getD []).length ∧
          ∀ i, i < 4096 * (nd.frames.getD []).length →
            frameByte (nd.frames.getD []) i = byteAt nd i := by
        cases hf : nd.frames with
        | none =>
          simp only [room, hf, h.bare hd] at hfits
          exact ⟨by simpa using hfits, fun i hi => by simp at hi⟩
        | some fs =>
          simp only [room, hf] at hfits
          exact ⟨hfits, fun i _ => by simp [byteAt, hf]⟩
      refine ⟨_, rfl, ⟨h.file, h.len, h.small, ?_, fun _ => rfl, fun _ => h.bare hd, ?_⟩, by simp,
        ?_, rfl, ?_⟩
      · show nd.size ≤ 4096 * fs'.length
        omega
      · intro i hi
        dsimp only at hi
        show frameByte fs' i = _
        rw [hbyte, if_pos (by omega), hroom.2 i (by omega)]
        exact h.holds i hi
      · show bytes ≤ 4096 * fs'.length
        omega
      · intro i hi
        show (_ → _ → frameByte fs' i = _) ∧ (_ → frameByte fs' i = _)
        rw [hbyte]
        cases hf : nd.frames with
        | none => simp
        | some fs =>
          simp only [room, hf, Option.getD_some]
          refine ⟨fun _ hlt => by rw [if_pos hlt]; simp [byteAt, hf], fun hor => ?_⟩
          rw [if_neg (by have := hor.resolve_left (by simp); omega)]
    | some d =>
      -- The file was in the heap: its bytes are stored into cleared frames.
      have hf : nd.frames = none := by
        by_contra hc
        rw [h.framed hc] at hd
        cases hd
      simp only [hf, Option.getD_none, List.length_nil, Nat.mul_zero, Nat.not_lt_zero, if_false,
        Nat.zero_add] at hlen hbyte
      have hpages := hmove hf
      have hstore := frameByte_frameStore nd.size fs' 0 d nd.size 0 (by omega) (by omega)
      refine ⟨_, rfl, ⟨h.file, h.len, h.small, ?_, by simp, by simp, ?_⟩, by simp, ?_, rfl, ?_⟩
      · show nd.size ≤ 4096 * (frameStore nd.size fs' 0 d nd.size 0).length
        rw [length_frameStore]
        omega
      · intro i hi
        dsimp only at hi
        have hold := h.holds i hi
        simp only [byteAt, hf, hd] at hold
        show frameByte _ i = _
        rw [hstore, if_pos (by omega)]
        exact hold
      · show bytes ≤ 4096 * (frameStore nd.size fs' 0 d nd.size 0).length
        rw [length_frameStore]
        omega
      · intro i hi
        refine ⟨fun hc => absurd hf hc, fun _ => ?_⟩
        show frameByte _ i = _
        rw [hstore, if_neg (by omega), hbyte]

/-! ## When a call does what it says -/

/-- Every byte the storage keeps from the file's end up to `upto` is zero. -/
def GapClear (nd : Node64) (upto : Nat) : Prop :=
  ∀ i, nd.size ≤ i → i < upto → i < room nd → byteAt nd i = 0

/-- The write finds its bytes in the storage the file has: it is framed, or
the heap block is large enough. -/
def InPlace (nd : Node64) (stop : Nat) : Prop :=
  nd.frames ≠ none ∨ (stop ≤ RAMFS64_CONTIGUOUS_MAX ∧ stop ≤ nd.capacity)

/-- A heap file that has to move fits the frames the write asks for. -/
def MoveOk (nd : Node64) (stop : Nat) : Prop :=
  nd.frames = none → RAMFS64_CONTIGUOUS_MAX < stop → nd.size ≤ 4096 * ((stop + 4095) / 4096)

def StepOk (nd : Node64) (c : Call) : Prop :=
  AllocOk c.env ∧
  match c.op with
  | .write offset _ len =>
      offset.toNat + len.toNat < 2 ^ 63 ∧
      (InPlace nd (offset.toNat + len.toNat) → GapClear nd offset.toNat) ∧
      MoveOk nd (offset.toNat + len.toNat)
  | .truncate => True
  | .resize len => len.toNat < 2 ^ 63 ∧ (nd.frames ≠ none → GapClear nd len.toNat)
  | .frames bytes => bytes.toNat < 2 ^ 63
  | .read offset _ len => offset.toNat + len.toNat < 2 ^ 63

/-! ## One call -/

variable {len : Nat}

theorem stores_write {nd' : Node64} {offset : Nat} (buf : Mem)
    (h : Stores nd a) (hfile : nd'.isDir = false)
    (hsize : nd'.size = if offset + len > nd.size then offset + len else nd.size)
    (hbig : offset + len < 9223372036854775808)
    (hroom : room nd' = room nd) (hfits : offset + len ≤ room nd)
    (hframed : nd'.frames ≠ none → nd'.data = none) (hbare : nd'.data = none → nd'.capacity = 0)
    (hgap : ∀ i, nd.size ≤ i → i < offset → byteAt nd i = 0)
    (hbyte : ∀ i, i < room nd → byteAt nd' i =
      if offset ≤ i ∧ i < offset + len then buf (i - offset) else byteAt nd i) :
    Stores nd' (ByteFile.write a offset (buf.bytes 0 len)) := by
  have hlen := h.len
  have hold := h.fits
  have hmax : nd'.size = max a.length (offset + len) := by
    rw [hsize]
    split <;> omega
  have hsmall := h.small
  refine ⟨hfile, ?_, by omega, by omega, hframed, hbare, ?_⟩
  · rw [hmax, ByteFile.length_write, Mem.length_bytes]
  · intro i hi
    rw [hbyte i (by omega), ByteFile.getD_write, Mem.length_bytes]
    split
    · rw [Mem.getD_bytes, if_pos (by omega), Nat.zero_add]
    · by_cases hl : i < nd.size
      · exact h.holds i hl
      · rw [List.getD_eq_default _ _ (by omega)]
        exact hgap i (by omega) (by omega)

theorem ramfs64Write_stores {offset : Nat}
    (buf : Mem) (henv : AllocOk env) (h : Stores nd a)
    (hbig : offset + len < 9223372036854775808)
    (hgap : InPlace nd (offset + len) → GapClear nd offset) (hmove : MoveOk nd (offset + len)) :
    (ramfs64Write env nd offset buf len).1 = len ∧
      Stores (ramfs64Write env nd offset buf len).2
        (ByteFile.write a offset (buf.bytes 0 len)) := by
  unfold ramfs64Write
  rw [if_neg (by rw [h.file]; decide)]
  by_cases hsmall : nd.frames = none ∧ offset + len ≤ RAMFS64_CONTIGUOUS_MAX
  · obtain ⟨nd₁, hrun, h₁, hheap, hcap, hsize, hgrow⟩ :=
      ensureCapacity_spec (offset + len) henv h hsmall.1 (by omega)
    simp only [hrun, hsmall.1, Option.isNone_none, hsmall.2, decide_true, Bool.and_self, if_true]
    refine ⟨trivial, stores_write buf h₁ h₁.file rfl hbig ?_ ?_ ?_ ?_ ?_ ?_⟩
    · simp only [room, hheap]
    · simpa only [room, hheap] using hcap
    · intro hframed
      exact absurd hheap hframed
    · intro hnone
      exact h₁.bare (by simpa using hnone)
    · intro i hi ho
      obtain ⟨hkeep, hnew⟩ := hgrow i (by omega) (by omega)
      by_cases hin : offset + len ≤ nd.capacity
      · obtain ⟨hlt, hsame⟩ := hkeep hin
        rw [hsame]
        exact hgap (.inr ⟨hsmall.2, hin⟩) i (by omega) ho (by simpa only [room, hsmall.1] using hlt)
      · exact hnew (by omega)
    · intro i hi
      simp only [room, hheap] at hi
      have hsome : nd₁.data ≠ none := fun hnone => by have := h₁.bare hnone; omega
      obtain ⟨d, hd⟩ := Option.ne_none_iff_exists'.mp hsome
      simp only [byteAt, hheap, hd, Option.map_some, Mem.copyAt_apply]
  · have hno : ¬ (nd.frames.isNone && decide (offset + len ≤ RAMFS64_CONTIGUOUS_MAX) &&
        (ensureCapacity env nd (offset + len)).1) = true := by
      simp only [Bool.and_eq_true, Option.isNone_iff_eq_none, decide_eq_true_eq]
      exact fun hc => hsmall hc.1
    rw [if_neg hno]
    obtain ⟨nd₁, hrun, h₁, hframes, hroom, hsize, hgrow⟩ :=
      makeFramed_spec (offset + len) henv h hbig
        (fun hf => hmove hf (by by_contra hc; exact hsmall ⟨hf, by omega⟩))
    obtain ⟨fs, hfs⟩ := Option.ne_none_iff_exists'.mp hframes
    simp only [hrun, if_true]
    simp only [room, hfs] at hroom
    refine ⟨trivial, stores_write buf h₁ h₁.file rfl hbig ?_ ?_ ?_ ?_ ?_ ?_⟩
    · simp only [room, hfs, Option.map_some, length_frameStore]
    · simpa only [room, hfs] using hroom
    · intro _
      exact h₁.framed hframes
    · intro hnone
      exact h₁.bare hnone
    · intro i hi ho
      obtain ⟨hkeep, hnew⟩ := hgrow i (by omega)
      by_cases hin : nd.frames ≠ none ∧ i < room nd
      · rw [hkeep hin.1 hin.2]
        exact hgap (.inl hin.1) i (by omega) ho hin.2
      · refine hnew ?_
        by_cases hf : nd.frames = none
        · exact .inl hf
        · exact .inr (by by_contra hc; exact hin ⟨hf, by omega⟩)
    · intro i _
      simp only [byteAt, hfs, Option.map_some]
      rw [frameByte_frameStore len fs offset buf len 0 (by omega) (by omega) i, Nat.add_zero]

theorem stores_grow {nd' : Node64} (h : Stores nd a)
    (hfile : nd'.isDir = false) (hsize : nd'.size = len)
    (hbig : len < 9223372036854775808) (hfits : len ≤ room nd') (hframed : nd'.frames ≠ none → nd'.data = none)
    (hbare : nd'.data = none → nd'.capacity = 0)
    (hbyte : ∀ i, i < len → byteAt nd' i = if i < nd.size then byteAt nd i else 0) :
    Stores nd' (ByteFile.resize a len) := by
  have hlen := h.len
  refine ⟨hfile, by rw [hsize, ByteFile.length_resize], by omega, by omega, hframed, hbare, ?_⟩
  intro i hi
  rw [ByteFile.getD_resize, if_pos (show i < len by omega), hbyte i (by omega)]
  split
  · rename_i hl
    exact h.holds i hl
  · rw [List.getD_eq_default _ _ (by omega)]

theorem stores_shrink (h : Stores nd a)
    (hle : len ≤ nd.size) : Stores { nd with size := len } (ByteFile.resize a len) := by
  have hfits := h.fits
  refine ⟨h.file, by simp, Nat.lt_of_le_of_lt hle h.small, Nat.le_trans hle hfits, h.framed,
    h.bare, ?_⟩
  intro i hi
  dsimp only at hi
  rw [ByteFile.getD_resize, if_pos hi]
  exact h.holds i (by omega)

theorem ramfs64Resize_stores
    (henv : AllocOk env) (h : Stores nd a) (hbig : len < 9223372036854775808)
    (hgap : nd.frames ≠ none → GapClear nd len) :
    (ramfs64Resize env nd len).1 = 0 ∧
      Stores (ramfs64Resize env nd len).2 (ByteFile.resize a len) := by
  unfold ramfs64Resize
  rw [if_neg (by rw [h.file]; decide)]
  by_cases hlong : len > nd.size
  · rw [if_pos hlong]
    by_cases hf : nd.frames = none
    · obtain ⟨nd₁, hrun, h₁, hheap, hcap, hsize, hgrow⟩ :=
        ensureCapacity_spec len henv h hf (by omega)
      simp only [hf, Option.isSome_none, Bool.false_eq_true, if_false, hrun, if_true]
      refine ⟨trivial, stores_grow h₁ h₁.file rfl hbig ?_ ?_ ?_ ?_⟩
      · simpa only [room, hheap] using hcap
      · intro hframed
        exact absurd hheap hframed
      · intro hnone
        exact h₁.bare (by simpa using hnone)
      · intro i hi
        have hsome : nd₁.data ≠ none := fun hnone => by have := h₁.bare hnone; omega
        obtain ⟨d, hd⟩ := Option.ne_none_iff_exists'.mp hsome
        simp only [byteAt, hheap, hd, Option.map_some]
        by_cases hl : i < nd₁.size
        · rw [if_pos hl, Mem.fillAt_outside (by omega)]
        · rw [if_neg hl, Mem.fillAt_inside (by omega) (by omega)]
    · obtain ⟨nd₁, hrun, h₁, hframes, hroom, hsize, hgrow⟩ :=
        makeFramed_spec len henv h hbig (fun hc => absurd hc hf)
      have hsome : nd.frames.isSome = true := Option.isSome_iff_ne_none.mpr hf
      simp only [hsome, if_true, hrun]
      refine ⟨trivial, stores_grow h₁ h₁.file rfl hbig hroom h₁.framed h₁.bare ?_⟩
      intro i hi
      show byteAt nd₁ i = _
      by_cases hl : i < nd₁.size
      · rw [if_pos hl]
      · rw [if_neg hl]
        obtain ⟨hkeep, hnew⟩ := hgrow i (by omega)
        by_cases hin : i < room nd
        · rw [hkeep hf hin]
          exact hgap hf i (by omega) hi hin
        · exact hnew (.inr (by omega))
  · rw [if_neg hlong]
    exact ⟨rfl, stores_shrink h (by omega)⟩

theorem ramfs64Read_stores (offset len : Nat) (buf : Mem)
    (h : Stores nd a) :
    (ramfs64Read nd offset buf len).1 = (min len (a.length - offset) : Nat) ∧
      (ramfs64Read nd offset buf len).2.bytes 0 (min len (a.length - offset))
        = ByteFile.read a offset len := by
  have hlen := h.len
  have hfits := h.fits
  unfold ramfs64Read
  rw [if_neg (by rw [h.file]; decide)]
  by_cases hl : offset ≥ nd.size
  · rw [if_pos hl]
    have hzero : min len (a.length - offset) = 0 := by omega
    rw [hzero]
    exact ⟨rfl, (List.eq_nil_of_length_eq_zero (by rw [ByteFile.length_read]; exact hzero)).symm⟩
  · rw [if_neg hl]
    have hclip : (if offset + len > nd.size then nd.size - offset else len)
        = min len (a.length - offset) := by
      split <;> omega
    simp only [hclip]
    have hcut : ByteFile.read a offset len
        = ByteFile.read a offset (min len (a.length - offset)) := by
      rw [← List.length_drop]
      exact List.take_eq_take_min
    generalize hn : min len (a.length - offset) = n at hcut
    -- Whatever the storage, the buffer ends up with its bytes from `offset` on.
    have hbuf : ∀ m : Mem, (∀ j, j < n → m j = byteAt nd (offset + j)) →
        m.bytes 0 n = ByteFile.read a offset len := by
      intro m hm
      rw [hcut]
      apply List.ext_getElem
      · rw [Mem.length_bytes, ByteFile.length_read]
        omega
      · intro j h₁ h₂
        have hj : j < n := by simpa using h₁
        have hoff : offset + j < a.length := by omega
        rw [Mem.getElem_bytes, Nat.zero_add, hm j hj, h.holds _ (by omega)]
        simp [ByteFile.read, List.getD_eq_getElem?_getD, hoff]
    cases hf : nd.frames with
    | some fs =>
      simp only [room, hf] at hfits
      refine ⟨rfl, hbuf _ fun j hj => ?_⟩
      dsimp only
      rw [frameLoad_apply n fs offset buf n 0 (by omega) (by omega) j, if_pos (by omega)]
      simp [byteAt, hf]
    | none =>
      cases hd : nd.data with
      | some d =>
        refine ⟨rfl, hbuf _ fun j hj => ?_⟩
        dsimp only
        rw [Mem.copyAt_inside (by omega) (by omega)]
        simp [byteAt, hf, hd]
      | none =>
        simp only [room, hf, h.bare hd] at hfits
        omega

/-! ## Every run -/

theorem call_contents (nd : Node64) (a : List UInt8) (c : Call) (h : Stores nd a)
    (hok : StepOk nd c) :
    contents.Allows a c (files.step nd c).2 ∧
      Stores (files.step nd c).1 (contents.next a c (files.step nd c).2) := by
  obtain ⟨env, op⟩ := c
  obtain ⟨henv, hok⟩ := hok
  cases op with
  | write offset buf len =>
    obtain ⟨hret, hstores⟩ := ramfs64Write_stores buf henv h hok.1 hok.2.1 hok.2.2
    refine ⟨trivial, ?_⟩
    show Stores _ (if (ramfs64Write env nd offset.toNat buf len.toNat).1 < 0 then a else _)
    rw [hret, if_neg (by omega)]
    exact hstores
  | truncate =>
    refine ⟨trivial, ?_⟩
    have hempty : ByteFile.resize a 0 = [] := List.eq_nil_of_length_eq_zero (by simp)
    show Stores { nd with size := 0 } []
    rw [← hempty]
    exact stores_shrink h (Nat.zero_le _)
  | resize len =>
    obtain ⟨hret, hstores⟩ := ramfs64Resize_stores henv h hok.1 hok.2
    refine ⟨trivial, ?_⟩
    show Stores _ (if (ramfs64Resize env nd len.toNat).1 = 0 then _ else a)
    rw [hret, if_pos rfl]
    exact hstores
  | frames bytes =>
    refine ⟨trivial, ?_⟩
    show Stores (ramfs64Frames env nd bytes.toNat).2 a
    unfold ramfs64Frames
    rw [if_neg (by rw [h.file]; decide)]
    have hsmall := h.small
    generalize hmax : (if bytes.toNat < nd.size then nd.size else bytes.toNat) = m
    have hm : nd.size ≤ m ∧ m < 9223372036854775808 := by
      subst hmax
      split <;> omega
    obtain ⟨nd', hrun, h', -⟩ := makeFramed_spec m henv h hm.2 (fun _ => by omega)
    rw [hrun]
    exact h'
  | read offset buf len =>
    obtain ⟨hret, hbytes⟩ := ramfs64Read_stores offset.toNat len.toNat buf h
    refine ⟨?_, h⟩
    show Out.bytes _ _ = Out.bytes _ _
    rw [hret, Int.toNat_natCast, hbytes]

/-- **A ramfs64 file refines a byte array** in every run whose calls are
granted their memory and meet `StepOk`: every read returns exactly the bytes
the calls before it left. -/
theorem ramfs64_contents (nd : Node64) (a : List UInt8) (h : Stores nd a) (calls : List Call)
    (hok : files.Guarded StepOk nd calls) : files.Conforms contents nd a calls :=
  files.conforms_of_simulation call_contents calls nd a h hok

/-- The node `alloc_node` makes for a file, and allocators that grant every
request with memory full of `0xAA`. -/
def emptyFile : Node64 :=
  ⟨[], none, none, 0, 0, false, false, 420, none, 0, 0, false, 0, true, none, none⟩

def plenty : Env := ⟨fun _ => some fun _ => 0xAA, fun _ => some fun _ => 0xAA⟩

theorem stores_emptyFile : Stores emptyFile [] := by
  constructor <;> simp [emptyFile, room]

theorem ramfs64_contents_write_read :
    files.Guarded StepOk emptyFile
      [⟨plenty, .write 2 (fun _ => 7) 3⟩, ⟨plenty, .read 0 (fun _ => 1) 9⟩] ∧
    files.Conforms contents emptyFile []
      [⟨plenty, .write 2 (fun _ => 7) 3⟩, ⟨plenty, .read 0 (fun _ => 1) 9⟩] := by
  have henv : AllocOk plenty := ⟨fun _ => by simp [plenty], fun _ => by simp [plenty]⟩
  have hg : files.Guarded StepOk emptyFile
      [⟨plenty, .write 2 (fun _ => 7) 3⟩, ⟨plenty, .read 0 (fun _ => 1) 9⟩] := by
    refine ⟨⟨henv, by decide, ?_, ?_⟩, ⟨henv, by decide⟩, trivial⟩
    · intro hin
      rcases hin with hc | hc
      · exact absurd rfl hc
      · exact absurd hc.2 (by decide)
    · intro _ _
      exact Nat.zero_le _
  exact ⟨hg, ramfs64_contents emptyFile [] stores_emptyFile _ hg⟩

/-- The bytes a file gave up come back: after a truncate, under a write past
the end; and in frames, under a resize. -/
theorem ramfs64_not_contents :
    ¬ files.Conforms contents emptyFile []
      [⟨plenty, .write 0 (fun _ => 65) 4⟩, ⟨plenty, .truncate⟩,
       ⟨plenty, .write 2 (fun _ => 66) 1⟩, ⟨plenty, .read 0 (fun _ => 0) 3⟩] ∧
    ¬ files.Conforms contents emptyFile []
      [⟨plenty, .frames 1⟩, ⟨plenty, .write 0 (fun _ => 65) 4⟩, ⟨plenty, .resize 0⟩,
       ⟨plenty, .resize 3⟩, ⟨plenty, .read 0 (fun _ => 0) 3⟩] := by
  decide

end NovarisOS.Ramfs64
