/-
NovarisOS.Ramfs64.Framing — `make_framed` and the frame allocator.

`File.lean` has a file's frames as the bytes in them and what the allocators
answer as an input. Here the frames are the numbers `kernel/pmm64.c` hands
out, so that what an attempt leaves allocated can be said.

`make_framed` grows the array of frames before it asks for one, and installs
it.
-/
import NovarisOS.Pmm64.FramesTheorems
import NovarisOS.Ramfs64.FileTheorems
import NovarisOS.Ramfs64.Tree

namespace NovarisOS.Ramfs64

open NovarisOS.Pmm64

/-- The frame allocator, and what each frame holds. -/
structure Store where
  pmm : Pmm
  page : Nat → Mem

/-- The fields of `node64_t` that the contents of a file are found by, with
its frames as the allocator knows them. -/
structure FileAt where
  data : Option Mem
  size : Nat
  capacity : Nat
  frames : Option (List Nat)
  fcap : Nat

/-- The node as the bytes its storage holds. -/
def FileAt.node (f : FileAt) (page : Nat → Mem) : Node64 :=
  { freshNode [] none false with
    data := f.data
    size := f.size
    capacity := f.capacity
    frames := f.frames.map fun fs => fs.map page
    fcap := f.fcap }

/-! ## `make_framed` -/

/-- `frame_copy` into the file. -/
def frameStoreAt : Nat → (Nat → Mem) → List Nat → Nat → Mem → Nat → Nat → Nat → Mem
  | 0, page, _, _, _, _, _ => page
  | fuel + 1, page, frames, off, buf, len, done =>
      if done < len then
        let start := (off + done) % PAGE64_SIZE
        match frames[(off + done) / PAGE64_SIZE]? with
        | none => page
        | some f =>
          let run := if PAGE64_SIZE - start > len - done then len - done else PAGE64_SIZE - start
          frameStoreAt fuel
            (Function.update page f ((page f).copyAt start (buf.shift done) run))
            frames off buf len (done + run)
      else page

/-- The allocation loop: `count` more frames behind those it `got`, each
cleared, or none and those it got given back. -/
def takeFrames : Nat → Store → List Nat → Option (List Nat) × Store
  | 0, s, got => (some got, s)
  | count + 1, s, got =>
    match s.pmm.allocFrame with
    | (f, pmm) =>
      if f = 0 then (none, { s with pmm := got.foldl Pmm.freeFrame pmm })
      else
        takeFrames count
          ⟨pmm, Function.update s.page f ((s.page f).fillAt 0 0 PAGE64_SIZE)⟩ (got ++ [f])

/-- How many frames a request for `bytes` is. -/
def framesNeeded (bytes : Nat) : Nat :=
  let need := wrap (bytes + PAGE64_SIZE - 1) / PAGE64_SIZE
  if need = 0 then 1 else need

/-- The room the array of frames is given. -/
def arrayCap (f : FileAt) (bytes : Nat) : Nat :=
  growCap 64 (if f.fcap = 0 then 16 else f.fcap) (framesNeeded bytes)

/-- Asking for the array, when the one there is too short. -/
def askArray (heap : Pmm → Nat → Bool × Pmm) (pmm : Pmm) (f : FileAt) (bytes : Nat) : Bool × Pmm :=
  if framesNeeded bytes > f.fcap then heap pmm (arrayCap f bytes * 8) else (true, pmm)

/-- `make_framed`. -/
def makeFramedAt (heap : Pmm → Nat → Bool × Pmm) (s : Store) (f : FileAt) (bytes : Nat) :
    Bool × FileAt × Store :=
  let have_ := f.frames.getD []
  if f.frames.isSome && decide (framesNeeded bytes ≤ have_.length) then (true, f, s)
  else
    match askArray heap s.pmm f bytes with
    | (false, pmm) => (false, f, { s with pmm := pmm })
    | (true, pmm) =>
      let grown := decide (framesNeeded bytes > f.fcap)
      let f := { f with
        frames := if grown then some have_ else f.frames
        fcap := if grown then arrayCap f bytes else f.fcap }
      match takeFrames (framesNeeded bytes - have_.length) { s with pmm := pmm } [] with
      | (none, s) => (false, f, s)
      | (some got, s) =>
        match f.data with
        | none => (true, { f with frames := some (have_ ++ got) }, s)
        | some d =>
          (true, { f with frames := some (have_ ++ got), data := none, capacity := 0 },
            { s with page := frameStoreAt f.size s.page (have_ ++ got) 0 d f.size 0 })

/-! ## The allocation loop -/

/-- What `kmalloc64` does to the frame allocator: it only takes frames that
nobody has. -/
structure HeapKeeps (heap : Pmm → Nat → Bool × Pmm) : Prop where
  wf : ∀ p n, p.Wf → (heap p n).2.Wf
  ground : ∀ p n, p.Grounded → (heap p n).2.Grounded
  owned : ∀ p n f, p.frameOwners f ≠ 0 → (heap p n).2.frameOwners f = p.frameOwners f

/-- `got` was taken, a frame at a time, from an allocator that was `p₀`. -/
structure Taken (p₀ : Pmm) (got : List Nat) (p : Pmm) : Prop where
  wf : p.Wf
  ground : p.Grounded
  nodup : got.Nodup
  mine : ∀ g ∈ got, p₀.frameOwners g = 0 ∧ p.frameOwners g = 1
  rest : ∀ g, g ∉ got → p.frameOwners g = p₀.frameOwners g

section

variable {p₀ p : Pmm} {got : List Nat} {s : Store}

theorem Taken.nil (hp : p.Wf) (hg : p.Grounded) : Taken p [] p :=
  ⟨hp, hg, List.nodup_nil, fun _ h => absurd h List.not_mem_nil, fun _ _ => rfl⟩

theorem Taken.next (h : Taken p₀ got p) (hf : p.allocFrame.1 ≠ 0) :
    Taken p₀ (got ++ [p.allocFrame.1]) p.allocFrame.2 := by
  have took := Pmm.allocFrame_took h.wf
  obtain ⟨-, hfree, hone⟩ := took.fresh hf
  have hnew : p.allocFrame.1 ∉ got := by
    intro hmem
    have hmine := (h.mine _ hmem).2
    omega
  refine ⟨took.wf, took.ground h.ground, ?_, ?_, ?_⟩
  · rw [List.nodup_append]
    refine ⟨h.nodup, List.nodup_singleton _, ?_⟩
    rintro a ha b hb rfl
    exact hnew (List.mem_singleton.mp hb ▸ ha)
  · intro g hg
    rcases List.mem_append.mp hg with hg | hg
    · have hne : g ≠ p.allocFrame.1 := fun heq => hnew (heq ▸ hg)
      rw [took.other g hne]
      exact h.mine g hg
    · obtain rfl := List.mem_singleton.mp hg
      exact ⟨(h.rest _ hnew).symm.trans hfree, hone⟩
  · intro g hg
    simp only [List.mem_append, List.mem_singleton, not_or] at hg
    rw [took.other g hg.2]
    exact h.rest g hg.1

theorem owners_freeAll (got : List Nat) (p : Pmm) (hnodup : got.Nodup) (g : Nat) :
    (got.foldl Pmm.freeFrame p).frameOwners g =
      if g ∈ got then p.frameOwners g - 1 else p.frameOwners g := by
  induction got generalizing p with
  | nil => rfl
  | cons f fs ih =>
    obtain ⟨hf, hfs⟩ := List.nodup_cons.mp hnodup
    rw [List.foldl_cons, ih _ hfs, Pmm.frameOwners_freeFrame]
    by_cases hgf : g = f
    · subst hgf
      simp [hf]
    · simp [hgf]

theorem takeFrames_refused {count : Nat} {s' : Store} (h : Taken p₀ got s.pmm)
    (hrun : takeFrames count s got = (none, s')) :
    s'.pmm.frameOwners = p₀.frameOwners := by
  induction count generalizing s got with
  | zero => exact absurd hrun (by simp [takeFrames])
  | succ count ih =>
    rw [takeFrames] at hrun
    dsimp only at hrun
    split at hrun
    · rename_i hzero
      obtain rfl := (Prod.mk.inj hrun).2
      have took := Pmm.allocFrame_took h.wf
      have hsame := took.none hzero h.ground
      funext g
      rw [owners_freeAll _ _ h.nodup, hsame]
      split
      · rename_i hg
        obtain ⟨h0, h1⟩ := h.mine g hg
        rw [h0, h1]
      · rename_i hg
        exact h.rest g hg
    · rename_i hf
      exact ih (s := ⟨s.pmm.allocFrame.2, _⟩) (h.next hf) hrun

theorem takeFrames_page {count : Nat} (h : Taken p₀ got s.pmm) {g : Nat}
    (hg : p₀.frameOwners g ≠ 0) : (takeFrames count s got).2.page g = s.page g := by
  induction count generalizing s got with
  | zero => rfl
  | succ count ih =>
    rw [takeFrames]
    dsimp only
    split
    · rfl
    · rename_i hf
      have hnext := h.next hf
      have hne : g ≠ s.pmm.allocFrame.1 := by
        intro heq
        exact hg (heq ▸ (hnext.mine _ (List.mem_append_right _ (List.mem_singleton_self _))).1)
      rw [ih (s := ⟨s.pmm.allocFrame.2, _⟩) hnext]
      exact Function.update_of_ne hne _ _

theorem takeFrames_eq_none_iff {count : Nat} (hwf : s.pmm.Wf) (hground : s.pmm.Grounded) :
    (takeFrames count s got).1 = none ↔ s.pmm.freeFrames < count := by
  induction count generalizing s got with
  | zero => simp [takeFrames]
  | succ count ih =>
    rw [takeFrames]
    dsimp only
    have took := Pmm.allocFrame_took hwf
    split
    · rename_i hzero
      simp [Pmm.freeFrames_of_refused hwf hground hzero]
    · rename_i hf
      rw [ih (s := ⟨s.pmm.allocFrame.2, _⟩) took.wf (took.ground hground),
        took.freeFrames hwf hf]
      exact (Nat.add_lt_add_iff_right).symm

end

/-! ## A refused `make_framed` -/

/-- The file owns the frames it has, and has no room in an array that is not
there. -/
structure FileAt.Held (f : FileAt) (p : Pmm) : Prop where
  bare : f.frames = none → f.fcap = 0
  nodup : ∀ fs, f.frames = some fs → fs.Nodup
  owned : ∀ fs, f.frames = some fs → ∀ g ∈ fs, p.frameOwners g ≠ 0

theorem framesNeeded_pos (bytes : Nat) : 0 < framesNeeded bytes := by
  rw [framesNeeded]
  split
  · exact Nat.one_pos
  · rename_i h
    exact Nat.pos_of_ne_zero h

theorem frameLoad_nil (fuel off : Nat) (buf : Mem) (len done : Nat) :
    frameLoad fuel [] off buf len done = buf := by
  cases fuel with
  | zero => rfl
  | succ fuel => simp [frameLoad]

section

variable {heap : Pmm → Nat → Bool × Pmm} {s : Store} {f : FileAt}

theorem askArray_keeps (hheap : HeapKeeps heap) (hwf : s.pmm.Wf) (hground : s.pmm.Grounded)
    (bytes : Nat) :
    (askArray heap s.pmm f bytes).2.Wf ∧ (askArray heap s.pmm f bytes).2.Grounded ∧
    ∀ g, s.pmm.frameOwners g ≠ 0 → (askArray heap s.pmm f bytes).2.frameOwners g ≠ 0 := by
  rw [askArray]
  split
  · refine ⟨hheap.wf _ _ hwf, hheap.ground _ _ hground, fun g hg => ?_⟩
    rwa [hheap.owned _ _ g hg]
  · exact ⟨hwf, hground, fun _ hg => hg⟩

theorem makeFramedAt_false {bytes : Nat} (hno : (makeFramedAt heap s f bytes).1 = false) :
    (makeFramedAt heap s f bytes = (false, f, ⟨(askArray heap s.pmm f bytes).2, s.page⟩) ∧
      (askArray heap s.pmm f bytes).1 = false) ∨
    ∃ s', (askArray heap s.pmm f bytes).1 = true ∧
      takeFrames (framesNeeded bytes - (f.frames.getD []).length)
        ⟨(askArray heap s.pmm f bytes).2, s.page⟩ [] = (none, s') ∧
      makeFramedAt heap s f bytes = (false,
        { f with
          frames := if framesNeeded bytes > f.fcap then some (f.frames.getD []) else f.frames
          fcap := if framesNeeded bytes > f.fcap then arrayCap f bytes else f.fcap }, s') := by
  rw [makeFramedAt] at hno ⊢
  split at hno
  · exact absurd hno (by simp)
  · rename_i hmore
    rw [if_neg hmore]
    rcases hask : askArray heap s.pmm f bytes with ⟨ok, pmm⟩
    rw [hask] at hno
    cases ok with
    | false => exact .inl ⟨rfl, rfl⟩
    | true =>
      dsimp only at hno ⊢
      rcases htake : takeFrames (framesNeeded bytes - (f.frames.getD []).length)
        ⟨pmm, s.page⟩ [] with ⟨got, s'⟩
      rw [htake] at hno
      cases got with
      | none => exact .inr ⟨s', rfl, rfl, by simp only [decide_eq_true_eq]⟩
      | some got =>
        dsimp only at hno
        split at hno <;> exact absurd hno (by simp)

theorem makeFramedAt_bare {bytes : Nat} (hbare : f.frames = none) (hcap : f.fcap = 0)
    (hask : (askArray heap s.pmm f bytes).1 = true) {s' : Store}
    (htake : takeFrames (framesNeeded bytes) ⟨(askArray heap s.pmm f bytes).2, s.page⟩ [] =
      (none, s')) :
    makeFramedAt heap s f bytes =
      (false, { f with frames := some [], fcap := arrayCap f bytes }, s') := by
  rw [makeFramedAt, hbare]
  rcases h : askArray heap s.pmm f bytes with ⟨ok, pmm⟩
  rw [h] at hask htake
  obtain rfl : ok = true := hask
  simp only [Option.getD_none, Option.isSome_none, Bool.false_and, Bool.false_eq_true, if_false,
    List.length_nil, Nat.sub_zero]
  rw [htake]
  simp [hcap, framesNeeded_pos]

/-- **A `make_framed` that fails leaves the file readable** and gives back
every frame it took, except from a file with bytes that gets its first array
and not the frames. -/
theorem make_framed_failure (hheap : HeapKeeps heap) (hwf : s.pmm.Wf) (hground : s.pmm.Grounded)
    (hf : f.Held s.pmm) (bytes : Nat) :
    ((makeFramedAt heap s f bytes).1 = false →
      (∀ offset buf len,
        ramfs64Read ((makeFramedAt heap s f bytes).2.1.node
            (makeFramedAt heap s f bytes).2.2.page) offset buf len =
          ramfs64Read (f.node s.page) offset buf len) ∧
      (makeFramedAt heap s f bytes).2.2.pmm.frameOwners =
        (askArray heap s.pmm f bytes).2.frameOwners) ↔
    (f.frames ≠ none ∨ f.data = none ∨ f.size = 0 ∨ (askArray heap s.pmm f bytes).1 = false ∨
      framesNeeded bytes ≤ (askArray heap s.pmm f bytes).2.freeFrames) := by
  obtain ⟨hwf', hground', hown⟩ := askArray_keeps (f := f) hheap hwf hground bytes
  constructor
  · intro hkeep
    by_contra hcond
    simp only [not_or, ne_eq, not_not, Bool.not_eq_false, Nat.not_le] at hcond
    obtain ⟨hbare, hdata, hsize, hask, hfew⟩ := hcond
    obtain ⟨d, hd⟩ := Option.ne_none_iff_exists'.mp hdata
    rcases htake : takeFrames (framesNeeded bytes) ⟨(askArray heap s.pmm f bytes).2, s.page⟩ []
      with ⟨got, s'⟩
    have hnone := (@takeFrames_eq_none_iff [] ⟨(askArray heap s.pmm f bytes).2, s.page⟩ _
      hwf' hground').mpr hfew
    rw [htake] at hnone
    obtain rfl : got = none := hnone
    rw [makeFramedAt_bare hbare (hf.bare hbare) hask htake] at hkeep
    -- one byte from the front, into a buffer that holds another
    have hread := (hkeep rfl).1 0 (fun _ => d 0 + 1) 1
    have hbyte := congrFun (congrArg Prod.snd hread) 0
    simp [ramfs64Read, FileAt.node, freshNode, hbare, hd, hsize, frameLoad_nil, Mem.copyAt_apply,
      Mem.shift_apply] at hbyte
  · intro hcond hno
    rcases makeFramedAt_false hno with ⟨heq, -⟩ | ⟨s', hask, htake, heq⟩
    · rw [heq]
      exact ⟨fun _ _ _ => rfl, rfl⟩
    · rw [heq]
      refine ⟨fun offset buf len => ?_, takeFrames_refused (Taken.nil hwf' hground') htake⟩
      cases hframes : f.frames with
      | some fs =>
        have hpages : fs.map s'.page = fs.map s.page := by
          refine List.map_congr_left fun g hg => ?_
          have hkept := @takeFrames_page _ _ ⟨(askArray heap s.pmm f bytes).2, s.page⟩
            (framesNeeded bytes - (f.frames.getD []).length) (Taken.nil hwf' hground') _
            (hown g (hf.owned fs hframes g hg))
          rwa [htake] at hkept
        simp [ramfs64Read, FileAt.node, freshNode, hframes, hpages]
      | none =>
        rw [hframes] at htake
        have hfew : (askArray heap s.pmm f bytes).2.freeFrames < framesNeeded bytes := by
          refine (@takeFrames_eq_none_iff [] ⟨(askArray heap s.pmm f bytes).2, s.page⟩ _
            hwf' hground').mp ?_
          exact congrArg Prod.fst htake
        rcases hcond with h | h | h | h | h
        · exact absurd hframes h
        · simp [ramfs64Read, FileAt.node, freshNode, hf.bare hframes, framesNeeded_pos, h,
            frameLoad_nil, hframes]
        · simp [ramfs64Read, FileAt.node, freshNode, h]
        · exact absurd (hask.symm.trans h) (by decide)
        · omega

/-! ## The same file, by its bytes -/

end

/-! ## Two requests with one frame left -/

/-- Eight frames of which the last is free. -/
def tight : Pmm where
  ready := true
  frameCount := 8
  bitmap _ := 0x7F
  refs _ := 0
  ram _ := true
  usedCount := 7
  allocHint := 0
  highHint := 8
  doubleFrees := 0
  userOom := false

theorem tight_wf : tight.Wf := by
  refine ⟨fun _ _ => rfl, fun _ => Nat.zero_le _, ?_, by decide⟩
  show tight.usedCount = tight.usedSet.card
  decide

theorem tight_grounded : tight.Grounded := fun _ => by decide

def grants (p : Pmm) (_ : Nat) : Bool × Pmm := (true, p)

theorem grants_keeps : HeapKeeps grants := ⟨fun _ _ h => h, fun _ _ h => h, fun _ _ _ _ => rfl⟩

/-- A file of one frame that asks for three keeps its bytes. -/
theorem make_framed_failure_framed :
    let s : Store := ⟨tight, fun g i => UInt8.ofNat (g + i)⟩
    let f : FileAt := ⟨none, 3, 0, some [5], 1⟩
    (makeFramedAt grants s f 12288).1 = false ∧
    ramfs64Read ((makeFramedAt grants s f 12288).2.1.node
        (makeFramedAt grants s f 12288).2.2.page) 0 (fun _ => 0) 3 =
      ramfs64Read (f.node s.page) 0 (fun _ => 0) 3 ∧
    (makeFramedAt grants s f 12288).2.2.pmm.frameOwners 7 = 0 := by
  intro s f
  have hheld : f.Held tight := by
    refine ⟨fun h => absurd h (by decide), fun fs hfs => ?_, fun fs hfs g hg => ?_⟩
    · obtain rfl : [5] = fs := Option.some.inj hfs
      exact List.nodup_singleton 5
    · obtain rfl : [5] = fs := Option.some.inj hfs
      obtain rfl := List.mem_singleton.mp hg
      decide
  have hno : (makeFramedAt grants s f 12288).1 = false := by decide
  obtain ⟨hread, howners⟩ := (make_framed_failure (s := s) grants_keeps tight_wf
    tight_grounded hheld 12288).mpr (.inl (by decide)) hno
  refine ⟨hno, hread _ _ _, ?_⟩
  rw [howners]
  decide

/-- A file in the heap that asks for two frames is read as whatever the
buffer held. -/
theorem make_framed_failure_unreadable :
    let s : Store := ⟨tight, fun _ _ => 0⟩
    let f : FileAt := ⟨some fun _ => 65, 3, 64, none, 0⟩
    (makeFramedAt grants s f 8192).1 = false ∧
    (ramfs64Read (f.node s.page) 0 (fun _ => 0) 3).2 0 = 65 ∧
    (ramfs64Read ((makeFramedAt grants s f 8192).2.1.node
      (makeFramedAt grants s f 8192).2.2.page) 0 (fun _ => 0) 3).2 0 = 0 := by
  decide

end NovarisOS.Ramfs64
