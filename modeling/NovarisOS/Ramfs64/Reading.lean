/-
NovarisOS.Ramfs64.Reading — what reading a directory returns.

A `World` is the tree and one descriptor on a directory, with what was read
through it. `lasting` are the entries that have been in the directory, as the
same node under the same name, ever since the reading began.
-/
import NovarisOS.Ramfs64.Getdents

namespace NovarisOS.Ramfs64

/-! ## The world -/

/-- The last call of `getdents64`. -/
structure GetdentsCall where
  count : Nat
  ret : Int
  listing : Listing

structure World where
  fs : Fs
  pos : Nat
  log : List Dirent
  lasting : List (Nat × List UInt8)
  last : Option GetdentsCall

inductive ReadOp where
  | tree (op : TreeOp)
  | getdents (count : Nat) (out : Mem)

/-- The children of a directory, with their names. -/
def entries (fs : Fs) (dir : Nat) : List (Nat × List UInt8) :=
  (children fs dir).map fun c => (c, cstr (fs.nodes c).name)

def World.step (dir : Nat) (w : World) : ReadOp → World
  | .tree op =>
    let fs := (treeCall w.fs op).1
    { w with fs, lasting := w.lasting.filter (· ∈ entries fs dir), last := none }
  | .getdents count out =>
    let (ret, r) := getdents64 w.fs dir w.pos count out
    { w with pos := r.pos, log := w.log ++ r.records.map Prod.snd, last := some ⟨count, ret, r⟩ }

def reading (dir : Nat) : Machine World ReadOp Unit where
  step := fun w op => (w.step dir op, ())

/-- The directory has just been opened. -/
def World.start (fs : Fs) (dir : Nat) : World where
  fs := fs
  pos := 0
  log := []
  lasting := entries fs dir
  last := none

/-! ## An exact reading -/

/-- A record is of this entry, and not one of the two that every directory has. -/
def isRecordOf (e : Nat × List UInt8) (d : Dirent) : Bool :=
  decide (2 < d.off) && decide (d.ino = e.1 + 1) && decide (d.name = e.2)

/-- How often an entry has been returned. -/
def World.times (w : World) (e : Nat × List UInt8) : Nat := w.log.countP (isRecordOf e)

/-- No lasting entry has been returned twice; the call that was just made has
left records that are well formed; and if it returned 0, every lasting entry
has been returned and no entry is behind the position. -/
structure World.Exact (dir : Nat) (w : World) : Prop where
  once : ∀ e ∈ w.lasting, w.times e ≤ 1
  wellFormed : ∀ c, w.last = some c → WellFormed c.count c.listing
  ended : ∀ c, w.last = some c → c.ret = 0 →
    (∀ e ∈ w.lasting, w.times e = 1) ∧ (children w.fs dir).length + 2 ≤ w.pos

/-- An entry is before the position. -/
def World.Read (dir : Nat) (w : World) (c : Nat) : Prop := (children w.fs dir).idxOf c + 2 < w.pos

/-- A call on the tree moves no entry that stays across the position; a buffer
has room for any record of the directory. -/
def World.Steady (dir : Nat) (w : World) : ReadOp → Prop
  | .tree op => ∀ c ∈ children w.fs dir, c ∈ children (treeCall w.fs op).1 dir →
      (w.Read dir c ↔ (w.step dir (.tree op)).Read dir c)
  | .getdents count _ => ∀ pos d, direntAt w.fs dir pos = some d → d.reclen ≤ count

/-! ## One call -/

section Call

variable {fs : Fs} {kids : Nat → List Nat} {free : List Nat} (w : Wired fs kids free) {dir : Nat}
include w

theorem isRecordOf_iff {pos : Nat} {d : Dirent} (hd : direntAt fs dir pos = some d) {c : Nat}
    (hc : c ∈ children fs dir) :
    isRecordOf (c, cstr (fs.nodes c).name) d = true ↔ pos = (children fs dir).idxOf c + 2 := by
  unfold direntAt at hd
  split at hd
  · obtain rfl := Option.some.inj hd
    rename_i hz
    refine iff_of_false ?_ (by omega)
    simp [isRecordOf, hz]
  · split at hd
    · obtain rfl := Option.some.inj hd
      rename_i hz
      refine iff_of_false ?_ (by omega)
      simp [isRecordOf, hz]
    · obtain ⟨child, hchild, rfl⟩ := Option.map_eq_some_iff.1 hd
      rw [child_eq w] at hchild
      obtain ⟨hlt, hget⟩ := List.getElem?_eq_some_iff.1 hchild
      have hidx : (children fs dir).idxOf child = pos - 2 := by
        rw [← hget]
        exact (children_nodup w dir).idxOf_getElem _ hlt
      constructor
      · intro h
        simp only [isRecordOf, Bool.and_eq_true, decide_eq_true_eq] at h
        obtain rfl : child = c := by omega
        omega
      · intro h
        have hcl := List.idxOf_lt_length_iff.2 hc
        have hcget : (children fs dir)[(children fs dir).idxOf c]? = some c := by
          rw [List.getElem?_eq_getElem hcl, List.getElem_idxOf hcl]
        rw [show (children fs dir).idxOf c = pos - 2 by omega, hchild] at hcget
        obtain rfl := Option.some.inj hcget
        simp only [isRecordOf, Bool.and_eq_true, decide_eq_true_eq]
        exact ⟨⟨by omega, trivial⟩, trivial⟩

theorem getdentsLoop_times {c : Nat} (hc : c ∈ children fs dir) (count fuel pos written : Nat) (out : Mem) :
    (if (children fs dir).idxOf c + 2 < pos then 1 else 0) +
        ((getdentsLoop fs dir count fuel pos written out).records.map Prod.snd).countP
          (isRecordOf (c, cstr (fs.nodes c).name)) =
      if (children fs dir).idxOf c + 2 < (getdentsLoop fs dir count fuel pos written out).pos then 1 else 0 := by
  induction fuel generalizing pos written out with
  | zero => rfl
  | succ fuel ih =>
    cases hd : direntAt fs dir pos with
    | none => simp only [getdentsLoop, hd, List.map_nil, List.countP_nil, Nat.add_zero]
    | some d =>
      by_cases hfull : count < written + d.reclen
      · simp only [getdentsLoop, hd, if_pos hfull, List.map_nil, List.countP_nil, Nat.add_zero]
      · have hrest := ih (pos + 1) (written + d.reclen) (storeDirent out written d)
        simp only [getdentsLoop, hd, if_neg hfull, List.map_cons, List.countP_cons, isRecordOf_iff w hd hc]
        rw [← hrest]
        by_cases hlt : (children fs dir).idxOf c + 2 < pos
        · rw [if_pos hlt, if_neg (by omega), if_pos (by omega)]
          omega
        · rw [if_neg hlt]
          by_cases heq : pos = (children fs dir).idxOf c + 2
          · rw [if_pos heq, if_pos (by omega)]
            omega
          · rw [if_neg heq, if_neg (by omega), Nat.add_zero]

omit w in
theorem getdentsLoop_end (count fuel pos written : Nat) (out : Mem) (hfuel : count < fuel + written) :
    (direntAt fs dir (getdentsLoop fs dir count fuel pos written out).pos = none ∨
      ∃ d, direntAt fs dir (getdentsLoop fs dir count fuel pos written out).pos = some d ∧
        count < (getdentsLoop fs dir count fuel pos written out).written + d.reclen) ∧
      written ≤ (getdentsLoop fs dir count fuel pos written out).written := by
  induction fuel generalizing pos written out with
  | zero =>
    refine ⟨?_, Nat.le_refl _⟩
    cases hd : direntAt fs dir pos with
    | none => exact .inl hd
    | some d => exact .inr ⟨d, hd, by simp only [getdentsLoop]; omega⟩
  | succ fuel ih =>
    cases hd : direntAt fs dir pos with
    | none =>
      simp only [getdentsLoop, hd]
      exact ⟨.inl trivial, Nat.le_refl _⟩
    | some d =>
      have hpos : 0 < d.reclen := by
        have := d.reclen_spec.2
        have := d.length_bytes
        omega
      by_cases hfull : count < written + d.reclen
      · simp only [getdentsLoop, hd, if_pos hfull]
        exact ⟨.inr ⟨d, rfl, hfull⟩, Nat.le_refl _⟩
      · obtain ⟨hend, hle⟩ := ih (pos + 1) (written + d.reclen) (storeDirent out written d) (by omega)
        simp only [getdentsLoop, hd, if_neg hfull]
        exact ⟨hend, by omega⟩

theorem direntAt_none {pos : Nat} (h : direntAt fs dir pos = none) : (children fs dir).length + 2 ≤ pos := by
  unfold direntAt at h
  split at h
  · simp at h
  · split at h
    · simp at h
    · rw [Option.map_eq_none_iff, child_eq w, List.getElem?_eq_none_iff] at h
      omega

end Call

theorem reclen_le {fs : Fs} (h : Sound fs) {dir pos : Nat} {d : Dirent} (hd : direntAt fs dir pos = some d) :
    d.reclen ≤ 280 := by
  obtain ⟨⟨kids, free, w⟩, hn⟩ := h
  have hname : d.name.length < RAMFS64_NAME_MAX := by
    unfold direntAt at hd
    split at hd
    · obtain rfl := Option.some.inj hd
      exact (show DOT.length < RAMFS64_NAME_MAX by decide)
    · split at hd
      · obtain rfl := Option.some.inj hd
        exact (show DOTDOT.length < RAMFS64_NAME_MAX by decide)
      · obtain ⟨child, hchild, rfl⟩ := Option.map_eq_some_iff.1 hd
        rw [child_eq w] at hchild
        exact Nat.lt_of_le_of_lt (List.takeWhile_sublist _).length_le
          (hn child (children_used w dir (List.mem_of_getElem? hchild)))
  simp only [Dirent.reclen, RAMFS64_NAME_MAX] at hname ⊢
  omega

/-! ## Every run -/

/-- Where the reading stands: a lasting entry has been returned once if it is
before the position, and not at all otherwise. -/
structure World.Inv (dir : Nat) (w : World) : Prop where
  sound : Sound w.fs
  lasting : ∀ e ∈ w.lasting, e ∈ entries w.fs dir
  times : ∀ e ∈ w.lasting, w.times e = if (children w.fs dir).idxOf e.1 + 2 < w.pos then 1 else 0
  wellFormed : ∀ c, w.last = some c → WellFormed c.count c.listing
  ended : ∀ c, w.last = some c → c.ret = 0 → (children w.fs dir).length + 2 ≤ w.pos

variable {dir : Nat} {w : World}

theorem mem_entries {fs : Fs} {e : Nat × List UInt8} (h : e ∈ entries fs dir) :
    e.1 ∈ children fs dir ∧ e = (e.1, cstr (fs.nodes e.1).name) := by
  obtain ⟨c, hc, rfl⟩ := List.mem_map.1 h
  exact ⟨hc, rfl⟩

theorem World.Inv.start {fs : Fs} (h : Sound fs) (dir : Nat) : (World.start fs dir).Inv dir where
  sound := h
  lasting e he := by
    simp only [World.start] at he ⊢
    exact he
  times e _ := by simp [World.start, World.times]
  wellFormed c hc := by
    have hlast : (World.start fs dir).last = none := rfl
    simp [hlast] at hc
  ended c hc := by
    have hlast : (World.start fs dir).last = none := rfl
    simp [hlast] at hc

theorem World.Inv.exact (h : w.Inv dir) : w.Exact dir where
  once e he := by
    rw [h.times e he]
    split <;> omega
  wellFormed := h.wellFormed
  ended c hc hret := by
    have hend := h.ended c hc hret
    refine ⟨fun e he => ?_, hend⟩
    have hlt := List.idxOf_lt_length_iff.2 (mem_entries (h.lasting e he)).1
    rw [h.times e he, if_pos (by omega)]

theorem World.Inv.step (h : w.Inv dir) {op : ReadOp} (hok : w.Steady dir op) : (w.step dir op).Inv dir := by
  cases op with
  | tree op =>
    refine ⟨h.sound.call op, fun e he => ?_, fun e he => ?_, by simp [World.step], by simp [World.step]⟩
    · exact of_decide_eq_true (List.mem_filter.1 he).2
    · obtain ⟨he, hin⟩ := List.mem_filter.1 he
      have hside := hok e.1 (mem_entries (h.lasting e he)).1 (mem_entries (of_decide_eq_true hin)).1
      have htimes := h.times e he
      refine Eq.trans htimes (if_congr hside rfl rfl)
  | getdents count out =>
    obtain ⟨⟨kids, free, hw⟩, -⟩ := h.sound
    have hwell := getdents64_wellFormed w.fs dir w.pos count out
    refine ⟨h.sound, h.lasting, fun e he => ?_, fun c hc => ?_, fun c hc hret => ?_⟩
    · obtain ⟨hc, heq⟩ := mem_entries (h.lasting e he)
      have htimes := h.times e he
      simp only [World.times, World.step, List.countP_append] at htimes ⊢
      rw [htimes]
      by_cases hdir : ramfs64IsDir w.fs dir = true
      · simp only [getdents64, if_pos hdir]
        have := getdentsLoop_times hw hc count (count + 1) w.pos 0 out
        rw [← heq] at this
        exact this
      · simp [getdents64, hdir]
    · obtain rfl := Option.some.inj hc
      exact hwell
    · obtain rfl := Option.some.inj hc
      have hret : (getdents64 w.fs dir w.pos count out).1 = 0 := hret
      show (children w.fs dir).length + 2 ≤ (getdents64 w.fs dir w.pos count out).2.pos
      by_cases hdir : ramfs64IsDir w.fs dir = true
      · simp only [getdents64, if_pos hdir] at hret ⊢
        obtain ⟨hend, -⟩ := @getdentsLoop_end w.fs dir count (count + 1) w.pos 0 out (by omega)
        refine direntAt_none hw ?_
        obtain hnone | ⟨d, hd, hfull⟩ := hend
        · exact hnone
        · have hroom := hok _ d hd
          omega
      · simp [getdents64, hdir] at hret

/-- In a run of reads and of calls on the tree, every entry that stays in the
directory is returned once by the time a read returns 0, as long as no call
moves an entry that stays across the position, and every buffer has room for
any one record. -/
theorem reading_exact (env : Env) (mem : Nat → Node64) (before : List TreeOp) (dir : Nat) (ops : List ReadOp)
    (h : (reading dir).Guarded (World.Steady dir) (World.start (tree.run (ramfs64Init env mem) before) dir) ops) :
    World.Exact dir ((reading dir).run (World.start (tree.run (ramfs64Init env mem) before) dir) ops) := by
  have hsound : Sound (tree.run (ramfs64Init env mem) before) :=
    tree.invariant_of_step (fun _ op hs _ => hs.call op) before _ (sound_init env mem) (tree.guarded_true _ before)
  exact ((reading dir).invariant_of_step (fun _ _ hi hok => hi.step hok) ops _ (World.Inv.start hsound dir) h).exact

/-! ## Three files -/

/-- `/tmp` is node 1; the files come to be nodes 9, 10 and 11. -/
def threeFiles : List TreeOp :=
  [.create (text "/tmp/a") false, .create (text "/tmp/b") false, .create (text "/tmp/c") false]

def threeFilesStart : World := World.start (tree.run (ramfs64Init roomy fun _ => blankNode) threeFiles) 1

/-- A buffer with room for any record. -/
def aPart : ReadOp := .getdents 280 fun _ => 0

/-- A file is made before the directory is read. -/
def madeBefore : List ReadOp := [.tree (.create (text "/tmp/d") false), aPart, aPart]

theorem madeBefore_exact : World.Exact 1 ((reading 1).run threeFilesStart madeBefore) := by
  have hsound : Sound (tree.run (ramfs64Init roomy fun _ => blankNode) threeFiles) :=
    tree.invariant_of_step (fun _ op hs _ => hs.call op) threeFiles _ (sound_init _ _) (tree.guarded_true _ threeFiles)
  have hmade := hsound.call (.create (text "/tmp/d") false)
  refine reading_exact roomy (fun _ => blankNode) threeFiles 1 madeBefore ⟨?_, ?_, ?_, trivial⟩
  · have hnone : ∀ c ∈ children threeFilesStart.fs 1, ¬threeFilesStart.Read 1 c :=
      fun c _ => Nat.not_lt_zero _
    exact fun c hc hc' => iff_of_false (hnone c hc) (Nat.not_lt_zero _)
  · exact fun pos d hd => reclen_le hmade hd
  · exact fun pos d hd => reclen_le hmade hd

/-- A buffer with room for ".", ".." and one file. -/
def firstPart : ReadOp := .getdents 80 fun _ => 0

/-- One file is read and removed, and the rest of the directory is read. -/
def readAndRemove : List ReadOp := [firstPart, .tree (.unlink (text "/tmp/c")), aPart, aPart]

set_option maxRecDepth 20000

/-- The file `b` is in the directory all the time and is never returned. -/
theorem readAndRemove_skips :
    (10, text "b") ∈ ((reading 1).run threeFilesStart readAndRemove).lasting ∧
      ((reading 1).run threeFilesStart readAndRemove).times (10, text "b") = 0 ∧
      ((reading 1).run threeFilesStart readAndRemove).last.map GetdentsCall.ret = some 0 := by
  decide

end NovarisOS.Ramfs64
