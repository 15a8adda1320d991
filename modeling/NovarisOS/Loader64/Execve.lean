/-
NovarisOS.Loader64.Execve — `do_execve` of `kernel/syscall64.c`, and when a
program gets the argument list it was started with.

The lists are copied into the kernel before anything else: more than
EXECVE_MAX_ARGS strings, or one of EXECVE_ARG_MAX bytes, and the call is
refused with -E2BIG.
-/
import NovarisOS.Loader64.Stack
import NovarisOS.Loader64.ElfTheorems
import NovarisOS.Signal64.Signals

namespace NovarisOS.Loader64.Execve

open Function (update update_of_ne update_self)
open Checked Elf Stack

abbrev EXECVE_MAX_ARGS : Nat := 128
abbrev EXECVE_ARG_MAX : Nat := 512
abbrev PROC64_PATH_MAX : Nat := 1024
abbrev COMM_MAX : Nat := 16
abbrev STACK_TOP : Nat := 0x7FFFFFFF0000
abbrev STACK_PAGES : Nat := 64
abbrev EXE_BIAS : Nat := 0x555555554000
abbrev INTERP_BASE : Nat := 0x7FFFF7000000
abbrev USPACE64_MMAP_BASE : Nat := 0x100000000000

/-- The lowest byte of the stack. -/
def STACK_LOW : Nat := STACK_TOP - STACK_PAGES * PAGE64_SIZE

inductive Errno where
  | noent
  | toobig
  | noexec
  | nomem
  deriving DecidableEq, Repr

/-- A descriptor, as far as execve looks at it. -/
structure Descriptor where
  used : Bool
  cloexec : Bool

/-- The process that makes the call. -/
structure Caller where
  space : Space
  brkBase : Nat
  brkCurrent : Nat
  mmapNext : Nat
  nresv : Nat
  clearChildTid : Nat
  cwd : Text
  exePath : Text
  comm : Text
  fds : List Descriptor
  handlers : Nat → Signal64.Action
  sasSp : Word
  sasSize : Word

/-- What is asked of others: `files` are the contents of the node at a path,
`dirt` is what the frames of the stack hold. -/
structure System extends Kernel where
  files : Text → Option File64
  createOk : Bool
  stackFrame : Nat → Nat
  stackMapOk : Nat → Bool
  dirt : Mem

inductive Outcome where
  | refused (e : Errno)
  | entered (rip rsp : Nat)

/-! ## Before the old image goes -/

/-- `abs_path`, of which only the success is told from the errors. -/
def absPath (cwd path : Text) : Option Text :=
  if path = [] then none
  else if path.head? = some 0x2F then
    if path.length < PROC64_PATH_MAX then some path else none
  else
    let base := if cwd.getLast? = some 0x2F then cwd else cwd ++ [0x2F]
    if (base ++ path).length < PROC64_PATH_MAX then some (base ++ path) else none

/-- The loop over a list of strings, with `n` copied. -/
def copyList (n : Nat) : List Text → Option (List Text)
  | [] => some []
  | s :: ss =>
    if n ≥ EXECVE_MAX_ARGS then none
    else if s.length ≥ EXECVE_ARG_MAX then none
    else (copyList (n + 1) ss).map (s.take (EXECVE_ARG_MAX - 1) :: ·)

/-- What is ready to take the place of the old image. -/
structure Program where
  space : Space
  info : Info
  interp : Option Info

def Program.interpBase (p : Program) : Nat := if p.interp.isSome then INTERP_BASE else 0

/-- The page `i` of the stack, from the top. -/
def stackPage (i : Nat) : Nat := STACK_TOP - (i + 1) * PAGE64_SIZE

/-- The loop over the pages of the stack, with `n` to go. -/
def mapStack (y : System) : (n i : Nat) → Space → Option Space
  | 0, _, s => some s
  | n + 1, i, s =>
    if y.stackFrame i = 0 ∨ !y.stackMapOk (stackPage i / PAGE64_SIZE) then none
    else mapStack y n (i + 1) { s with
      mem := s.mem.copyAt (stackPage i) (y.dirt.shift (stackPage i)) PAGE64_SIZE
      present := update s.present (stackPage i / PAGE64_SIZE) true
      writable := update s.writable (stackPage i / PAGE64_SIZE) true }

def withStack (y : System) (p : Program) : Except Errno Program :=
  match mapStack y STACK_PAGES 0 p.space with
  | none => .error .nomem
  | some space => .ok { p with space }

/-- What `vmspace64_create` makes. -/
def freshSpace : Space := ⟨fun _ => 0, fun _ => false, fun _ => false, 0⟩

/-- The interpreter that the program names. -/
def loadInterp (y : System) (f : File) (space : Space) : Except Stop (Except Errno (Info × Space)) := do
  match ← elf64Interp f PROC64_PATH_MAX with
  | none => .ok (.error .noexec)
  | some kinterp =>
    match y.files (kinterp.takeWhile (· ≠ 0)) with
    | none => .ok (.error .noent)
    | some g =>
      if g.size = 0 then .ok (.error .noexec)
      else
        match ← elf64LoadAt y.toKernel g.toFile INTERP_BASE true space with
        | (_, none, _) => .ok (.error .noexec)
        | (_, some interp, space) => .ok (.ok (interp, space))

/-- The part of `do_execve` between the copying of the lists and the line past
which there is no caller. -/
def loadProgram (y : System) (kpath : Text) : Except Stop (Except Errno Program) :=
  match y.files kpath with
  | none => .ok (.error .noent)
  | some f =>
    if f.size = 0 then .ok (.error .noexec)
    else if !y.createOk then .ok (.error .nomem)
    else do
      let type ← f.get16 16
      match ← elf64LoadAt y.toKernel f.toFile (if type = ET_DYN then EXE_BIAS else 0) true freshSpace with
      | (_, none, _) => .ok (.error .noexec)
      | (_, some info, space) =>
        if info.hasInterp then
          match ← loadInterp y f.toFile space with
          | .error e => .ok (.error e)
          | .ok (interp, space) => .ok (withStack y ⟨space, info, some interp⟩)
        else .ok (withStack y ⟨space, info, none⟩)

/-! ## The new image -/

/-- `signal64_exec`, for one handler. -/
def execHandler (h : Signal64.Action) : Signal64.Action :=
  if h.handler = Signal64.SIG64_IGN then h else .default

/-- What follows the last slash. -/
def baseName (path : Text) : Text := (path.reverse.takeWhile (· ≠ 0x2F)).reverse

def replace (c : Caller) (kpath : Text) (p : Program) (mem : Mem) : Caller :=
  { c with
    space := { p.space with mem }
    brkBase := p.info.brkStart
    brkCurrent := p.info.brkStart
    mmapNext := USPACE64_MMAP_BASE
    nresv := 0
    clearChildTid := 0
    exePath := kpath
    comm := (baseName kpath).take (COMM_MAX - 1)
    fds := c.fds.map fun d => if d.used && d.cloexec then { d with used := false } else d
    handlers := fun sig => execHandler (c.handlers sig)
    sasSp := 0
    sasSize := 0 }

def doExecve (y : System) (c : Caller) (path : Text) (argv envp : List Text) : Except Stop (Outcome × Caller) :=
  match absPath c.cwd path with
  | none => .ok (.refused .noent, c)
  | some kpath =>
    match copyList 0 argv with
    | none => .ok (.refused .toobig, c)
    | some kargv =>
      match copyList 0 envp with
      | none => .ok (.refused .toobig, c)
      | some kenvp => do
        match ← loadProgram y kpath with
        | .error e => .ok (.refused e, c)
        | .ok p =>
          let built := buildStack STACK_TOP kargv kenvp p.info p.interpBase p.space.mem
          .ok (.entered (p.interp.getD p.info).entry built.1, replace c kpath p built.2)

/-! ## Copying -/

section Copying

/-- A list that is not refused. -/
def Carried (ss : List Text) : Prop := ss.length ≤ EXECVE_MAX_ARGS ∧ ∀ s ∈ ss, s.length < EXECVE_ARG_MAX

variable {ss : List Text}

theorem copyList_carried {n : Nat} (hlen : n + ss.length ≤ EXECVE_MAX_ARGS)
    (hs : ∀ s ∈ ss, s.length < EXECVE_ARG_MAX) :
    copyList n ss = some ss := by
  induction ss generalizing n with
  | nil => rfl
  | cons s ss ih =>
    simp only [List.length_cons] at hlen
    have hs₁ := hs s (by simp)
    have hrest := @ih (n + 1) (by omega) fun t ht => hs t (by simp [ht])
    rw [copyList, if_neg (by omega), if_neg (by omega), hrest, List.take_of_length_le (by omega)]
    rfl

theorem copyList_refused {n : Nat} (h : n ≤ EXECVE_MAX_ARGS)
    (hnot : ¬ (n + ss.length ≤ EXECVE_MAX_ARGS ∧ ∀ s ∈ ss, s.length < EXECVE_ARG_MAX)) : copyList n ss = none := by
  induction ss generalizing n with
  | nil => simp [h] at hnot
  | cons s ss ih =>
    rw [copyList]
    split
    · rfl
    · rename_i hn
      split
      · rfl
      · rename_i hs
        rw [@ih (n + 1) (by omega)]
        · rfl
        · rintro ⟨hlen, hall⟩
          refine hnot ⟨by simp only [List.length_cons]; omega, fun t ht => ?_⟩
          rcases List.mem_cons.1 ht with rfl | ht
          · omega
          · exact hall t ht

theorem Carried.copyList (h : Carried ss) : copyList 0 ss = some ss :=
  copyList_carried (by simpa using h.1) h.2

theorem copyList_of_not_carried (h : ¬ Carried ss) : copyList 0 ss = none :=
  copyList_refused (Nat.zero_le _) fun hc => h ⟨by simpa using hc.1, hc.2⟩

end Copying

/-! ## The stack's pages -/

section Pages

variable {y : System} {s s' : Space} {n i : Nat}

theorem mapStack_keeps (h : mapStack y n i s = some s') {page : Nat} (hp : s.present page = true) :
    s'.present page = true := by
  induction n generalizing i s with
  | zero =>
    cases h
    exact hp
  | succ n ih =>
    rw [mapStack] at h
    split at h
    · cases h
    · refine ih h ?_
      dsimp only
      by_cases he : page = stackPage i / PAGE64_SIZE
      · rw [he, update_self]
      · rw [update_of_ne he]
        exact hp

theorem mapStack_maps (h : mapStack y n i s = some s') {j : Nat} (hj : i ≤ j) (hjn : j < i + n) :
    s'.present (stackPage j / PAGE64_SIZE) = true := by
  induction n generalizing i s with
  | zero => omega
  | succ n ih =>
    rw [mapStack] at h
    split at h
    · cases h
    · rcases Nat.eq_or_lt_of_le hj with rfl | hlt
      · exact mapStack_keeps h (update_self _ _ _)
      · exact ih h hlt (by omega)

theorem withStack_mapped {p p' : Program} (h : withStack y p = .ok p') {a : Nat} (hlow : STACK_LOW ≤ a)
    (htop : a < STACK_TOP) : p'.space.present (a / PAGE64_SIZE) = true := by
  rw [withStack] at h
  split at h
  · cases h
  · rename_i space hmap
    cases h
    have hpage : a / PAGE64_SIZE = stackPage ((STACK_TOP - 1 - a) / PAGE64_SIZE) / PAGE64_SIZE := by
      simp only [stackPage, STACK_LOW, STACK_TOP, STACK_PAGES, PAGE64_SIZE] at *
      omega
    rw [hpage]
    refine mapStack_maps hmap (Nat.zero_le _) ?_
    simp only [STACK_LOW, STACK_TOP, STACK_PAGES, PAGE64_SIZE] at *
    omega

theorem loadProgram_mapped {kpath : Text} {p : Program} (h : loadProgram y kpath = .ok (.ok p)) {a : Nat}
    (hlow : STACK_LOW ≤ a) (htop : a < STACK_TOP) : p.space.present (a / PAGE64_SIZE) = true := by
  have hstack : ∀ q, (Except.ok (withStack y q) : Except Stop (Except Errno Program)) = .ok (.ok p) →
      p.space.present (a / PAGE64_SIZE) = true := by
    intro q hq
    injection hq with hq
    exact withStack_mapped hq hlow htop
  unfold loadProgram at h
  split at h
  · cases h
  · split at h
    · cases h
    · split at h
      · cases h
      · rename_i f _ _ _
        cases htype : f.get16 16 with
        | error e => simp [htype, bind, Except.bind] at h
        | ok type =>
          simp only [htype, bind, Except.bind] at h
          split at h
          · cases h
          · split at h
            · cases h
            · split at h
              · split at h
                · cases h
                · split at h
                  · cases h
                  · exact hstack _ h
              · exact hstack _ h

end Pages

/-! ## The argument list -/

/-- The program can be started, whatever its arguments are. -/
def Startable (y : System) (c : Caller) (path : Text) : Prop :=
  ∃ kpath p, absPath c.cwd path = some kpath ∧ loadProgram y kpath = .ok (.ok p)

/-- The program has both lists, on a stack whose pages are mapped. -/
structure Delivered (space : Space) (rsp : Nat) (argv envp : List Text) : Prop where
  mapped : ∀ a, STACK_LOW ≤ a → a < STACK_TOP → space.present (a / PAGE64_SIZE) = true
  holds : Holds space.mem STACK_LOW STACK_TOP rsp argv envp

/-- The lists are passed on, or refused with -E2BIG; another refusal is for the
program's sake. A caller that is refused is as it was. -/
def PassedOrRefused (y : System) (c : Caller) (path : Text) (argv envp : List Text) : Outcome → Caller → Prop
  | .refused e, c' => c' = c ∧ (Startable y c path → e = .toobig)
  | .entered _ rsp, c' => Delivered c'.space rsp argv envp

section Lists

variable {y : System} {c c' : Caller} {path : Text} {argv envp : List Text} {o : Outcome}

theorem bytesOf_carried {ss : List Text} (h : Carried ss) : bytesOf (ss.take POINTERS) ≤ POINTERS * EXECVE_ARG_MAX :=
  calc bytesOf (ss.take POINTERS)
      ≤ (ss.take POINTERS).length * EXECVE_ARG_MAX := bytesOf_le fun s hs => h.2 s (List.mem_of_mem_take hs)
    _ ≤ POINTERS * EXECVE_ARG_MAX := Nat.mul_le_mul_right _ (List.length_take_le _ _)

theorem fits_of_carried (ha : Carried argv) (he : Carried envp) : Stack.Fits STACK_LOW STACK_TOP argv envp := by
  have hargs := bytesOf_carried ha
  have henvs := bytesOf_carried he
  simp only [Stack.Fits, wordsRoom, STACK_LOW, STACK_TOP, STACK_PAGES, PAGE64_SIZE, POINTERS, EXECVE_ARG_MAX] at *
  omega

theorem doExecve_cases (hrun : doExecve y c path argv envp = .ok (o, c')) (ha : Carried argv) (he : Carried envp) :
    (∃ e, o = .refused e ∧ c' = c ∧ ¬ Startable y c path) ∨
      ∃ kpath p, absPath c.cwd path = some kpath ∧ loadProgram y kpath = .ok (.ok p) ∧
        o = .entered (p.interp.getD p.info).entry
          (buildStack STACK_TOP argv envp p.info p.interpBase p.space.mem).1 ∧
        c' = replace c kpath p (buildStack STACK_TOP argv envp p.info p.interpBase p.space.mem).2 := by
  unfold doExecve at hrun
  cases hpath : absPath c.cwd path with
  | none =>
    simp only [hpath, Except.ok.injEq, Prod.mk.injEq] at hrun
    refine .inl ⟨_, hrun.1.symm, hrun.2.symm, ?_⟩
    rintro ⟨kpath, p, h, _⟩
    rw [hpath] at h
    cases h
  | some kpath =>
    simp only [hpath, ha.copyList, he.copyList] at hrun
    cases hload : loadProgram y kpath with
    | error e => simp [hload, bind, Except.bind] at hrun
    | ok r =>
      cases r with
      | error e =>
        simp only [hload, bind, Except.bind, Except.ok.injEq, Prod.mk.injEq] at hrun
        refine .inl ⟨_, hrun.1.symm, hrun.2.symm, ?_⟩
        rintro ⟨kpath', p, h₁, h₂⟩
        rw [hpath] at h₁
        cases h₁
        rw [hload] at h₂
        cases h₂
      | ok p =>
        simp only [hload, bind, Except.bind, Except.ok.injEq, Prod.mk.injEq] at hrun
        exact .inr ⟨kpath, p, rfl, hload, hrun.1.symm, hrun.2.symm⟩

theorem doExecve_refused (hrun : doExecve y c path argv envp = .ok (o, c')) (h : ¬ (Carried argv ∧ Carried envp)) :
    ∃ e, o = .refused e ∧ c' = c ∧ (Startable y c path → e = .toobig) := by
  unfold doExecve at hrun
  cases hpath : absPath c.cwd path with
  | none =>
    simp only [hpath, Except.ok.injEq, Prod.mk.injEq] at hrun
    refine ⟨_, hrun.1.symm, hrun.2.symm, ?_⟩
    rintro ⟨kpath, p, h, _⟩
    rw [hpath] at h
    cases h
  | some kpath =>
    by_cases ha : Carried argv
    · have he : ¬ Carried envp := fun he => h ⟨ha, he⟩
      simp only [hpath, ha.copyList, copyList_of_not_carried he, Except.ok.injEq, Prod.mk.injEq] at hrun
      exact ⟨_, hrun.1.symm, hrun.2.symm, fun _ => rfl⟩
    · simp only [hpath, copyList_of_not_carried ha, Except.ok.injEq, Prod.mk.injEq] at hrun
      exact ⟨_, hrun.1.symm, hrun.2.symm, fun _ => rfl⟩

/-- A program that starts has its lists if there are at most sixteen strings
in each. -/
theorem execve_argument_list_iff (hrun : doExecve y c path argv envp = .ok (o, c')) :
    PassedOrRefused y c path argv envp o c' ↔
      (Startable y c path → Carried argv → Carried envp → argv.length ≤ POINTERS ∧ envp.length ≤ POINTERS) := by
  by_cases hcarried : Carried argv ∧ Carried envp
  · obtain ⟨ha, he⟩ := hcarried
    rcases doExecve_cases hrun ha he with ⟨e, rfl, rfl, hnot⟩ | ⟨kpath, p, hpath, hload, rfl, rfl⟩
    · exact ⟨fun _ hs => absurd hs hnot, fun _ => ⟨rfl, fun hs => absurd hs hnot⟩⟩
    · have hstack := @buildStack_holds_iff STACK_LOW STACK_TOP p.interpBase argv envp p.info p.space.mem
        (fits_of_carried ha he) (by decide)
      constructor
      · exact fun hd _ _ _ => hstack.1 hd.holds
      · exact fun hlen =>
          ⟨fun a => loadProgram_mapped hload, hstack.2 (hlen ⟨kpath, p, hpath, hload⟩ ha he)⟩
  · obtain ⟨e, rfl, rfl, herr⟩ := doExecve_refused hrun hcarried
    exact ⟨fun _ _ ha he => absurd ⟨ha, he⟩ hcarried, fun _ => ⟨rfl, herr⟩⟩

end Lists

/-! ## A program of a header alone -/

def blank : Mem := fun _ => 0

/-- An executable without segments. -/
def headerOnly : File64 where
  image := blank.wr32 0 0x464C457F |>.wr16 4 0x0102 |>.wr16 16 ET_EXEC |>.wr16 18 EM_X86_64 |>.wr64 24 0x400000
    |>.wr64 32 64 |>.wr16 54 56
  size := 64
  size_lt := by decide

def system : System :=
  { roomy with
    files := fun _ => some headerOnly, createOk := true, stackFrame :=
      fun _ => PAGE64_SIZE, stackMapOk := fun _ => true
    dirt := fun _ => 0xAA }

def shell : Caller :=
  ⟨freshSpace, 0, 0, 0, 0, 0, [0x2F], [], [], [], fun _ => .default, 0, 0⟩

/-- The count of arguments that a new program finds. -/
def argcOf : Except Stop (Outcome × Caller) → Option Nat
  | .ok (.entered _ rsp, c) => some (c.space.mem.rd64 rsp)
  | _ => none

theorem exists_of_argcOf {x : Except Stop (Outcome × Caller)} {n : Nat} (h : argcOf x = some n) :
    ∃ rip rsp c, x = .ok (.entered rip rsp, c) ∧ c.space.mem.rd64 rsp = n := by
  unfold argcOf at h
  split at h
  · exact ⟨_, _, _, rfl, by simpa using h⟩
  · cases h

/-- `/a` with an argument and a variable. -/
theorem execve_argument_list_small :
    ∃ o c', doExecve system shell [0x2F, 0x61] [[0x61], []] [[0x42, 0x3D]] = .ok (o, c') ∧
    PassedOrRefused system shell [0x2F, 0x61] [[0x61], []] [[0x42, 0x3D]] o c' := by
  have hargc : argcOf (doExecve system shell [0x2F, 0x61] [[0x61], []] [[0x42, 0x3D]]) = some 2 := by decide +kernel
  obtain ⟨rip, rsp, c', hrun, _⟩ := exists_of_argcOf hargc
  exact ⟨_, c', hrun, (execve_argument_list_iff hrun).2 fun _ _ _ => by decide⟩

/-- Seventeen arguments are accepted, and the last one is dropped. -/
theorem execve_drops_argument :
    ∃ o c', doExecve system shell [0x2F, 0x61] (List.replicate 17 [0x61]) [] = .ok (o, c') ∧
      ¬ PassedOrRefused system shell [0x2F, 0x61] (List.replicate 17 [0x61]) [] o c' := by
  have hargc : argcOf (doExecve system shell [0x2F, 0x61] (List.replicate 17 [0x61]) []) = some 16 := by decide +kernel
  obtain ⟨rip, rsp, c', hrun, hrd⟩ := exists_of_argcOf hargc
  refine ⟨_, c', hrun, fun hd => ?_⟩
  have hcount := hd.holds.argc
  rw [hrd] at hcount
  cases hcount

end NovarisOS.Loader64.Execve
