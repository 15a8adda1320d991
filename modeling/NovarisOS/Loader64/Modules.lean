/-
NovarisOS.Loader64.Modules — what a failed load of a 64-bit DLL leaves behind.

The table of modules answers three questions: where a module is
(`pe64_module_base`), what it exports (`pe64_export_by_base`), and what a name
taken from it is bound to (`module_export`). The answers are read from the
export tables in memory, of modules whose loading has begun.

`load_common` gives nothing back.
-/
import NovarisOS.Loader64.ElfTheorems
import NovarisOS.Loader64.Pe

namespace NovarisOS.Loader64.Pe

open Function (update update_of_ne update_self)
open Checked

/-! ## The table of modules -/

def lower (c : UInt8) : UInt8 := if 0x41 ≤ c ∧ c ≤ 0x5A then c + 32 else c

/-- `name_matches`, of names without NUL. -/
def nameMatches (a b : List UInt8) : Bool := a.map lower == b.map lower

def moduleBase (modules : List Module) (name : List UInt8) : Nat :=
  match modules.find? fun m => nameMatches m.name name with
  | none => 0
  | some m => m.base

namespace Module

variable (m : Module) (mem : Mem)

/-- The field at `off` of the module's export directory. -/
def exportField (off : Nat) : Nat := mem.rd32 (u64 (m.base + m.exportRva + off))

def ordinalBase : Nat := m.exportField mem 16
def numberOfFunctions : Nat := m.exportField mem 20
def numberOfNames : Nat := m.exportField mem 24

def functionRva (idx : Nat) : Nat := mem.rd32 (u64 (m.base + m.exportField mem 28 + 4 * idx))

/-- The name `i` is `fn`. -/
def nameIs (i : Nat) (fn : List UInt8) : Bool :=
  mem.bytes (u64 (m.base + mem.rd32 (u64 (m.base + m.exportField mem 32 + 4 * i)))) (fn.length + 1) == fn ++ [0]

def nameOrdinal (i : Nat) : Nat := mem.rd16 (u64 (m.base + m.exportField mem 36 + 2 * i))

/-- The index of a function in the table, by its name or by its ordinal. -/
def exportIndex (fn : Option (List UInt8)) (ordinal : Nat) : Option Nat :=
  match fn with
  | none =>
    if ordinal < m.ordinalBase mem then none
    else if ordinal - m.ordinalBase mem ≥ m.numberOfFunctions mem then none
    else some (ordinal - m.ordinalBase mem)
  | some fn =>
    match (List.range (m.numberOfNames mem)).find? fun i => m.nameIs mem i fn with
    | none => none
    | some i => if m.nameOrdinal mem i ≥ m.numberOfFunctions mem then none else some (m.nameOrdinal mem i)

/-- `module_export_ex` for the module that was selected. -/
def exported (fn : Option (List UInt8)) (ordinal : Nat) : Nat :=
  if m.exportSize = 0 then 0
  else
    match m.exportIndex mem fn ordinal with
    | none => 0
    | some idx =>
      -- a forwarder
      if m.functionRva mem idx ≥ m.exportRva ∧ m.functionRva mem idx < u32 (m.exportRva + m.exportSize) then 0
      else u64 (m.base + m.functionRva mem idx)

end Module

def moduleExport (modules : List Module) (mem : Mem) (dll : List UInt8) (fn : Option (List UInt8))
    (ordinal : Nat) : Nat :=
  match modules.find? fun m => nameMatches m.name dll with
  | none => 0
  | some m => m.exported mem fn ordinal

def exportByBase (modules : List Module) (mem : Mem) (base : Nat) (fn : List UInt8) : Nat :=
  match modules.find? fun m => m.base == base with
  | none => 0
  | some m => m.exported mem (some fn) 0

/-! ## Calls -/

/-- The address spaces, and the modules loaded so far. -/
structure World where
  spaces : Nat → Space
  modules : List Module

/-- A call of `pe64_load_dll`; `space` is the number of the space. -/
structure Call where
  system : System
  file : File64
  name : List UInt8
  bias : Nat
  space : Nat

/-- The call returns `r`. -/
def Loads (c : Call) (w : World) (r : Result) (w' : World) : Prop :=
  ∃ n s, steps c.system c.file.toFile (some c.name) c.bias n (start (w.spaces c.space) w.modules) = .ok s ∧
    s.phase = .done r ∧ w' = ⟨update w.spaces c.space s.space, s.modules⟩

/-- A call, and what was before and after it. -/
structure Event where
  call : Call
  before : World
  result : Result
  after : World

/-- Calls one after the other. -/
inductive Run : World → List Event → World → Prop
  | nil (w : World) : Run w [] w
  | cons {c : Call} {w w' w'' : World} {r : Result} {es : List Event} :
      Loads c w r w' → Run w' es w'' → Run w (⟨c, w, r, w'⟩ :: es) w''

/-- Nothing is left behind: as many modules, the same answers, and no other
pages. -/
structure Unchanged (w w' : World) : Prop where
  count : w'.modules.length = w.modules.length
  base : ∀ name, moduleBase w'.modules name = moduleBase w.modules name
  byBase : ∀ space base fn,
    exportByBase w'.modules (w'.spaces space).mem base fn = exportByBase w.modules (w.spaces space).mem base fn
  imports : ∀ space dll fn ordinal,
    moduleExport w'.modules (w'.spaces space).mem dll fn ordinal =
      moduleExport w.modules (w.spaces space).mem dll fn ordinal
  pages : ∀ space p, (w'.spaces space).present p = (w.spaces space).present p

/-- The address of the page `k` that `map_pages` looks at. -/
def Image.page (img : Image) (k : Nat) : Nat := img.base + k * PAGE64_SIZE

/-- `k` is the first page of the image that is not there. -/
def FirstMissing (img : Image) (s : Space) (k : Nat) : Prop :=
  img.page k < u64 img.stop ∧ (∀ j < k, s.present (img.page j / PAGE64_SIZE) = true) ∧
    s.present (img.page k / PAGE64_SIZE) = false

/-- There is nothing to put behind the page. -/
def CannotMap (y : System) (s : Space) (p : Nat) : Prop := y.frame s.asked = 0 ∨ y.mapOk p = false

/-- The call is refused by its headers, or there is nothing to put behind the
first page that is not there. -/
def RefusedEarly (c : Call) (w : World) : Prop :=
  (∃ r, parse c.file.toFile c.bias = .ok (.error r)) ∨
    ∃ img k, parse c.file.toFile c.bias = .ok (.ok img) ∧ FirstMissing img (w.spaces c.space) k ∧
      CannotMap c.system (w.spaces c.space) (img.page k / PAGE64_SIZE)

/-! ## Steps -/

section Steps

variable {y : System} {f : File} {name : Option (List UInt8)} {bias : Nat} {s t t' : State}

theorem steps_done {r : Result} (h : s.phase = .done r) (n : Nat) : steps y f name bias n s = .ok s := by
  induction n with
  | zero => rfl
  | succ n ih =>
    have hstep : step y f name bias s = .ok s := by simp [step, h]
    rw [steps, hstep]
    exact ih

theorem steps_add (n m : Nat) (s : State) :
    steps y f name bias (n + m) s = steps y f name bias n s >>= steps y f name bias m := by
  induction n generalizing s with
  | zero =>
    rw [Nat.zero_add]
    rfl
  | succ n ih =>
    rw [Nat.succ_add, steps, steps]
    cases step y f name bias s with
    | error e => rfl
    | ok s' => exact ih s'

theorem steps_unique {n m : Nat} {r r' : Result} (h : steps y f name bias n s = .ok t) (ht : t.phase = .done r)
    (h' : steps y f name bias m s = .ok t') (ht' : t'.phase = .done r') : t = t' := by
  have h₁ : steps y f name bias (n + m) s = .ok t := by
    rw [steps_add, h]
    exact steps_done ht m
  have h₂ : steps y f name bias (n + m) s = .ok t' := by
    rw [Nat.add_comm, steps_add, h']
    exact steps_done ht' n
  rw [h₁] at h₂
  injection h₂

theorem steps_next {n : Nat} {s' : State} (h : step y f name bias s = .ok s') :
    steps y f name bias (n + 1) s = steps y f name bias n s' := by
  rw [steps, h]
  rfl

theorem steps_map {va : Nat} (hp : s.phase = .mapPages va) (k : Nat)
    (hthere : ∀ j < k, va + j * PAGE64_SIZE < u64 s.img.stop ∧ s.space.present
      ((va + j * PAGE64_SIZE) / PAGE64_SIZE) = true) :
    steps y f name bias k s = .ok (s.goTo (.mapPages (va + k * PAGE64_SIZE))) := by
  induction k with
  | zero => simp [steps, State.goTo, ← hp]
  | succ k ih =>
    obtain ⟨hlt, hpresent⟩ := hthere k (Nat.lt_succ_self k)
    have hstep : step y f name bias (s.goTo (.mapPages (va + k * PAGE64_SIZE))) =
        .ok (s.goTo (.mapPages (va + k * PAGE64_SIZE + PAGE64_SIZE))) := by
      simp [step, stepMap, State.goTo, hlt, hpresent]
    rw [steps_add, ih fun j hj => hthere j (Nat.lt_succ_of_lt hj), Nat.succ_mul, ← Nat.add_assoc]
    exact steps_next hstep

end Steps

/-! ## Calls that leave nothing -/

section Failures

variable {c : Call} {w w' : World} {r : Result}

/-- The state at the beginning of the call. -/
def Call.begin (c : Call) (w : World) : State := start (w.spaces c.space) w.modules

/-- `n` steps of the call. -/
def Call.steps (c : Call) (n : Nat) (s : State) : Except Stop State :=
  Pe.steps c.system c.file.toFile (some c.name) c.bias n s

/-- The loop over the pages, at `va`. -/
def Call.mapping (c : Call) (w : World) (img : Image) (va : Nat) : State :=
  { c.begin w with img, phase := .mapPages va }

theorem Call.step_parse {x : Except Result Image} (hparse : parse c.file.toFile c.bias = .ok x) :
    step c.system c.file.toFile (some c.name) c.bias (c.begin w) =
      .ok (match x with
        | .error r => (c.begin w).goTo (.done r)
        | .ok img => c.mapping w img img.base) := by
  simp only [step, Call.begin, start, hparse]
  cases x with
  | error r => rfl
  | ok img => rfl

theorem FirstMissing.there {img : Image} {s : Space} {k : Nat} (h : FirstMissing img s k) :
    ∀ j < k, img.base + j * PAGE64_SIZE < u64 img.stop ∧
      s.present ((img.base + j * PAGE64_SIZE) / PAGE64_SIZE) = true := by
  intro j hj
  have hlt : j * PAGE64_SIZE ≤ k * PAGE64_SIZE := Nat.mul_le_mul_right _ (Nat.le_of_lt hj)
  exact ⟨Nat.lt_of_le_of_lt (Nat.add_le_add_left hlt _) h.1, h.2.1 j hj⟩

theorem Call.steps_missing {img : Image} {k : Nat} (hparse : parse c.file.toFile c.bias = .ok (.ok img))
    (hk : FirstMissing img (w.spaces c.space) k) (n : Nat) :
    c.steps (k + n + 1) (c.begin w) = c.steps n (c.mapping w img (img.page k)) := by
  have hpages := @steps_map c.system c.file.toFile (some c.name) c.bias
      (c.mapping w img img.base) img.base rfl k hk.there
  rw [Call.steps, steps_next (c.step_parse hparse), steps_add, hpages]
  rfl

/-- The call ends with `r` and has changed neither the modules nor the space. -/
def Call.EndsAsBegun (c : Call) (w : World) (r : Result) : Prop :=
  ∃ n t, c.steps n (c.begin w) = .ok t ∧ t.phase = .done r ∧ t.modules = w.modules ∧
    t.space.present = (w.spaces c.space).present ∧ t.space.mem = (w.spaces c.space).mem

theorem Call.ends_refused (hparse : parse c.file.toFile c.bias = .ok (.error r)) : c.EndsAsBegun w r :=
  ⟨1, (c.begin w).goTo (.done r), steps_next (c.step_parse hparse), rfl, rfl, rfl, rfl⟩

theorem Call.ends_missing {img : Image} {k : Nat} (hparse : parse c.file.toFile c.bias = .ok (.ok img))
    (hk : FirstMissing img (w.spaces c.space) k)
    (hcannot : CannotMap c.system (w.spaces c.space) (img.page k / PAGE64_SIZE)) : c.EndsAsBegun w .nomem := by
  have hor : c.system.frame (w.spaces c.space).asked = 0 ∨ (!c.system.mapOk (img.page k / PAGE64_SIZE)) = true := by
    simpa [CannotMap] using hcannot
  have hstep : step c.system c.file.toFile (some c.name) c.bias (c.mapping w img (img.page k)) =
      .ok { c.mapping w img (img.page k) with
        phase := .done .nomem, space := { w.spaces c.space with asked := (w.spaces c.space).asked + 1 } } :=
    (if_pos hk.1).trans ((if_neg (Bool.eq_false_iff.1 hk.2.2)).trans (if_pos hor))
  have hsteps := (c.steps_missing hparse hk 1).trans (steps_next hstep)
  exact ⟨k + 1 + 1, _, hsteps, rfl, rfl, rfl, rfl⟩

theorem RefusedEarly.ends (h : RefusedEarly c w) : ∃ r, c.EndsAsBegun w r := by
  rcases h with ⟨r, hparse⟩ | ⟨img, k, hparse, hk, hcannot⟩
  · exact ⟨r, c.ends_refused hparse⟩
  · exact ⟨.nomem, c.ends_missing hparse hk hcannot⟩

theorem Call.EndsAsBegun.loads (h : c.EndsAsBegun w r) :
    ∃ w', Loads c w r w' ∧ w'.modules = w.modules ∧ ∀ k, (w'.spaces k).present = (w.spaces k).present := by
  obtain ⟨n, t, hsteps, hphase, hmodules, hpresent, -⟩ := h
  refine ⟨_, ⟨n, t, hsteps, hphase, rfl⟩, hmodules, fun k => ?_⟩
  dsimp only
  by_cases hk : k = c.space
  · subst hk
    rw [update_self, hpresent]
  · rw [update_of_ne hk]

theorem RefusedEarly.unchanged (h : RefusedEarly c w) (hl : Loads c w r w') : Unchanged w w' := by
  obtain ⟨n, s, hs, hdone, rfl⟩ := hl
  obtain ⟨r', m, t, ht, hdone', hmodules, hpresent, hmem⟩ := h.ends
  obtain rfl : s = t := steps_unique hs hdone ht hdone'
  have hmems : ∀ space, (update w.spaces c.space s.space space).mem = (w.spaces space).mem := by
    intro space
    by_cases he : space = c.space
    · rw [he, update_self, hmem]
    · rw [update_of_ne he]
  refine ⟨by rw [hmodules], fun name => by rw [hmodules], fun space base fn => ?_, fun space dll fn ordinal => ?_,
    fun space p => ?_⟩
  · rw [hmodules]
    rw [hmems]
  · rw [hmodules]
    rw [hmems]
  · dsimp only
    by_cases he : space = c.space
    · rw [he, update_self, hpresent]
    · rw [update_of_ne he]

/-- In a run whose failed calls are all refused early, no failed call leaves
anything behind. -/
theorem failed_loads_leave_nothing {es : List Event} (hrun : Run w es w')
    (hearly : ∀ e ∈ es, e.result ≠ .ok → RefusedEarly e.call e.before) :
    ∀ e ∈ es, e.result ≠ .ok → Unchanged e.before e.after := by
  induction hrun with
  | nil w => simp
  | cons hl _ ih =>
    intro e he hfailed
    rcases List.mem_cons.1 he with rfl | he
    · exact (hearly _ (List.mem_cons_self ..) hfailed).unchanged hl
    · exact ih (fun e he => hearly e (List.mem_cons_of_mem _ he)) e he hfailed

end Failures

/-! ## An import that nobody has -/

/-- No other module is loaded, and the kernel provides nothing of `B`. -/
def alone : System := { Elf.roomy with moduleExport := fun _ _ _ _ _ => 0, win32Resolve := fun _ _ _ _ => -1 }

/-- An image of headers alone, for 0x400000, that imports the first function
of `B`. -/
def importsOrdinal : File64 where
  image := Mem.wr16 (fun _ => 0) 0 0x5A4D |>.wr32 60 64 |>.wr32 64 0x4550 |>.wr16 68
    IMAGE_FILE_MACHINE_AMD64 |>.wr16 84 128
    |>.wr16 88 PE32PLUS_MAGIC |>.wr64 112 0x400000 |>.wr32 144 PAGE64_SIZE |>.wr32 148 280 |>.wr32 196 2
    |>.wr32 208 216 |>.wr32 212 40
    |>.wr32 216 256 |>.wr32 228 272 |>.wr32 232 264 |>.wr64 256 0x8000000000000001 |>.wr16 272 0x42
  size := 280
  size_lt := by decide

/-- Ten bytes, which no header fits in. -/
def tooShort : File64 where
  image := fun _ => 0
  size := 10
  size_lt := by decide

def nothingLoaded : World := ⟨fun _ => ⟨fun _ => 0, fun _ => false, fun _ => false, 0⟩, []⟩

/-- A module `A` in the first space. -/
def loadA (file : File64) : Call := ⟨alone, file, [0x41], 0, 0⟩

/-- How the load has ended, and how many modules there are. -/
def ended : Except Stop State → Option (Result × Nat)
  | .ok s =>
    match s.phase with
    | .done r => some (r, s.modules.length)
    | _ => none
  | .error _ => none

theorem loads_of_ended {c : Call} {w : World} {n m : Nat} {r : Result}
    (h : ended (c.steps n (c.begin w)) = some (r, m)) :
    ∃ w', Loads c w r w' ∧ w'.modules.length = m ∧ ∀ k ≠ c.space, w'.spaces k = w.spaces k := by
  unfold ended at h
  split at h
  · rename_i s hs
    split at h
    · rename_i r' hphase
      obtain ⟨rfl, rfl⟩ : r' = r ∧ s.modules.length = m := by simpa using h
      exact ⟨_, ⟨n, s, hs, hphase, rfl⟩, rfl, fun k hk => update_of_ne hk ..⟩
    · cases h
  · cases h

set_option maxRecDepth 20000

/-- An image that imports nothing. -/
def importsNothing : File64 where
  image := importsOrdinal.image |>.wr32 208 0
  size := 280
  size_lt := by decide

/-- A module `B` in the second space, when there are no frames. -/
def loadBWithoutFrames : Call := ⟨{ alone with frame := fun _ => 0 }, importsNothing, [0x42], 0, 1⟩

def Call.wantsPage (c : Call) : Bool :=
  match parse c.file.toFile c.bias with
  | .ok (.ok img) => img.page 0 < u64 img.stop
  | _ => false

theorem Call.wantsPage_parse {c : Call} (h : c.wantsPage = true) :
    ∃ img, parse c.file.toFile c.bias = .ok (.ok img) ∧ img.page 0 < u64 img.stop := by
  unfold Call.wantsPage at h
  split at h
  · rename_i img hparse
    exact ⟨img, hparse, of_decide_eq_true h⟩
  · cases h

/-- A module is loaded; then a file is too short, and then there is no frame. -/
theorem failed_loads_leave_nothing_after_a :
    ∃ es w', Run nothingLoaded es w' ∧ es.map Event.result = [.ok, .notPe, .nomem] ∧ w'.modules.length = 1 ∧
      ∀ e ∈ es, e.result ≠ .ok → Unchanged e.before e.after := by
  have hended : ended ((loadA importsNothing).steps 10
      ((loadA importsNothing).begin nothingLoaded)) = some (.ok, 1) := by
    with_unfolding_all decide
  obtain ⟨w₁, hloads₁, hone, hothers⟩ := loads_of_ended hended
  have hshort : parse (loadA tooShort).file.toFile (loadA tooShort).bias = .ok (.error .notPe) := rfl
  obtain ⟨w₂, hloads₂, hmodules₂, hpresent₂⟩ := (Call.ends_refused (w := w₁) hshort).loads
  have hwants : loadBWithoutFrames.wantsPage = true := by with_unfolding_all decide
  obtain ⟨img, hparse, hlt⟩ := Call.wantsPage_parse hwants
  have hmissing : FirstMissing img (w₂.spaces 1) 0 := by
    refine ⟨hlt, fun j hj => absurd hj (Nat.not_lt_zero j), ?_⟩
    rw [hpresent₂, hothers 1 (by decide)]
    rfl
  obtain ⟨w₃, hloads₃, hmodules₃, -⟩ := (loadBWithoutFrames.ends_missing hparse hmissing (.inl rfl)).loads
  have hrun : Run nothingLoaded _ w₃ := .cons hloads₁ (.cons hloads₂ (.cons hloads₃ (.nil w₃)))
  refine ⟨_, w₃, hrun, rfl, by rw [hmodules₃, hmodules₂, hone], failed_loads_leave_nothing hrun fun e he hfailed => ?_⟩
  simp only [List.mem_cons, List.not_mem_nil, or_false] at he
  rcases he with rfl | rfl | rfl
  · exact absurd rfl hfailed
  · exact .inl ⟨.notPe, hshort⟩
  · exact .inr ⟨img, 0, hparse, hmissing, .inl rfl⟩

/-- The import is refused, and the module stays. -/
theorem dll_stays_behind :
    ∃ w', Loads (loadA importsOrdinal) nothingLoaded .badImport w' ∧ ¬ Unchanged nothingLoaded w' := by
  have hended : ended ((loadA importsOrdinal).steps 11 ((loadA importsOrdinal).begin nothingLoaded)) =
      some (.badImport, 1) := by with_unfolding_all decide
  obtain ⟨w', hloads, hone, -⟩ := loads_of_ended hended
  refine ⟨w', hloads, fun h => ?_⟩
  have hnone := h.count
  rw [hone] at hnone
  cases hnone

end NovarisOS.Loader64.Pe
