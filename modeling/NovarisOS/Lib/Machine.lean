/-
NovarisOS.Lib.Machine — runs of a state machine, and the two induction
rules everything later is an instance of.

A `Machine` takes an input and gives a new state and an output. A `Spec`
watches such a machine from outside: it keeps a state of its own, says which
output it allows for an input there, and moves on knowing the input and the
output. A run CONFORMS when every output along it is allowed.
-/
import Mathlib.Data.List.Basic

namespace NovarisOS

/-- A deterministic machine with inputs `ι` and outputs `ω`. -/
structure Machine (σ ι ω : Type*) where
  step : σ → ι → σ × ω

/-- A specification that watches inputs and outputs. -/
structure Spec (τ ι ω : Type*) where
  next : τ → ι → ω → τ
  Allows : τ → ι → ω → Prop

namespace Machine

variable {σ τ ι ω : Type*}

/-- The state after a run. -/
def run (M : Machine σ ι ω) (s : σ) : List ι → σ
  | [] => s
  | i :: is => M.run (M.step s i).1 is

/-- The outputs of a run. -/
def trace (M : Machine σ ι ω) (s : σ) : List ι → List ω
  | [] => []
  | i :: is => (M.step s i).2 :: M.trace (M.step s i).1 is

/-- Every step of the run meets the guard in the state it is taken from. -/
def Guarded (M : Machine σ ι ω) (ok : σ → ι → Prop) : σ → List ι → Prop
  | _, [] => True
  | s, i :: is => ok s i ∧ M.Guarded ok (M.step s i).1 is

/-- The property holds in every state of a run. -/
def Always (M : Machine σ ι ω) (P : σ → Prop) : σ → List ι → Prop
  | s, [] => P s
  | s, i :: is => P s ∧ M.Always P (M.step s i).1 is

/-- Every output of the run is one the specification allows. -/
def Conforms (M : Machine σ ι ω) (S : Spec τ ι ω) : σ → τ → List ι → Prop
  | _, _, [] => True
  | s, t, i :: is =>
      S.Allows t i (M.step s i).2 ∧
      M.Conforms S (M.step s i).1 (S.next t i (M.step s i).2) is

instance decidableConforms (M : Machine σ ι ω) (S : Spec τ ι ω)
    [∀ t i o, Decidable (S.Allows t i o)] :
    ∀ (s : σ) (t : τ) (is : List ι), Decidable (M.Conforms S s t is)
  | _, _, [] => inferInstanceAs (Decidable True)
  | s, t, i :: is =>
      have := decidableConforms M S (M.step s i).1 (S.next t i (M.step s i).2) is
      inferInstanceAs (Decidable (_ ∧ _))

instance decidableGuarded (M : Machine σ ι ω) (ok : σ → ι → Prop) [∀ s i, Decidable (ok s i)] :
    ∀ (s : σ) (is : List ι), Decidable (M.Guarded ok s is)
  | _, [] => inferInstanceAs (Decidable True)
  | s, i :: is =>
      have := decidableGuarded M ok (M.step s i).1 is
      inferInstanceAs (Decidable (_ ∧ _))

variable (M : Machine σ ι ω)

@[simp] theorem run_nil (s : σ) : M.run s [] = s := rfl

@[simp] theorem run_cons (s : σ) (i : ι) (is : List ι) :
    M.run s (i :: is) = M.run (M.step s i).1 is := rfl

theorem run_append (is js : List ι) : ∀ s : σ, M.run s (is ++ js) = M.run (M.run s is) js := by
  induction is with
  | nil => intro s; rfl
  | cons i is ih => intro s; exact ih _

theorem guarded_true (s : σ) (is : List ι) : M.Guarded (fun _ _ => True) s is := by
  induction is generalizing s with
  | nil => trivial
  | cons i is ih => exact ⟨trivial, ih _⟩

variable {ok : σ → ι → Prop}

theorem guarded_and {ok' : σ → ι → Prop} : ∀ (is : List ι) (s : σ), M.Guarded ok s is → M.Guarded ok' s is →
    M.Guarded (fun s i => ok s i ∧ ok' s i) s is
  | [], _, _, _ => trivial
  | _ :: is, _, h, h' => ⟨⟨h.1, h'.1⟩, guarded_and is _ h.2 h'.2⟩

theorem guarded_append (is js : List ι) : ∀ s : σ,
    M.Guarded ok s (is ++ js) ↔ M.Guarded ok s is ∧ M.Guarded ok (M.run s is) js := by
  induction is with
  | nil => exact fun s => ⟨fun h => ⟨trivial, h⟩, fun h => h.2⟩
  | cons i is ih => exact fun s => ⟨fun h => ⟨⟨h.1, ((ih _).mp h.2).1⟩, ((ih _).mp h.2).2⟩,
      fun h => ⟨h.1.1, (ih _).mpr ⟨h.1.2, h.2⟩⟩⟩

/-- Two guards that agree where the invariant holds agree along every run from
there. -/
theorem guarded_iff {ok' : σ → ι → Prop} (Inv : σ → Prop)
    (hiff : ∀ s i, Inv s → (ok s i ↔ ok' s i)) (hstep : ∀ s i, Inv s → ok s i → Inv (M.step s i).1) :
    ∀ (is : List ι) (s : σ), Inv s → (M.Guarded ok s is ↔ M.Guarded ok' s is) := by
  intro is
  induction is with
  | nil => exact fun _ _ => Iff.rfl
  | cons i is ih =>
    intro s h
    constructor
    · rintro ⟨hok, hrest⟩
      exact ⟨(hiff s i h).mp hok, (ih _ (hstep s i h hok)).mp hrest⟩
    · rintro ⟨hok, hrest⟩
      have hok := (hiff s i h).mpr hok
      exact ⟨hok, (ih _ (hstep s i h hok)).mpr hrest⟩

theorem invariant_of_step {Inv : σ → Prop}
    (hstep : ∀ s i, Inv s → ok s i → Inv (M.step s i).1) :
    ∀ (is : List ι) (s : σ), Inv s → M.Guarded ok s is → Inv (M.run s is) := by
  intro is
  induction is with
  | nil => intro s h _; exact h
  | cons i is ih => intro s h hg; exact ih _ (hstep s i h hg.1) hg.2

theorem always_iff_guarded {Inv P : σ → Prop} (hinv : ∀ s i, Inv s → Inv (M.step s i).1)
    (hstep : ∀ s i, Inv s → P s → (P (M.step s i).1 ↔ ok s i)) :
    ∀ (is : List ι) (s : σ), Inv s → P s → (M.Always P s is ↔ M.Guarded ok s is) := by
  intro is
  induction is with
  | nil => exact fun s _ h => ⟨fun _ => trivial, fun _ => h⟩
  | cons i is ih =>
    intro s hI h
    have hiff := hstep s i hI h
    constructor
    · rintro ⟨-, hrest⟩
      have hnext : P (M.step s i).1 := by
        cases is with
        | nil => exact hrest
        | cons j js => exact hrest.1
      exact ⟨hiff.1 hnext, (ih _ (hinv s i hI) hnext).1 hrest⟩
    · rintro ⟨hok, hrest⟩
      exact ⟨h, (ih _ (hinv s i hI) (hiff.2 hok)).2 hrest⟩

theorem conforms_of_simulation {S : Spec τ ι ω} {R : σ → τ → Prop}
    (hstep : ∀ s t i, R s t → ok s i →
      S.Allows t i (M.step s i).2 ∧ R (M.step s i).1 (S.next t i (M.step s i).2)) :
    ∀ (is : List ι) (s : σ) (t : τ), R s t → M.Guarded ok s is → M.Conforms S s t is := by
  intro is
  induction is with
  | nil => intro s t _ _; trivial
  | cons i is ih =>
    intro s t hR hg
    obtain ⟨ha, hR'⟩ := hstep s t i hR hg.1
    exact ⟨ha, ih _ _ hR' hg.2⟩

theorem lockstep (M' : Machine τ ι ω) {R : σ → τ → Prop}
    (hstep : ∀ s t i, R s t → (M.step s i).2 = (M'.step t i).2 ∧ R (M.step s i).1 (M'.step t i).1) :
    ∀ (is : List ι) (s : σ) (t : τ), R s t →
      M.trace s is = M'.trace t is ∧ R (M.run s is) (M'.run t is) := by
  intro is
  induction is with
  | nil => intro s t h; exact ⟨rfl, h⟩
  | cons i is ih =>
    intro s t h
    obtain ⟨hout, hnext⟩ := hstep s t i h
    obtain ⟨htrace, hend⟩ := ih _ _ hnext
    exact ⟨by rw [trace, trace, hout, htrace], hend⟩

end Machine

end NovarisOS
