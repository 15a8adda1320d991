/-
NovarisOS.Lib.Loop — loops that need not come to an end.

The body of a loop takes the state of a round and says whether there is
another one (`more`) or what came out (`over`). `Loop.run` tries a number of
rounds; a loop FINISHES when some number is enough.
-/
import Mathlib.Data.Nat.Basic

namespace NovarisOS

/-- What a round of a loop leaves. -/
inductive Round (σ α : Type*) where
  | more (s : σ)
  | over (a : α)

namespace Loop

variable {σ α : Type*}

def run (body : σ → Round σ α) : Nat → σ → Option α
  | 0, _ => none
  | n + 1, s =>
      match body s with
      | .more s => run body n s
      | .over a => some a

def Finishes (body : σ → Round σ α) (s : σ) : Prop := ∃ n a, run body n s = some a

variable {body : σ → Round σ α} {s s' : σ} {a : α}

theorem finishes_of_over (h : body s = .over a) : Finishes body s :=
  ⟨1, a, by simp [run, h]⟩

theorem finishes_of_more (h : body s = .more s') : Finishes body s ↔ Finishes body s' := by
  constructor
  · rintro ⟨n, a, hn⟩
    cases n with
    | zero => exact absurd hn (by simp [run])
    | succ n => exact ⟨n, a, by simpa [run, h] using hn⟩
  · rintro ⟨n, a, hn⟩
    exact ⟨n + 1, a, by simpa [run, h] using hn⟩

theorem finishes_of_measure {I : σ → Prop} (m : σ → Nat)
    (hround : ∀ s s', I s → body s = .more s' → I s' ∧ m s' < m s) (h : I s) :
    Finishes body s := by
  induction hm : m s using Nat.strong_induction_on generalizing s with
  | h k ih =>
    subst hm
    rcases hb : body s with s' | a
    · obtain ⟨hI, hlt⟩ := hround s s' h hb
      exact (finishes_of_more hb).mpr (ih _ hlt hI rfl)
    · exact finishes_of_over hb

theorem finishes_iff_exit {R : Nat → σ → Prop} {exit : Nat → Prop}
    (hexit : ∀ n s, R n s → exit n → ∃ a, body s = .over a)
    (hmore : ∀ n s, R n s → ¬ exit n → ∃ s', body s = .more s' ∧ R (n + 1) s') (h : R 0 s) :
    Finishes body s ↔ ∃ n, exit n := by
  constructor
  · rintro ⟨n, a, hn⟩
    by_contra hno
    have hall : ∀ (n k : Nat) (s : σ), R k s → run body n s = none := by
      intro n
      induction n with
      | zero => exact fun _ _ _ => rfl
      | succ n ih =>
        intro k s hk
        obtain ⟨s', hb, hk'⟩ := hmore k s hk fun he => hno ⟨k, he⟩
        simpa [run, hb] using ih _ _ hk'
    rw [hall n 0 s h] at hn
    exact absurd hn (by simp)
  · rintro ⟨n, hn⟩
    have hgo : ∀ (left k : Nat) (s : σ), k + left = n → R k s → Finishes body s := by
      intro left
      induction left with
      | zero =>
        rintro k s rfl hk
        obtain ⟨a, hb⟩ := hexit _ s hk hn
        exact finishes_of_over hb
      | succ left ih =>
        intro k s hkn hk
        by_cases he : exit k
        · obtain ⟨a, hb⟩ := hexit k s hk he
          exact finishes_of_over hb
        · obtain ⟨s', hb, hk'⟩ := hmore k s hk he
          exact (finishes_of_more hb).mpr (ih (k + 1) s' (by omega) hk')
    exact hgo n 0 s (by omega) h

/-- A loop that looks for a good number below `stop`. Each round stands at one,
or passes a stretch without any, `unit` numbers at least; it comes out at the
first there is, and a round for each unit and one more are enough. -/
theorem run_search {body : Nat → Round Nat α} {I good : Nat → Prop} {stop unit : Nat}
    {hit : Nat → α} {miss : α} (hpos : 0 < unit)
    (hround : ∀ s, I s → (stop ≤ s ∧ body s = .over miss) ∨
      (s < stop ∧ good s ∧ body s = .over (hit s)) ∨
      (s < stop ∧ ∃ s', body s = .more s' ∧ s + unit ≤ s' ∧ I s' ∧
        ∀ x, s ≤ x → x < s' → ¬ good x))
    (n : Nat) : ∀ s, I s → stop ≤ s + n * unit →
    (∃ r, s ≤ r ∧ r < stop ∧ I r ∧ good r ∧ (∀ x, s ≤ x → x < r → ¬ good x) ∧
      run body (n + 1) s = some (hit r)) ∨
    ((∀ x, s ≤ x → x < stop → ¬ good x) ∧ run body (n + 1) s = some miss) := by
  induction n with
  | zero =>
    intro s h hn
    rw [run]
    rcases hround s h with ⟨hpast, hbody⟩ | ⟨hlt, -⟩ | ⟨hlt, -⟩
    · rw [hbody]
      exact .inr ⟨fun x hlo hhi => absurd hhi (by omega), rfl⟩
    · omega
    · omega
  | succ n ih =>
    intro s h hn
    rw [Nat.succ_mul] at hn
    rw [run]
    rcases hround s h with ⟨hpast, hbody⟩ | ⟨hlt, hgood, hbody⟩ | ⟨hlt, s', hbody, hgrow, hI, hpass⟩
    · rw [hbody]
      exact .inr ⟨fun x hlo hhi => absurd hhi (by omega), rfl⟩
    · rw [hbody]
      exact .inl ⟨s, Nat.le_refl _, hlt, h, hgood, fun x hlo hhi => absurd hhi (by omega), rfl⟩
    · rw [hbody]
      have hwalk : ∀ {b}, (∀ x, s' ≤ x → x < b → ¬ good x) → ∀ x, s ≤ x → x < b → ¬ good x := by
        intro b hb x hlo hhi
        by_cases hx : x < s'
        · exact hpass x hlo hx
        · exact hb x (Nat.not_lt.mp hx) hhi
      rcases ih s' hI (by omega) with ⟨r, hle, hlt', hIr, hgood, hbelow, hrun⟩ | ⟨hnone, hrun⟩
      · exact .inl ⟨r, by omega, hlt', hIr, hgood, hwalk hbelow, hrun⟩
      · exact .inr ⟨hwalk hnone, hrun⟩

end Loop

end NovarisOS
