/-
NovarisOS.Timeouts32.WaitsTheorems — whose deadline an execution of a timed wait
works to.

A process has one timer for `poll` and `select` and one for `nanosleep`, and
the key under which a wait finds its deadline again is an address of its own.
-/
import NovarisOS.Timeouts32.Executions

namespace NovarisOS.Timeouts32

open Function (update update_of_ne update_self)
open Scheduler32 (since)

variable {k k' : Kernel} {t t' : Thread} {c : Call} {w w' : Wait} {look : Look} {parks : Bool} {a : Act}

/-! ## A step -/

theorem Right.of_same (h : Right k t w) (hticks : k'.ticks = k.ticks) (hidling : k'.idling = k.idling)
    (htimer : w.place = .retry → w.due ≠ none →
      (k'.procs t.1).timer (kindOf w.call) = (k.procs t.1).timer (kindOf w.call)) : Right k' t w := by
  unfold Right at *
  cases hplace : w.place with
  | retry =>
    rw [hplace] at h
    obtain ⟨hkind, hrange, hnone, hsome⟩ := h
    refine ⟨hkind, hrange, hnone, fun d hdue => ?_⟩
    rw [hticks, htimer hplace (by simp [hdue])]
    exact hsome d hdue
  | idle deadline =>
    rw [hplace] at h
    rw [hticks, hidling]
    exact h
  | parked deadline =>
    rw [hplace] at h
    rw [hticks]
    exact h

/-- The state after an execution of a call that is going to happen again. -/
def retried (k : Kernel) (t : Thread) (w : Wait) (r : Proc × Result) : Kernel :=
  { k with procs := update k.procs t.1 r.1, waits := update k.waits t (after w r.2) }

theorem Inv.replace (h : Inv k) {spin_addr spin_deadline : Nat} {idling : Option Thread} (x : Option Wait)
    (hx : ∀ w, x = some w → Right { k with
      spin_addr := spin_addr, spin_deadline := spin_deadline, idling := idling,
      waits := update k.waits t x } t w ∧ w.place ≠ .retry)
    (hidling : idling = k.idling ∨ ∀ u, u ≠ t → k.idling ≠ some u ∧ idling ≠ some u)
    (hheld : idling = some t → ∃ c due deadline, x = some ⟨c, due, .idle deadline⟩)
    (hspin : idling = none → spin_deadline = 0) :
    Inv { k with
      spin_addr := spin_addr, spin_deadline := spin_deadline, idling := idling,
      waits := update k.waits t x } := by
  have hkept : ∀ t' kind, Kept { k with
      spin_addr := spin_addr, spin_deadline := spin_deadline, idling := idling,
      waits := update k.waits t x } t' kind → Kept k t' kind := by
    rintro t' kind ⟨w, hw, hplace, hdue, hkind⟩
    by_cases hne : t' = t
    · subst hne
      simp only [update_self] at hw
      exact absurd hplace (hx w hw).2
    · simp only [update_of_ne hne] at hw
      exact ⟨w, hw, hplace, hdue, hkind⟩
  refine { right := ?_, alone := ?_, idling := ?_, spin := hspin }
  · intro t' w hw
    by_cases hne : t' = t
    · subst hne
      simp only [update_self] at hw
      exact (hx w hw).1
    · simp only [update_of_ne hne] at hw
      have hright := h.right t' w hw
      unfold Right at *
      cases hplace : w.place with
      | retry => rwa [hplace] at hright
      | parked deadline => rwa [hplace] at hright
      | idle deadline =>
        rw [hplace] at hright
        obtain ⟨hheld', hd⟩ := hright
        rcases hidling with he | hno
        · exact ⟨he.trans hheld', hd⟩
        · exact absurd hheld' (hno t' hne).1
  · exact fun t₁ t₂ kind hproc h₁ h₂ => h.alone t₁ t₂ kind hproc (hkept t₁ kind h₁) (hkept t₂ kind h₂)
  · intro t' ht'
    by_cases hne : t' = t
    · subst hne
      obtain ⟨c, due, deadline, rfl⟩ := hheld ht'
      exact ⟨c, due, deadline, by simp⟩
    · rcases hidling with he | hno
      · obtain ⟨c, due, deadline, hw⟩ := h.idling t' (he.symm.trans ht')
        exact ⟨c, due, deadline, by simpa [update_of_ne hne] using hw⟩
      · exact absurd ht' (hno t' hne).2

theorem FutexDone.inv {r : Result} (h : Inv k) (hidle : k.idling = none)
    (hdone : FutexDone k t w look k' r) : Inv k' := by
  cases hdone with
  | bad _ => exact h
  | ready _ => exact h
  | parked d hdue hlt hhi key =>
    refine h.replace _ ?_ (.inl rfl) (fun ht => by simp [hidle] at ht) fun _ => rfl
    rintro w' hw'
    cases hw'
    exact ⟨⟨d, hdue, rfl, hlt, hhi⟩, by simp⟩
  | idles d hdue hlt hhi key =>
    refine h.replace _ ?_ (.inr fun u hu => ⟨by simp [hidle], by simpa using hu.symm⟩)
        (fun _ => ⟨_, _, _, rfl⟩) (by simp)
    rintro w' hw'
    cases hw'
    exact ⟨⟨rfl, d, hdue, rfl, hhi⟩, by simp⟩

theorem FutexDone.answered {r : Result} (hdone : FutexDone k t w look k' r) : Answered k w (look = .nothing) r := by
  cases hdone with
  | bad hlook => subst hlook; exact ⟨by simp, by simp, by simp⟩
  | ready hlook => subst hlook; exact ⟨by simp, by simp, by simp⟩
  | parked d hdue hlt _ _ =>
    refine ⟨by simp, fun deadline hr => ?_, fun _ d' hd' hle => ?_⟩
    · cases hr
      rw [hdue]
      rfl
    · rw [hdue] at hd'
      cases hd'
      omega
  | idles d hdue hlt _ _ =>
    refine ⟨by simp, fun deadline hr => ?_, fun _ d' hd' hle => ?_⟩
    · cases hr
      rw [hdue]
      rfl
    · rw [hdue] at hd'
      cases hd'
      omega

theorem Inv.write (h : Inv k) {p : Nat} (P : Proc) (hnone : ∀ t kind, t.1 = p → ¬ Kept k t kind) :
    Inv { k with procs := update k.procs p P } where
  right := fun u w hw => (h.right u w hw).of_same rfl rfl fun hplace hdue => by
    have hne : u.1 ≠ p := fun hp => hnone u _ hp ⟨w, hw, hplace, hdue, rfl⟩
    simp [update_of_ne hne]
  alone := h.alone
  idling := h.idling
  spin := h.spin

end NovarisOS.Timeouts32
