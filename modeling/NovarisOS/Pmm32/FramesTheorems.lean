/-
NovarisOS.Pmm32.FramesTheorems — the 32-bit frame allocator is exclusive and
complete.

Everything outside this file sees the allocator through `frameOwners`, which
is 0 for a free frame. An allocation gives the lowest run of free frames one
owner each (`Gives`), a share adds an owner, a free takes one away. `Wf` is
what the search relies on: no frame below `searchFrom` is free, and none above
`highestFrame`.
-/
import Mathlib.Order.Bounds.Defs
import NovarisOS.Lib.Machine
import NovarisOS.Pmm32.Frames

namespace NovarisOS.Pmm32

open Function (update update_eq_self update_of_ne update_self)

namespace Pmm

/-! ## §1 The invariant -/

@[simp] theorem bitmapTest_bitmapSet (p : Pmm) (b f : Nat) :
    (p.bitmapSet b).bitmapTest f = (decide (f = b) || p.bitmapTest f) := Bitmap.test_set p.frameBitmap b f

@[simp] theorem bitmapTest_bitmapClear (p : Pmm) (b f : Nat) :
    (p.bitmapClear b).bitmapTest f = (decide (f ≠ b) && p.bitmapTest f) := Bitmap.test_clear p.frameBitmap b f

/-- What every call keeps. -/
structure Wf (p : Pmm) : Prop where
  /-- A frame that is free has no extra owners. -/
  refsFree : ∀ f, p.bitmapTest f = false → p.frameRefs f = 0
  refsLow : ∀ f, PMM_SHARE_FRAMES ≤ f → p.frameRefs f = 0
  highest : p.highestFrame < MAX_FRAMES
  within : ∀ f, p.bitmapTest f = false → f ≤ p.highestFrame
  search : ∀ f, p.bitmapTest f = false → p.searchFrom ≤ f
  /-- Frame 0 is taken, so that the address 0 means a refusal. -/
  ground : p.bitmapTest 0 = true

/-- How many owners a frame has. -/
def frameOwners (p : Pmm) (f : Nat) : Nat := if p.bitmapTest f then 1 + p.frameRefs f else 0

variable {p : Pmm} {f n : Nat}

theorem frameOwners_eq_zero : p.frameOwners f = 0 ↔ p.bitmapTest f = false := by
  unfold frameOwners
  cases p.bitmapTest f with
  | true => simp
  | false => simp

/-! ## §2 The searches -/

theorem scan_some : ∀ (n f : Nat) {g : Nat}, p.scan n f = some g →
    f ≤ g ∧ p.bitmapTest g = false ∧ ∀ h, f ≤ h → h < g → p.bitmapTest h = true := by
  intro n
  induction n with
  | zero => intro f g h; simp [scan] at h
  | succ n ih =>
    intro f g h
    rw [scan] at h
    split at h
    · split at h
      · rename_i hbyte
        obtain ⟨hle, hfree, hlower⟩ := ih _ h
        refine ⟨by omega, hfree, fun k hk hkg => ?_⟩
        by_cases hskip : k < f + 8
        · exact Bitmap.test_of_full hbyte.2 (by omega)
        · exact hlower k (by omega) hkg
      · split at h
        · rename_i hfree
          cases h
          exact ⟨Nat.le_refl _, by simpa using hfree, fun k hk hkg => by omega⟩
        · rename_i htaken
          obtain ⟨hle, hfree, hlower⟩ := ih _ h
          refine ⟨by omega, hfree, fun k hk hkg => ?_⟩
          by_cases hkf : k = f
          · rw [hkf]
            simpa using htaken
          · exact hlower k (by omega) hkg
    · cases h

theorem scan_none : ∀ (n f : Nat), p.highestFrame < f + n → p.scan n f = none →
    ∀ g, f ≤ g → g ≤ p.highestFrame → p.bitmapTest g = true := by
  intro n
  induction n with
  | zero => intro f hn _ g hlo hhi; omega
  | succ n ih =>
    intro f hn h g hlo hhi
    rw [scan, if_pos (by omega)] at h
    split at h
    · rename_i hbyte
      by_cases hskip : g < f + 8
      · exact Bitmap.test_of_full hbyte.2 (by omega)
      · exact ih _ (by omega) h g (by omega) hhi
    · split at h
      · cases h
      · rename_i htaken
        by_cases hg : g = f
        · rw [hg]
          simpa using htaken
        · exact ih _ (by omega) h g (by omega) hhi

/-- A run of `n` free frames starts here. -/
def RunAt (p : Pmm) (n start : Nat) : Prop := ∀ i < n, p.bitmapTest (start + i) = false

theorem freeRun_le (p : Pmm) : ∀ (count frame : Nat), p.freeRun frame count ≤ count := by
  intro count
  induction count with
  | zero => intro frame; exact Nat.le_refl _
  | succ count ih =>
    intro frame
    rw [freeRun]
    split
    · exact Nat.zero_le _
    · exact Nat.succ_le_succ (ih _)

theorem freeRun_free (p : Pmm) : ∀ (count frame : Nat), p.RunAt (p.freeRun frame count) frame := by
  intro count
  induction count with
  | zero => intro frame i hi; exact absurd hi (Nat.not_lt_zero _)
  | succ count ih =>
    intro frame
    rw [freeRun]
    split
    · intro i hi
      exact absurd hi (Nat.not_lt_zero _)
    · rename_i hfree
      intro i hi
      cases i with
      | zero => simpa using hfree
      | succ i =>
        have h := ih (frame + 1) i (by omega)
        rwa [Nat.add_assoc, Nat.add_comm 1 i] at h

theorem freeRun_taken (p : Pmm) : ∀ (count frame : Nat), p.freeRun frame count < count →
    p.bitmapTest (frame + p.freeRun frame count) = true := by
  intro count
  induction count with
  | zero => intro frame h; exact absurd h (Nat.not_lt_zero _)
  | succ count ih =>
    intro frame h
    rw [freeRun] at h ⊢
    split
    · rename_i htaken
      simpa using htaken
    · rename_i hfree
      rw [if_neg hfree] at h
      have h := ih (frame + 1) (by omega)
      rwa [Nat.add_assoc, Nat.add_comm 1] at h

theorem Wf.run_within (hp : p.Wf) {start : Nat} (hn : 0 < n) (hrun : p.RunAt n start) :
    start + n ≤ p.highestFrame + 1 := by
  have h := hp.within _ (hrun (n - 1) (by omega))
  omega

theorem findRun_some {count : Nat} : ∀ (n start : Nat) {s : Nat},
    p.findRun count n start = some s →
      p.RunAt count s ∧ ∀ t, start ≤ t → p.RunAt count t → s ≤ t := by
  intro n
  induction n with
  | zero => intro start s h; simp [findRun] at h
  | succ n ih =>
    intro start s h
    rw [findRun] at h
    split at h
    · dsimp only at h
      split at h
      · rename_i hshort
        obtain ⟨hrun, hlowest⟩ := ih _ h
        refine ⟨hrun, fun t ht htrun => ?_⟩
        by_cases hpast : start + p.freeRun start count + 1 ≤ t
        · exact hlowest t hpast htrun
        · -- The run would contain the frame that was found taken.
          have htaken := p.freeRun_taken count start hshort
          have hfree := htrun (start + p.freeRun start count - t) (by omega)
          rw [Nat.add_sub_cancel' (by omega)] at hfree
          rw [hfree] at htaken
          cases htaken
      · rename_i hlong
        cases h
        have hall := p.freeRun_le count start
        have heq : p.freeRun start count = count := by omega
        refine ⟨?_, fun t ht _ => ht⟩
        have h := p.freeRun_free count start
        rwa [heq] at h
    · cases h

theorem findRun_none (hp : p.Wf) {count : Nat} (hcount : 0 < count) (hwide : count < 0x100000000) :
    ∀ (n start : Nat), p.highestFrame + 1 < start + n → p.findRun count n start = none →
      ∀ t, start ≤ t → ¬ p.RunAt count t := by
  have hhigh := hp.highest
  intro n
  induction n with
  | zero =>
    intro start hn _ t ht htrun
    have := hp.run_within hcount htrun
    omega
  | succ n ih =>
    intro start hn h t ht htrun
    have hwithin := hp.run_within hcount htrun
    have hnowrap : wrap (start + count) = start + count := Nat.mod_eq_of_lt (by
      simp only [MAX_FRAMES] at hhigh
      omega)
    rw [findRun, if_pos (by rw [hnowrap]; omega)] at h
    dsimp only at h
    split at h
    · rename_i hshort
      by_cases hpast : start + p.freeRun start count + 1 ≤ t
      · exact ih _ (by omega) h t hpast htrun
      · have htaken := p.freeRun_taken count start hshort
        have hfree := htrun (start + p.freeRun start count - t) (by omega)
        rw [Nat.add_sub_cancel' (by omega)] at hfree
        rw [hfree] at htaken
        cases htaken
    · cases h

/-! ## §3 Owners -/

/-- The frames from `start` on, `n` of them, had no owner and have one, and
nobody else's frames are touched. -/
structure Gives (p : Pmm) (start n : Nat) (p' : Pmm) : Prop where
  wf : p'.Wf
  free : p.RunAt n start
  owners : ∀ f, p'.frameOwners f = if start ≤ f ∧ f < start + n then 1 else p.frameOwners f
  highest : p'.highestFrame = p.highestFrame

/-- What a call that asks for `n` frames can do. -/
inductive AllocCase (p : Pmm) (n : Nat) : Nat × Pmm → Prop where
  | refused (p' : Pmm) : (∀ s, ¬ p.RunAt n s) → p'.Wf → p'.frameOwners = p.frameOwners →
      p'.highestFrame = p.highestFrame → AllocCase p n (0, p')
  | given (start : Nat) (p' : Pmm) : IsLeast {s | p.RunAt n s} start → start ≠ 0 → start < MAX_FRAMES →
      Gives p start n p' → AllocCase p n (start * PMM_FRAME_SIZE, p')

theorem Wf.bitmapSet (hp : p.Wf) (f : Nat) : (p.bitmapSet f).Wf where
  refsFree g hg := hp.refsFree g (by simp only [bitmapTest_bitmapSet, Bool.or_eq_false_iff] at hg; exact hg.2)
  refsLow := hp.refsLow
  highest := hp.highest
  within g hg := hp.within g (by simp only [bitmapTest_bitmapSet, Bool.or_eq_false_iff] at hg; exact hg.2)
  search g hg := hp.search g (by simp only [bitmapTest_bitmapSet, Bool.or_eq_false_iff] at hg; exact hg.2)
  ground := by rw [bitmapTest_bitmapSet, hp.ground, Bool.or_true]

theorem Wf.setSearch (hp : p.Wf) (hn : ∀ f, p.bitmapTest f = false → n ≤ f) :
    ({ p with searchFrom := n } : Pmm).Wf := ⟨hp.refsFree, hp.refsLow, hp.highest, hp.within, hn, hp.ground⟩

theorem Gives.one (hp : p.Wf) (hfree : p.bitmapTest f = false) : Gives p f 1 (p.bitmapSet f) where
  wf := hp.bitmapSet f
  free i hi := by
    have hi : i = 0 := by omega
    subst hi
    exact hfree
  owners g := by
    have hrefs : (p.bitmapSet f).frameRefs = p.frameRefs := rfl
    unfold frameOwners
    rw [bitmapTest_bitmapSet, hrefs]
    by_cases hg : g = f
    · subst hg
      simp [hp.refsFree g hfree]
    · rw [if_neg (by omega : ¬ (f ≤ g ∧ g < f + 1))]
      simp [hg]
  highest := rfl

theorem pmmAllocFrame_cases (hp : p.Wf) : AllocCase p 1 p.pmmAllocFrame := by
  have hrun : ∀ s, p.RunAt 1 s ↔ p.bitmapTest s = false :=
    fun s => ⟨fun h => h 0 Nat.zero_lt_one, fun h i hi => by
      have hi : i = 0 := by omega
      subst hi
      exact h⟩
  unfold pmmAllocFrame
  cases hscan : p.scan (p.highestFrame + 1) p.searchFrom with
  | none =>
    have hall := scan_none _ _ (by omega) hscan
    have htaken : ∀ s, p.bitmapTest s = true := by
      intro s
      by_contra hs
      have hs : p.bitmapTest s = false := by simpa using hs
      rw [hall s (hp.search s hs) (hp.within s hs)] at hs
      cases hs
    refine .refused _ (fun s hs => ?_) (hp.setSearch fun f hf => ?_) rfl rfl
    · rw [hrun, htaken] at hs
      cases hs
    · rw [htaken] at hf
      cases hf
  | some f =>
    obtain ⟨hle, hfree, hlower⟩ := scan_some _ _ hscan
    have hgives := Gives.one hp hfree
    have hzero : f ≠ 0 := by
      rintro rfl
      rw [hp.ground] at hfree
      cases hfree
    have hhigh := hp.highest
    have hlt := hp.within f hfree
    refine .given f _ ⟨(hrun f).mpr hfree, fun s hs => ?_⟩ hzero (by omega) ⟨?_, hgives.free, hgives.owners, rfl⟩
    · have hs := (hrun s).mp hs
      by_contra hsf
      rw [hlower s (hp.search s hs) (by omega)] at hs
      cases hs
    · refine hgives.wf.setSearch fun s hs => ?_
      simp only [bitmapTest_bitmapSet, Bool.or_eq_false_iff, decide_eq_false_iff_not] at hs
      by_contra hsf
      rw [hlower s (hp.search s hs.2) (by omega)] at hs
      cases hs.2

theorem takeRun_gives : ∀ (n f : Nat) {p : Pmm}, p.Wf → p.RunAt n f → Gives p f n (p.takeRun f n) := by
  intro n
  induction n with
  | zero =>
    intro f p hp hrun
    refine ⟨hp, hrun, fun g => ?_, rfl⟩
    rw [if_neg (by omega)]
    rfl
  | succ n ih =>
    intro f p hp hrun
    have hfirst := Gives.one hp (f := f) (hrun 0 (Nat.succ_pos n))
    have hrest : (p.bitmapSet f).RunAt n (f + 1) := by
      intro i hi
      have h := hrun (i + 1) (by omega)
      rw [bitmapTest_bitmapSet, Nat.add_assoc, Nat.add_comm 1 i, h]
      simp
    have hnext := ih (f + 1) hfirst.wf hrest
    refine ⟨hnext.wf, hrun, fun g => ?_, hnext.highest⟩
    rw [takeRun, hnext.owners, hfirst.owners]
    by_cases hg : g = f
    · rw [if_neg (by omega), if_pos (by omega), if_pos (by omega)]
    · by_cases hin : f + 1 ≤ g ∧ g < f + 1 + n
      · rw [if_pos hin, if_pos (by omega)]
      · rw [if_neg hin, if_neg (by omega), if_neg (by omega)]

theorem pmmAllocContiguous_cases (hp : p.Wf) (hn : 0 < n) (hwide : n < 0x100000000) :
    AllocCase p n (p.pmmAllocContiguous n) := by
  unfold pmmAllocContiguous
  rw [if_neg (by omega)]
  split
  · rename_i hone
    subst hone
    exact pmmAllocFrame_cases hp
  · cases hfind : p.findRun n (p.highestFrame + 2) 0 with
    | none => exact .refused _ (fun s => findRun_none hp hn hwide _ _ (by omega) hfind s (Nat.zero_le _)) hp rfl rfl
    | some start =>
      obtain ⟨hrun, hlowest⟩ := findRun_some _ _ hfind
      have hwithin := hp.run_within hn hrun
      have hhigh := hp.highest
      have hzero : start ≠ 0 := by
        rintro rfl
        have h := hrun 0 hn
        rw [Nat.zero_add, hp.ground] at h
        cases h
      exact .given start _ ⟨hrun, fun t ht => hlowest t (Nat.zero_le _) ht⟩ hzero (by omega)
        (takeRun_gives n start hp hrun)

/-- A share either adds an owner or changes nothing. -/
inductive ShareCase (p : Pmm) (f : Nat) : Nat × Pmm → Prop where
  | refused : ShareCase p f (0, p)
  | shared (p' : Pmm) : p'.Wf → 0 < p.frameOwners f →
      p'.frameOwners = update p.frameOwners f (p.frameOwners f + 1) →
      p'.highestFrame = p.highestFrame → ShareCase p f (1, p')

theorem Wf.setRefs (hp : p.Wf) (hused : p.bitmapTest f = true) (hf : f < PMM_SHARE_FRAMES) :
    ({ p with frameRefs := update p.frameRefs f n } : Pmm).Wf where
  refsFree g hg := by
    have hne : g ≠ f := by
      rintro rfl
      have hg : p.bitmapTest g = false := hg
      rw [hused] at hg
      cases hg
    show update p.frameRefs f n g = 0
    rw [update_of_ne hne]
    exact hp.refsFree g hg
  refsLow g hg := by
    show update p.frameRefs f n g = 0
    rw [update_of_ne (by omega)]
    exact hp.refsLow g hg
  highest := hp.highest
  within := hp.within
  search := hp.search
  ground := hp.ground

theorem frameOwners_setRefs (hused : p.bitmapTest f = true) (n : Nat) :
    ({ p with frameRefs := update p.frameRefs f n } : Pmm).frameOwners =
      update p.frameOwners f (1 + n) := by
  funext g
  by_cases hg : g = f
  · subst hg
    rw [update_self]
    unfold frameOwners
    rw [show ({ p with frameRefs := update p.frameRefs g n } : Pmm).bitmapTest g = true from hused, if_pos rfl]
    simp
  · rw [update_of_ne hg]
    unfold frameOwners
    rw [show ({ p with frameRefs := update p.frameRefs f n } : Pmm).bitmapTest g = p.bitmapTest g from rfl]
    simp [update_of_ne hg]

theorem pmmFrameShare_cases (hp : p.Wf) (phys : Nat) :
    ShareCase p (phys / PMM_FRAME_SIZE) (p.pmmFrameShare phys) := by
  unfold pmmFrameShare
  generalize phys / PMM_FRAME_SIZE = f
  dsimp only
  split
  · exact .refused
  · rename_i hroom
    split
    · exact .refused
    · rename_i hused
      have hused : p.bitmapTest f = true := by simpa using hused
      have howners : p.frameOwners f = 1 + p.frameRefs f := by rw [frameOwners, if_pos hused]
      refine .shared _ (hp.setRefs hused (by omega)) (by omega) ?_ rfl
      rw [frameOwners_setRefs hused, howners, Nat.add_assoc]

theorem pmmFreeFrame_spec (hp : p.Wf) {phys : Nat} (hlt : phys / PMM_FRAME_SIZE < MAX_FRAMES)
    (hlast : p.frameOwners (phys / PMM_FRAME_SIZE) = 1 →
      phys / PMM_FRAME_SIZE ≠ 0 ∧ phys / PMM_FRAME_SIZE ≤ p.highestFrame) :
    (p.pmmFreeFrame phys).Wf ∧ (p.pmmFreeFrame phys).highestFrame = p.highestFrame ∧
      (p.pmmFreeFrame phys).frameOwners = update p.frameOwners (phys / PMM_FRAME_SIZE)
        (p.frameOwners (phys / PMM_FRAME_SIZE) - 1) := by
  unfold pmmFreeFrame
  generalize phys / PMM_FRAME_SIZE = f at hlt hlast ⊢
  rw [if_pos hlt]
  split
  · rename_i hfree
    have hfree : p.bitmapTest f = false := by simpa using hfree
    refine ⟨⟨hp.refsFree, hp.refsLow, hp.highest, hp.within, hp.search, hp.ground⟩, rfl, ?_⟩
    rw [frameOwners_eq_zero.mpr hfree, Nat.zero_sub, ← frameOwners_eq_zero.mpr hfree, update_eq_self]
    rfl
  · rename_i hused
    have hused : p.bitmapTest f = true := by simpa using hused
    have howners : p.frameOwners f = 1 + p.frameRefs f := by rw [frameOwners, if_pos hused]
    split
    · rename_i hshared
      refine ⟨hp.setRefs hused hshared.1, rfl, ?_⟩
      rw [frameOwners_setRefs hused, howners, show 1 + (p.frameRefs f - 1) = 1 + p.frameRefs f - 1 by omega]
    · rename_i halone
      have hrefs : p.frameRefs f = 0 := by
        by_cases hlow : f < PMM_SHARE_FRAMES
        · by_contra hne
          exact halone ⟨hlow, hne⟩
        · exact hp.refsLow f (by omega)
      obtain ⟨hne, hknown⟩ := hlast (by rw [howners, hrefs])
      have htest : ∀ g, (p.bitmapClear f).bitmapTest g = false → g = f ∨ p.bitmapTest g = false := by
        intro g hg
        simpa [or_iff_not_imp_left] using hg
      refine ⟨⟨?_, hp.refsLow, hp.highest, ?_, ?_, ?_⟩, rfl, ?_⟩
      · intro g hg
        rcases htest g hg with rfl | hg
        · exact hrefs
        · exact hp.refsFree g hg
      · intro g hg
        rcases htest g hg with rfl | hg
        · exact hknown
        · exact hp.within g hg
      · intro g hg
        show (if f < p.searchFrom then f else p.searchFrom) ≤ g
        rcases htest g hg with rfl | hg
        · split <;> omega
        · have := hp.search g hg
          split <;> omega
      · show (p.bitmapClear f).bitmapTest 0 = true
        rw [bitmapTest_bitmapClear, hp.ground]
        simp [hne.symm]
      · funext g
        show (if (p.bitmapClear f).bitmapTest g then 1 + p.frameRefs g else 0) = _
        rw [bitmapTest_bitmapClear]
        by_cases hg : g = f
        · subst hg
          rw [update_self, howners, hrefs]
          simp
        · rw [update_of_ne hg]
          simp [hg, frameOwners]

/-! ## §4 Initialisation -/

/-- The tables while `pmm_init` fills them: nobody shares anything yet and
the search starts at the bottom. -/
structure Booting (p : Pmm) : Prop where
  refs : ∀ f, p.frameRefs f = 0
  highest : p.highestFrame < MAX_FRAMES
  within : ∀ f, p.bitmapTest f = false → f ≤ p.highestFrame
  search : p.searchFrom = 0

theorem Booting.wf (h : p.Booting) (hground : p.bitmapTest 0 = true) : p.Wf :=
  ⟨fun f _ => h.refs f, fun f _ => h.refs f, h.highest, h.within, fun f _ => by rw [h.search]; exact Nat.zero_le _,
    hground⟩

theorem markOne_test (p : Pmm) (f : Nat) (used : Bool) (g : Nat) :
    (p.markOne f used).bitmapTest g = if g = f then used else p.bitmapTest g := by
  cases used with
  | true =>
    show (p.bitmapSet f).bitmapTest g = _
    rw [bitmapTest_bitmapSet]
    by_cases hg : g = f <;> simp [hg]
  | false =>
    show (p.bitmapClear f).bitmapTest g = _
    rw [bitmapTest_bitmapClear]
    by_cases hg : g = f <;> simp [hg]

theorem Booting.markOne (h : p.Booting) (hf : f < MAX_FRAMES) (used : Bool) :
    (p.markOne f used).Booting := by
  have hhigh : (p.markOne f used).highestFrame = if f > p.highestFrame then f else p.highestFrame := rfl
  have hlow := h.highest
  refine ⟨?_, ?_, ?_, ?_⟩
  · intro g
    cases used <;> exact h.refs g
  · rw [hhigh]
    split <;> omega
  · intro g hg
    rw [markOne_test] at hg
    rw [hhigh]
    by_cases hgf : g = f
    · split <;> omega
    · rw [if_neg hgf] at hg
      have := h.within g hg
      split <;> omega
  · unfold Pmm.markOne
    cases used with
    | true => exact h.search
    | false =>
      show (if f < p.searchFrom then f else p.searchFrom) = 0
      rw [h.search]
      rfl

theorem markRegion_spec (used : Bool) : ∀ (n : Nat) (p : Pmm) (f : Nat), p.Booting →
    (p.markRegion f n used).Booting ∧ ∀ g, (p.markRegion f n used).bitmapTest g =
      if f ≤ g ∧ g < f + n ∧ g < MAX_FRAMES then used else p.bitmapTest g := by
  intro n
  induction n with
  | zero =>
    intro p f hp
    refine ⟨hp, fun g => ?_⟩
    rw [if_neg (by omega)]
    rfl
  | succ n ih =>
    intro p f hp
    rw [markRegion]
    split
    · refine ⟨hp, fun g => ?_⟩
      rw [if_neg (by omega)]
    · rename_i hin
      obtain ⟨hboot, htest⟩ := ih (p.markOne f used) (f + 1) (hp.markOne (by omega) used)
      refine ⟨hboot, fun g => ?_⟩
      rw [htest, markOne_test]
      by_cases hg : g = f
      · rw [if_neg (by omega), if_pos hg, if_pos (by omega)]
      · by_cases hlater : f + 1 ≤ g ∧ g < f + 1 + n ∧ g < MAX_FRAMES
        · rw [if_pos hlater, if_pos (by omega)]
        · rw [if_neg hlater, if_neg hg, if_neg (by omega)]

theorem markRegion_used (h : p.Booting) (f n : Nat) {g : Nat} (hg : p.bitmapTest g = true) :
    (p.markRegion f n true).bitmapTest g = true := by
  rw [(markRegion_spec true n p f h).2, hg]
  exact ite_self _

theorem Booting.freeEntry (h : p.Booting) (e : MmapEntry) : (p.freeEntry e).Booting := by
  unfold Pmm.freeEntry
  dsimp only
  generalize (if (e.addr + e.len) % 18446744073709551616 > 0x100000000 then 0x100000000
    else (e.addr + e.len) % 18446744073709551616) = stop
  split
  · split
    · split
      · exact (markRegion_spec false _ p _ h).1
      · exact h
    · exact h
  · exact h

theorem booting_taken : taken.Booting where
  refs _ := rfl
  highest := by decide
  within f hf := by
    have hfull : taken.bitmapTest f = true := Bitmap.test_of_full (b := f / 8) rfl rfl
    rw [hfull] at hf
    cases hf
  search := rfl

theorem booting_freeAvailable (mbi : Multiboot) : (freeAvailable mbi).Booting := by
  unfold freeAvailable
  split
  · rename_i entries _
    have hall : ∀ (entries : List MmapEntry) (p : Pmm), p.Booting → (entries.foldl Pmm.freeEntry p).Booting := by
      intro entries
      induction entries with
      | nil => exact fun p hp => hp
      | cons e rest ih => exact fun p hp => ih _ (hp.freeEntry e)
    exact hall entries _ booting_taken
  · exact (markRegion_spec false _ _ _ (markRegion_spec false _ _ _ booting_taken).1).1

/-- Some byte of the frame lies in the region. -/
def Touches (f start stop : Nat) : Prop := ∃ x, start ≤ x ∧ x < stop ∧ x / PMM_FRAME_SIZE = f

theorem Touches.bounds {start stop : Nat} (h : Touches f start stop) (hstop : stop < 0xFFFFF000) :
    start / PMM_FRAME_SIZE ≤ f ∧ f < wrap (stop + PMM_FRAME_SIZE - 1) / PMM_FRAME_SIZE ∧ f < MAX_FRAMES := by
  obtain ⟨x, hlo, hhi, rfl⟩ := h
  have hnowrap : wrap (stop + PMM_FRAME_SIZE - 1) = stop + PMM_FRAME_SIZE - 1 := Nat.mod_eq_of_lt (by
    simp only [PMM_FRAME_SIZE]
    omega)
  rw [hnowrap]
  simp only [PMM_FRAME_SIZE, MAX_FRAMES]
  omega

theorem pmmInit_spec (mbi : Multiboot) (kernelStart : Nat) {kernelEnd : Nat} (hend : kernelEnd < 0xFFFFF000) :
    (pmmInit mbi kernelStart kernelEnd).Booting ∧
      (∀ f, f < 0x100000 / PMM_FRAME_SIZE → (pmmInit mbi kernelStart kernelEnd).bitmapTest f = true) ∧
      ∀ f, Touches f kernelStart kernelEnd → (pmmInit mbi kernelStart kernelEnd).bitmapTest f = true := by
  unfold pmmInit
  dsimp only
  have hfree := booting_freeAvailable mbi
  obtain ⟨hlow, hlowTest⟩ := markRegion_spec true (0x100000 / PMM_FRAME_SIZE) _ 0 hfree
  generalize (freeAvailable mbi).markRegion 0 (0x100000 / PMM_FRAME_SIZE) true = p at hlow hlowTest ⊢
  refine ⟨(markRegion_spec true _ p _ hlow).1, ?_, ?_⟩
  · intro f hf
    refine markRegion_used hlow _ _ ?_
    rw [hlowTest, if_pos]
    simp only [PMM_FRAME_SIZE, MAX_FRAMES] at hf ⊢
    omega
  · intro f hf
    obtain ⟨hlo, hhi, hmax⟩ := hf.bounds hend
    rw [(markRegion_spec true _ p _ hlow).2, if_pos]
    have hbound : wrap (kernelEnd + PMM_FRAME_SIZE - 1) / PMM_FRAME_SIZE < 0x100000000 :=
      Nat.lt_of_le_of_lt (Nat.div_le_self _ _) (Nat.mod_lt _ (by decide))
    generalize wrap (kernelEnd + PMM_FRAME_SIZE - 1) / PMM_FRAME_SIZE = k at hhi hbound ⊢
    generalize kernelStart / PMM_FRAME_SIZE = j at hlo ⊢
    have hdiff : k + 0x100000000 - j = k - j + 0x100000000 := by omega
    rw [wrap, hdiff, Nat.add_mod_right, Nat.mod_eq_of_lt (by omega)]
    omega

theorem pmmReserveRegion_spec (h : p.Booting) (startAddr : Nat) {endAddr : Nat} (hend : endAddr < 0xFFFFF000) :
    (p.pmmReserveRegion startAddr endAddr).Booting ∧
      (∀ f, p.bitmapTest f = true → (p.pmmReserveRegion startAddr endAddr).bitmapTest f = true) ∧
      ∀ f, Touches f startAddr endAddr → (p.pmmReserveRegion startAddr endAddr).bitmapTest f = true := by
  unfold pmmReserveRegion
  dsimp only
  split
  · refine ⟨(markRegion_spec true _ p _ h).1, fun f hf => markRegion_used h _ _ hf, fun f hf => ?_⟩
    obtain ⟨hlo, hhi, hmax⟩ := hf.bounds hend
    rw [(markRegion_spec true _ p _ h).2, if_pos (by omega)]
  · rename_i hnone
    refine ⟨h, fun f hf => hf, fun f hf => ?_⟩
    obtain ⟨hlo, hhi, _⟩ := hf.bounds hend
    omega

/-- The allocator when the first allocation is made. -/
def booted (mbi : Multiboot) (kernelStart kernelEnd : Nat) (regions : List (Nat × Nat)) : Pmm :=
  regions.foldl (fun p r => p.pmmReserveRegion r.1 r.2) (pmmInit mbi kernelStart kernelEnd)

/-- The frames that are never to be handed out. -/
def Kept (kernelStart kernelEnd : Nat) (regions : List (Nat × Nat)) (f : Nat) : Prop :=
  f < 0x100000 / PMM_FRAME_SIZE ∨ Touches f kernelStart kernelEnd ∨ ∃ r ∈ regions, Touches f r.1 r.2

theorem reserve_all : ∀ (regions : List (Nat × Nat)) {p : Pmm}, p.Booting → (∀ r ∈ regions, r.2 < 0xFFFFF000) →
    (regions.foldl (fun p r => p.pmmReserveRegion r.1 r.2) p).Booting ∧
      ∀ f, (p.bitmapTest f = true ∨ ∃ r ∈ regions, Touches f r.1 r.2) →
        (regions.foldl (fun p r => p.pmmReserveRegion r.1 r.2) p).bitmapTest f = true := by
  intro regions
  induction regions with
  | nil =>
    intro p hp _
    refine ⟨hp, fun f hf => hf.resolve_right ?_⟩
    rintro ⟨r, hr, _⟩
    cases hr
  | cons r rest ih =>
    intro p hp hends
    obtain ⟨hboot, hkeep, htouch⟩ := pmmReserveRegion_spec hp r.1 (hends r (List.mem_cons_self ..))
    obtain ⟨hrest, hall⟩ := ih hboot fun r' hr' => hends r' (List.mem_cons_of_mem _ hr')
    refine ⟨hrest, fun f hf => hall f ?_⟩
    rcases hf with hf | ⟨r', hr', hf⟩
    · exact Or.inl (hkeep f hf)
    · rcases List.mem_cons.mp hr' with rfl | hr'
      · exact Or.inl (htouch f hf)
      · exact Or.inr ⟨r', hr', hf⟩

theorem booted_spec (mbi : Multiboot) (kernelStart : Nat) {kernelEnd : Nat} {regions : List (Nat × Nat)}
    (hend : kernelEnd < 0xFFFFF000) (hends : ∀ r ∈ regions, r.2 < 0xFFFFF000) :
    (booted mbi kernelStart kernelEnd regions).Wf ∧
      ∀ f, Kept kernelStart kernelEnd regions f → (booted mbi kernelStart kernelEnd regions).bitmapTest f = true := by
  obtain ⟨hinit, hlow, hkernel⟩ := pmmInit_spec mbi kernelStart hend
  obtain ⟨hboot, hkeep⟩ := reserve_all regions hinit hends
  have hkept : ∀ f, Kept kernelStart kernelEnd regions f →
      (booted mbi kernelStart kernelEnd regions).bitmapTest f = true := by
    rintro f (hf | hf | hf)
    · exact hkeep f (Or.inl (hlow f hf))
    · exact hkeep f (Or.inl (hkernel f hf))
    · exact hkeep f (Or.inr hf)
  exact ⟨hboot.wf (hkept 0 (Or.inl (by decide))), hkept⟩

end Pmm

/-! ## §5 Clients

A client owns a frame it was given, and one more for each share it was given.
The ledger of who owns how much is theirs, not the allocator's: it is kept
beside the state, and says which frees are allowed.
-/

inductive Call where
  | allocFrame
  | allocContiguous (count : UInt32)
  | frameShare (physAddr : UInt32)
  | freeFrame (physAddr : UInt32)
  | freeContiguous (physAddr count : UInt32)

/-- The allocator, and how often the clients own each frame. -/
structure Clients where
  pmm : Pmm
  held : Nat → Nat

/-- The ledger when a run of frames is handed out. -/
def give (held : Nat → Nat) (start n : Nat) : Nat → Nat :=
  fun f => if start ≤ f ∧ f < start + n then held f + 1 else held f

/-- The ledger when the frame at an address is given back. -/
def giveBack (held : Nat → Nat) (phys : Nat) : Nat → Nat :=
  update held (phys / PMM_FRAME_SIZE) (held (phys / PMM_FRAME_SIZE) - 1)

/-- The ledger when a run is given back. -/
def giveBackRun (held : Nat → Nat) (phys : Nat) : Nat → Nat → Nat
  | 0 => held
  | count + 1 => giveBackRun (giveBack held phys) (wrap (phys + PMM_FRAME_SIZE)) count

/-- Each frame of the run is owned when its turn comes. -/
def OwnedRun (held : Nat → Nat) (phys : Nat) : Nat → Prop
  | 0 => True
  | count + 1 =>
    0 < held (phys / PMM_FRAME_SIZE) ∧ OwnedRun (giveBack held phys) (wrap (phys + PMM_FRAME_SIZE)) count

namespace Clients

/-- An allocation of `n` frames is entered in the ledger unless it was
refused. -/
def take (s : Clients) (n : Nat) (r : Nat × Pmm) : Clients × Nat :=
  (⟨r.2, if r.1 = 0 then s.held else give s.held (r.1 / PMM_FRAME_SIZE) n⟩, r.1)

def call (s : Clients) : Call → Clients × Nat
  | .allocFrame => s.take 1 s.pmm.pmmAllocFrame
  | .allocContiguous count => s.take count.toNat (s.pmm.pmmAllocContiguous count.toNat)
  | .frameShare phys =>
    let (r, p) := s.pmm.pmmFrameShare phys.toNat
    let f := phys.toNat / PMM_FRAME_SIZE
    (⟨p, if r = 0 then s.held else update s.held f (s.held f + 1)⟩, r)
  | .freeFrame phys => (⟨s.pmm.pmmFreeFrame phys.toNat, giveBack s.held phys.toNat⟩, 0)
  | .freeContiguous phys count =>
    (⟨s.pmm.pmmFreeContiguous phys.toNat count.toNat, giveBackRun s.held phys.toNat count.toNat⟩, 0)

/-- Clients free only what they own. -/
def Owned (s : Clients) : Call → Prop
  | .freeFrame phys => 0 < s.held (phys.toNat / PMM_FRAME_SIZE)
  | .freeContiguous phys count => OwnedRun s.held phys.toNat count.toNat
  | _ => True

end Clients

def clients : Machine Clients Call Nat := ⟨Clients.call⟩

/-- How many frames a call asks for. -/
def Call.asks : Call → Option Nat
  | .allocFrame => some 1
  | .allocContiguous count => some count.toNat
  | _ => none

/-- Between the calls the books balance. `base f` is 1 for a frame that was
taken when the machine had started, and that owner is nobody among the
clients. -/
structure Balanced (base : Nat → Nat) (s : Clients) : Prop where
  wf : s.pmm.Wf
  ledger : ∀ f, s.pmm.frameOwners f = s.held f + base f
  kept : ∀ f, f = 0 ∨ s.pmm.highestFrame < f → 0 < base f

namespace Balanced

open Pmm

variable {base : Nat → Nat} {s : Clients}

theorem start (mbi : Multiboot) {kernelStart kernelEnd : Nat} {regions : List (Nat × Nat)}
    (hend : kernelEnd < 0xFFFFF000) (hends : ∀ r ∈ regions, r.2 < 0xFFFFF000) :
    Balanced (booted mbi kernelStart kernelEnd regions).frameOwners
      ⟨booted mbi kernelStart kernelEnd regions, fun _ => 0⟩ := by
  obtain ⟨hwf, _⟩ := booted_spec mbi kernelStart hend hends
  refine ⟨hwf, fun f => (Nat.zero_add _).symm, fun f hf => ?_⟩
  rw [Nat.pos_iff_ne_zero, Ne, frameOwners_eq_zero]
  intro hfree
  rcases hf with rfl | hf
  · rw [hwf.ground] at hfree
    cases hfree
  · exact absurd (hwf.within f hfree) (Nat.not_le_of_lt hf)

theorem take {n : Nat} {r : Nat × Pmm} (hs : Balanced base s) (h : AllocCase s.pmm n r) :
    Balanced base (s.take n r).1 := by
  cases h with
  | refused p' _ hwf howners hhigh =>
    refine ⟨hwf, fun f => ?_, fun f hf => hs.kept f (hhigh ▸ hf)⟩
    show p'.frameOwners f = s.held f + base f
    rw [howners]
    exact hs.ledger f
  | given start p' hleast hzero _ hgives =>
    refine ⟨hgives.wf, fun f => ?_, fun f hf => hs.kept f (hgives.highest ▸ hf)⟩
    show p'.frameOwners f = (if start * PMM_FRAME_SIZE = 0 then s.held
      else give s.held (start * PMM_FRAME_SIZE / PMM_FRAME_SIZE) n) f + base f
    rw [if_neg (Nat.mul_ne_zero hzero (by decide)), Nat.mul_div_cancel _ (by decide), hgives.owners, give]
    have hbal := hs.ledger f
    split
    · rename_i hin
      have hfree := hgives.free (f - start) (by omega)
      rw [Nat.add_sub_cancel' hin.1] at hfree
      rw [frameOwners_eq_zero.mpr hfree] at hbal
      omega
    · exact hbal

theorem share {f : Nat} {r : Nat × Pmm} (hs : Balanced base s) (h : ShareCase s.pmm f r) :
    Balanced base ⟨r.2, if r.1 = 0 then s.held else update s.held f (s.held f + 1)⟩ := by
  cases h with
  | refused => exact hs
  | shared p' hwf _ howners hhigh =>
    refine ⟨hwf, fun g => ?_, fun g hg => hs.kept g (hhigh ▸ hg)⟩
    show p'.frameOwners g = update s.held f (s.held f + 1) g + base g
    have hbal := hs.ledger g
    rw [howners]
    by_cases hg : g = f
    · subst hg
      rw [update_self, update_self]
      omega
    · rw [update_of_ne hg, update_of_ne hg]
      exact hbal

theorem free {phys : Nat} (hs : Balanced base s) (hphys : phys < 0x100000000)
    (howned : 0 < s.held (phys / PMM_FRAME_SIZE)) :
    Balanced base ⟨s.pmm.pmmFreeFrame phys, giveBack s.held phys⟩ := by
  have hlt : phys / PMM_FRAME_SIZE < MAX_FRAMES := by
    simp only [PMM_FRAME_SIZE, MAX_FRAMES]
    omega
  have hbal := hs.ledger (phys / PMM_FRAME_SIZE)
  obtain ⟨hwf, hhigh, howners⟩ := pmmFreeFrame_spec hs.wf hlt fun hone => by
    refine ⟨fun h => ?_, ?_⟩
    · have := hs.kept _ (Or.inl h)
      omega
    · by_contra h
      have := hs.kept (phys / PMM_FRAME_SIZE) (Or.inr (by omega))
      omega
  refine ⟨hwf, fun g => ?_, fun g hg => hs.kept g (hhigh ▸ hg)⟩
  show (s.pmm.pmmFreeFrame phys).frameOwners g = giveBack s.held phys g + base g
  rw [howners, giveBack]
  generalize phys / PMM_FRAME_SIZE = f at howned hbal ⊢
  by_cases hg : g = f
  · subst hg
    rw [update_self, update_self]
    omega
  · rw [update_of_ne hg, update_of_ne hg]
    exact hs.ledger g

theorem freeRun : ∀ (count : Nat) {phys : Nat} {s : Clients}, Balanced base s → phys < 0x100000000 →
    OwnedRun s.held phys count → Balanced base ⟨s.pmm.pmmFreeContiguous phys count, giveBackRun s.held phys count⟩ := by
  intro count
  induction count with
  | zero => exact fun hs _ _ => hs
  | succ count ih =>
    intro phys s hs hphys howned
    exact ih (s := ⟨s.pmm.pmmFreeFrame phys, giveBack s.held phys⟩) (hs.free hphys howned.1)
      (Nat.mod_lt _ (by decide)) howned.2

theorem allocated (hs : Balanced base s) (count : UInt32) :
    count.toNat = 0 ∧ (clients.step s (.allocContiguous count)) = (s, 0) ∨
      0 < count.toNat ∧ AllocCase s.pmm count.toNat (s.pmm.pmmAllocContiguous count.toNat) := by
  rcases Nat.eq_zero_or_pos count.toNat with hzero | hpos
  · left
    simp [hzero, clients, Clients.call, Clients.take, pmmAllocContiguous]
  · exact Or.inr ⟨hpos, pmmAllocContiguous_cases hs.wf hpos count.toNat_lt⟩

theorem step (s : Clients) (c : Call) (hs : Balanced base s) (hc : s.Owned c) :
    Balanced base (clients.step s c).1 := by
  cases c with
  | allocFrame => exact hs.take (pmmAllocFrame_cases hs.wf)
  | allocContiguous count =>
    rcases hs.allocated count with ⟨_, hnone⟩ | ⟨_, hcase⟩
    · rw [hnone]
      exact hs
    · exact hs.take hcase
  | frameShare phys => exact hs.share (pmmFrameShare_cases hs.wf phys.toNat)
  | freeFrame phys => exact hs.free phys.toNat_lt hc
  | freeContiguous phys count => exact hs.freeRun _ phys.toNat_lt hc

end Balanced

/-- What the allocator promises in a state: about the frames as they are, and
about the next call. `Never` are the frames that are not to be handed out. -/
structure Promises (Never : Nat → Prop) (base : Nat → Nat) (s : Clients) : Prop where
  /-- What is returned is the start of the lowest run of free frames. -/
  lowest : ∀ c n, c.asks = some n → (clients.step s c).2 ≠ 0 →
    ∃ start, (clients.step s c).2 = start * PMM_FRAME_SIZE ∧ IsLeast {f | s.pmm.RunAt n f} start
  /-- There is none only if there is none to be had. -/
  complete : ∀ c n, c.asks = some n → (clients.step s c).2 = 0 → n = 0 ∨ ∀ f, ¬ s.pmm.RunAt n f
  /-- The frames returned had no owner and have one, the others keep theirs,
  and none of them was to be kept. -/
  exclusive : ∀ c n, c.asks = some n → (clients.step s c).2 ≠ 0 → ∀ f,
    if (clients.step s c).2 / PMM_FRAME_SIZE ≤ f ∧ f < (clients.step s c).2 / PMM_FRAME_SIZE + n then
      s.pmm.frameOwners f = 0 ∧ (clients.step s c).1.pmm.frameOwners f = 1 ∧ ¬ Never f
    else (clients.step s c).1.pmm.frameOwners f = s.pmm.frameOwners f
  /-- The owners are the clients', and what was kept back. -/
  ledger : ∀ f, s.pmm.frameOwners f = s.held f + base f
  /-- A frame is free exactly when it has no owner left. -/
  free : ∀ f, s.pmm.bitmapTest f = false ↔ s.held f + base f = 0

theorem Balanced.promises {Never : Nat → Prop} {base : Nat → Nat} {s : Clients} (hs : Balanced base s)
    (hnever : ∀ f, Never f → 0 < base f) : Promises Never base s := by
  have hask : ∀ c n, c.asks = some n → n = 0 ∧ clients.step s c = (s, 0) ∨
      ∃ r, Pmm.AllocCase s.pmm n r ∧ clients.step s c = s.take n r := by
    intro c n hc
    cases c with
    | allocFrame =>
      cases hc
      exact Or.inr ⟨_, Pmm.pmmAllocFrame_cases hs.wf, rfl⟩
    | allocContiguous count =>
      cases hc
      rcases hs.allocated count with h | ⟨_, hcase⟩
      · exact Or.inl h
      · exact Or.inr ⟨_, hcase, rfl⟩
    | frameShare phys => cases hc
    | freeFrame phys => cases hc
    | freeContiguous phys count => cases hc
  have hgiven : ∀ c n, c.asks = some n → (clients.step s c).2 ≠ 0 →
      ∃ start p', (clients.step s c) = (⟨p', give s.held start n⟩, start * PMM_FRAME_SIZE) ∧
        IsLeast {f | s.pmm.RunAt n f} start ∧ Pmm.Gives s.pmm start n p' := by
    intro c n hc hsome
    rcases hask c n hc with ⟨_, h⟩ | ⟨r, hcase, h⟩
    · rw [h] at hsome
      exact absurd rfl hsome
    · rw [h] at hsome ⊢
      cases hcase with
      | refused p' _ _ _ _ => exact absurd rfl hsome
      | given start p' hleast hzero _ hgives =>
        refine ⟨start, p', ?_, hleast, hgives⟩
        unfold Clients.take
        rw [if_neg (Nat.mul_ne_zero hzero (by decide)), Nat.mul_div_cancel _ (by decide)]
  refine ⟨?_, ?_, ?_, hs.ledger, ?_⟩
  · intro c n hc hsome
    obtain ⟨start, p', h, hleast, _⟩ := hgiven c n hc hsome
    exact ⟨start, by rw [h], hleast⟩
  · intro c n hc hnone
    rcases hask c n hc with ⟨hzero, _⟩ | ⟨r, hcase, h⟩
    · exact Or.inl hzero
    · rw [h] at hnone
      cases hcase with
      | refused p' hall _ _ _ => exact Or.inr hall
      | given start p' _ hzero _ _ =>
        exact absurd hnone (Nat.mul_ne_zero hzero (by decide))
  · intro c n hc hsome f
    obtain ⟨start, p', h, _, hgives⟩ := hgiven c n hc hsome
    rw [h]
    rw [Nat.mul_div_cancel _ (by decide), hgives.owners]
    split
    · rename_i hin
      have hfree := hgives.free (f - start) (by omega)
      rw [Nat.add_sub_cancel' hin.1, ← Pmm.frameOwners_eq_zero] at hfree
      refine ⟨hfree, rfl, fun hf => ?_⟩
      have hbal := hs.ledger f
      have := hnever f hf
      omega
    · rfl
  · intro f
    rw [← hs.ledger, Pmm.frameOwners_eq_zero]

/-- **Whatever the memory map and whatever the clients do**, as long as they
free only what they own. -/
theorem frames_owned (mbi : Multiboot) (kernelStart kernelEnd : Nat) (regions : List (Nat × Nat))
    (hend : kernelEnd < 0xFFFFF000) (hends : ∀ r ∈ regions, r.2 < 0xFFFFF000) (cs : List Call)
    (hcs : clients.Guarded Clients.Owned ⟨Pmm.booted mbi kernelStart kernelEnd regions, fun _ => 0⟩ cs) :
    Promises (Pmm.Kept kernelStart kernelEnd regions) (Pmm.booted mbi kernelStart kernelEnd regions).frameOwners
      (clients.run ⟨Pmm.booted mbi kernelStart kernelEnd regions, fun _ => 0⟩ cs) := by
  obtain ⟨_, hkept⟩ := Pmm.booted_spec mbi kernelStart hend hends
  refine (clients.invariant_of_step Balanced.step cs _ (Balanced.start mbi hend hends) hcs).promises fun f hf => ?_
  rw [Nat.pos_iff_ne_zero, Ne, Pmm.frameOwners_eq_zero, hkept f hf]
  simp

/-- Sixteen frames above the first megabyte, two of them the kernel's and one
reserved. -/
def smallMachine : Multiboot := ⟨some [⟨0x100000, 0x10000, MULTIBOOT_MEMORY_AVAILABLE⟩], 0, 0⟩

set_option maxRecDepth 20000

theorem frames_owned_small :
    Promises (Pmm.Kept 0x100000 0x102000 [(0x104000, 0x105000)])
      (Pmm.booted smallMachine 0x100000 0x102000 [(0x104000, 0x105000)]).frameOwners
      (clients.run ⟨Pmm.booted smallMachine 0x100000 0x102000 [(0x104000, 0x105000)], fun _ => 0⟩
        [.allocFrame, .allocContiguous 3, .frameShare 0x102000, .freeFrame 0x102000, .freeFrame 0x102000,
          .freeContiguous 0x105000 3]) := by
  refine frames_owned smallMachine 0x100000 0x102000 [(0x104000, 0x105000)] (by decide) (by decide) _ ?_
  refine ⟨trivial, trivial, trivial, ?_, ?_, ⟨?_, ?_, ?_, trivial⟩, trivial⟩
  all_goals (show 0 < _; decide)

end NovarisOS.Pmm32
