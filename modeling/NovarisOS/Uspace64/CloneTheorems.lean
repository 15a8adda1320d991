/-
NovarisOS.Uspace64.CloneTheorems — `vmspace64_clone_cow`, page by page.

`PageCloned` says everything the walk can do with one entry of the source:
pass it over, fail, copy the entry as it is, count one more owner of the
frame, or copy the page. The rest of this file reads that list: the moves it
is made of, what becomes of the entries of both spaces, and what is left
alone.
-/
import NovarisOS.Uspace64.Moves

namespace NovarisOS.Uspace64

open Function (update update_of_ne update_self)
open Pmm64 (Pmm)
open Vmspace64 (Pte shareFlags)

/-- What the walk can do with page `v`. -/
inductive PageCloned (src dst v : Nat) (sys : Sys) : Bool → Sys → Prop where
  | absent : sys.entry src v = none → PageCloned src dst v sys true sys
  | noRoom {e : Pte} {sys₁ : Sys} : sys.entry src v = some e → Roomed dst v sys false sys₁ →
      PageCloned src dst v sys false sys₁
  | plain {e : Pte} {sys₁ : Sys} : sys.entry src v = some e → Roomed dst v sys true sys₁ →
      (sys.pmm.owns e.frame = false ∨ e.frame = sys.zero) →
      PageCloned src dst v sys true (sys₁.setPte dst v e)
  | shared {e : Pte} {sys₁ : Sys} {pmm : Pmm} : sys.entry src v = some e →
      Roomed dst v sys true sys₁ → sys.pmm.owns e.frame = true → e.frame ≠ sys.zero →
      e.shared = true → sys₁.pmm.refFrame e.frame = some pmm →
      PageCloned src dst v sys true (({ sys₁ with pmm := pmm }).setPte dst v e)
  | counted {e : Pte} {sys₁ : Sys} {pmm : Pmm} : sys.entry src v = some e →
      Roomed dst v sys true sys₁ → sys.pmm.owns e.frame = true → e.frame ≠ sys.zero →
      e.shared = false → sys₁.pmm.refFrame e.frame = some pmm →
      PageCloned src dst v sys true
        ((({ sys₁ with pmm := pmm }).setPte src v (shareFlags e)).setPte dst v (shareFlags e))
  | refused {e : Pte} {sys₁ sys₂ : Sys} : sys.entry src v = some e →
      Roomed dst v sys true sys₁ → sys.pmm.owns e.frame = true → e.frame ≠ sys.zero →
      sys₁.pmm.refFrame e.frame = none → sys₁.Took 0 sys₂ → PageCloned src dst v sys false sys₂
  | copied {e : Pte} {sys₁ sys₂ : Sys} {f : Nat} : sys.entry src v = some e →
      Roomed dst v sys true sys₁ → sys.pmm.owns e.frame = true → e.frame ≠ sys.zero →
      sys₁.pmm.refFrame e.frame = none → sys₁.Took f sys₂ → f ≠ 0 →
      PageCloned src dst v sys true ((sys₂.copyFrame f e.frame).setPte dst v { e with frame := f })

variable {sys sys' sys₁ : Sys} {dst v src : Nat}

theorem clonePage_cases (src : Nat) (h : sys.Sound) (hv : v < LOW_PAGES)
    (hr : sys.Real dst v) :
    PageCloned src dst v sys (clonePage src dst sys v).1 (clonePage src dst sys v).2 := by
  unfold clonePage
  rw [Sys.pte_eq_entry h.trees hv]
  cases he : sys.entry src v with
  | none => exact .absent he
  | some e =>
    have hroom := makeTables_spec h hr
    rcases hm : makeTables sys dst v with ⟨ok, sys₁⟩
    rw [hm] at hroom
    have hcalm := hroom.tables.calm h hr
    cases ok with
    | false => exact .noRoom he hroom
    | true =>
      simp only
      split
      · rename_i hown
        rw [hcalm.owns] at hown
        exact .plain he hroom (Or.inl (by simpa using hown))
      · rename_i hown
        rw [hcalm.owns] at hown
        have hown : sys.pmm.owns e.frame = true := by simpa using hown
        split
        · rename_i hz
          have hz : e.frame = sys₁.zero := by simpa [Sys.isZero] using hz
          exact .plain he hroom (Or.inr (by rw [hz, hcalm.zero]))
        · rename_i hz
          have hz : e.frame ≠ sys.zero := by
            rw [← hcalm.zero]
            simpa [Sys.isZero] using hz
          have hcopy : sys₁.pmm.refFrame e.frame = none → PageCloned src dst v sys
              (if sys₁.allocHigh.1 = 0 then (false, sys₁.allocHigh.2)
                else (true, (sys₁.allocHigh.2.copyFrame sys₁.allocHigh.1 e.frame).setPte dst v
                  { e with frame := sys₁.allocHigh.1 })).1
              (if sys₁.allocHigh.1 = 0 then (false, sys₁.allocHigh.2)
                else (true, (sys₁.allocHigh.2.copyFrame sys₁.allocHigh.1 e.frame).setPte dst v
                  { e with frame := sys₁.allocHigh.1 })).2 := by
            intro href
            have htook := Sys.allocHigh_took hroom.sound.wf
            split
            · rename_i h0
              rw [h0] at htook
              exact .refused he hroom hown hz href htook
            · rename_i h0
              exact .copied he hroom hown hz href htook h0
          by_cases hsh : e.shared = true
          · rw [if_pos hsh]
            cases href : sys₁.pmm.refFrame e.frame with
            | some pmm => exact .shared he hroom hown hz hsh href
            | none => exact hcopy href
          · rw [if_neg hsh]
            cases href : sys₁.pmm.refFrame e.frame with
            | some pmm => exact .counted he hroom hown hz (by simpa using hsh) href
            | none => exact hcopy href

/-! ## As moves -/

section

variable {watch : Nat → Bool} {files : Nat → List Nat} {hand : List Nat}

theorem Tables.moves {s v : Nat} {sys sys' : Sys} (h : Tables s v sys sys') (hw : watch s = true)
    (hv : v < LOW_PAGES) (hr : sys.Real s v) : Moves watch files (hand, sys) (hand, sys') := by
  induction h with
  | done => exact .refl
  | step hone _ ih =>
    exact (Relation.ReflTransGen.single (.table hw hv hr hone)).trans (ih (hone.real hr))

theorem setPte_ref (sys : Sys) (pmm : Pmm) (s v : Nat) (e : Pte) :
    ({ sys with pmm := pmm } : Sys).setPte s v e = { sys.setPte s v e with pmm := pmm } := by
  simp only [Sys.setPte, Sys.setTree, Sys.tree]
  split
  · split <;> rfl
  · rfl

theorem setPte_mem (sys : Sys) (mem : Nat → Mem) (s v : Nat) (e : Pte) :
    ({ sys with mem := mem } : Sys).setPte s v e = { sys.setPte s v e with mem := mem } := by
  simp only [Sys.setPte, Sys.setTree, Sys.tree]
  split
  · split <;> rfl
  · rfl

/-- A page of the walk, in a space that maps only frames of the allocator's
and the zero frame. -/
theorem PageCloned.moves {src dst v : Nat} {sys sys' : Sys} {ok : Bool} (h : sys.Sound)
    (hv : v < LOW_PAGES) (hr : sys.Real dst v) (hne : src ≠ dst) (hw : watch dst = true)
    (hnone : sys.entry dst v = none)
    (howned : ∀ e, sys.entry src v = some e → sys.pmm.owns e.frame = true ∨ e.frame = sys.zero)
    (hzero : sys.ZeroHeld) (hc : PageCloned src dst v sys ok sys') : Moves watch files (hand, sys) (hand, sys') := by
  -- what the entry is written into, once there is room
  have hroomed : ∀ {sys₁ : Sys}, Roomed dst v sys true sys₁ →
      Moves watch files (hand, sys) (hand, sys₁) ∧ ∃ t, sys₁.spaces dst = some t ∧ t.Open v ∧
        t.pages.get v = none := by
    intro sys₁ hroom
    obtain ⟨t, ht, hopen⟩ := hroom.space hv
    refine ⟨hroom.tables.moves hw hv hr, t, ht, hopen, ?_⟩
    rw [← Sys.entry_of_space ht, (hroom.tables.calm h hr).entry, hnone]
  cases hc with
  | absent => exact .refl
  | noRoom _ hroom => exact hroom.tables.moves hw hv hr
  | plain he hroom hforeign =>
    rename_i e sys₁
    obtain ⟨hmoves, t, ht, hopen, hget⟩ := hroomed hroom
    have hcalm := hroom.tables.calm h hr
    have hz : e.frame = sys₁.zero := by
      rw [hcalm.zero]
      rcases hforeign with hforeign | hz
      · rcases howned e he with hown | hz
        · rw [hforeign] at hown
          cases hown
        · exact hz
      · exact hz
    refine hmoves.tail (.putZero hv ht hopen (by rw [hget]; rfl) hz (Or.inr ⟨src, v, ?_⟩))
    rw [hcalm.entry, he]
  | shared he hroom hown hz hsh href =>
    rename_i e sys₁ pmm
    obtain ⟨hmoves, t, ht, hopen, hget⟩ := hroomed hroom
    have hcalm := hroom.tables.calm h hr
    have hz₁ : e.frame ≠ sys₁.zero := by rwa [hcalm.zero]
    refine (hmoves.tail (.refer href (Or.inl ⟨src, v, e, ?_, rfl, hz₁⟩))).tail
      (.put hw hv ht hopen (by rw [hget]; rfl) hz₁)
    rw [hcalm.entry, he]
  | counted he hroom hown hz hsh href =>
    rename_i e sys₁ pmm
    obtain ⟨hmoves, t, ht, hopen, hget⟩ := hroomed hroom
    have hcalm := hroom.tables.calm h hr
    have hz₁ : e.frame ≠ sys₁.zero := by rwa [hcalm.zero]
    have he₁ : sys₁.entry src v = some e := by rw [hcalm.entry, he]
    obtain ⟨ts, hts, hgets⟩ := Sys.space_of_entry he₁
    have hrefer := hmoves.tail (.refer href (Or.inl ⟨src, v, e, he₁, rfl, hz₁⟩))
    have hsrc := hrefer.tail (@Move.repage _ _ _ _ _ _ _ _ (shareFlags e)
      (show ({ sys₁ with pmm := pmm } : Sys).spaces src = some ts from hts) hgets rfl
      (fun h => absurd h hz₁))
    refine hsrc.tail ?_
    have hdst : (({ sys₁ with pmm := pmm } : Sys).setPte src v (shareFlags e)).spaces dst = some t := by
      rw [Sys.setPte_low hv (show ({ sys₁ with pmm := pmm } : Sys).spaces src = some ts from hts),
        Sys.withTree_spaces_ne _ _ (Ne.symm hne)]
      exact ht
    have hzero := (Sys.setPte_fields { sys₁ with pmm := pmm } src v (shareFlags e)).2.2.1
    refine .put (e := shareFlags e) hw hv hdst hopen (by rw [hget]; rfl) ?_
    rw [hzero]
    exact hz₁
  | refused he hroom hown hz href htook => exact (hroomed hroom).1.tail (.refused htook)
  | copied he hroom hown hz href htook hf =>
    rename_i e sys₁ sys₂ f
    obtain ⟨hmoves, t, ht, hopen, hget⟩ := hroomed hroom
    have htaken := (hmoves.tail (.take htook hf)).tail (.memory (sys₂.copyFrame f e.frame).mem)
    refine htaken.tail (.put (e := { e with frame := f }) hw hv (by rw [← ht, ← htook.spaces]) hopen
      (by rw [hget]; rfl) ?_)
    have hcalm := hroom.tables.calm h hr
    show f ≠ sys₂.zero
    exact (hzero.calm hcalm).fresh htook hf

end

/-! ## The entries of both spaces -/

/-- What becomes of the entry of the source: it may be marked as shared. -/
def KeptBy (sys : Sys) (old new : Option Pte) : Prop :=
  new = old ∨ ∃ e, old = some e ∧ e.shared = false ∧ e.frame ≠ sys.zero ∧
    sys.pmm.owns e.frame = true ∧ new = some (shareFlags e)

/-- What the target gets for an entry of the source. The page is copied only
if the count of its frame is full. -/
def GivenFor (sys : Sys) (e e' : Pte) : Prop :=
  e' = e ∨ (e' = shareFlags e ∧ e.shared = false) ∨
    ∃ f, e' = { e with frame := f } ∧ sys.pmm.owns e.frame = true ∧ e.frame ≠ sys.zero ∧
      (0 < sys.pmm.frameOwners e.frame → sys.pmm.frameOwners e.frame = 256)

/-- The entries after one page of the walk. -/
structure PageEntries (src dst v : Nat) (sys : Sys) (ok : Bool) (sys' : Sys) : Prop where
  elsewhere : ∀ s' v', ¬ (s' = src ∧ v' = v) → ¬ (s' = dst ∧ v' = v) →
    sys'.entry s' v' = sys.entry s' v'
  source : KeptBy sys (sys.entry src v) (sys'.entry src v)
  target : ok = true → ∀ e, sys.entry src v = some e →
    ∃ e', sys'.entry dst v = some e' ∧ GivenFor sys e e'
  here : ∀ s', sys'.spaces s' = none ↔ sys.spaces s' = none

theorem PageEntries.of_calm (h : Calm sys sys') :
    PageEntries src dst v sys false sys' where
  elsewhere s' v' _ _ := h.entry s' v'
  source := Or.inl (h.entry src v)
  target hok := absurd hok (by simp)
  here := h.here

theorem PageEntries.of_setPte (h : Calm sys sys₁)
    (hv : v < LOW_PAGES) (hne : src ≠ dst) {t : PageTree} (ht : sys₁.spaces dst = some t) {e e' : Pte}
    (he : sys.entry src v = some e) (hgiven : GivenFor sys e e') :
    PageEntries src dst v sys true (sys₁.setPte dst v e') where
  elsewhere s' v' _ hdst := by rw [Sys.entry_setPte hv ht, if_neg hdst, h.entry]
  source := Or.inl (by rw [Sys.entry_setPte hv ht, if_neg fun h => hne h.1, h.entry])
  target _ e₀ he₀ := by
    rw [he] at he₀
    cases he₀
    exact ⟨e', by rw [Sys.entry_setPte hv ht, if_pos ⟨rfl, rfl⟩], hgiven⟩
  here s' := (Sys.setPte_here dst v e' s').trans (h.here s')

variable {ok : Bool}

theorem PageCloned.entries (h : sys.Sound)
    (hv : v < LOW_PAGES) (hr : sys.Real dst v) (hne : src ≠ dst)
    (hc : PageCloned src dst v sys ok sys') : PageEntries src dst v sys ok sys' := by
  cases hc with
  | absent he =>
    refine ⟨fun _ _ _ _ => rfl, Or.inl rfl, fun _ e he' => ?_, fun _ => Iff.rfl⟩
    rw [he] at he'
    cases he'
  | noRoom _ hroom => exact .of_calm (hroom.tables.calm h hr)
  | plain he hroom _ =>
    obtain ⟨t, ht, -⟩ := hroom.space hv
    exact .of_setPte (hroom.tables.calm h hr) hv hne ht he (Or.inl rfl)
  | shared he hroom _ _ _ href =>
    obtain ⟨t, ht, -⟩ := hroom.space hv
    have hentries := PageEntries.of_setPte (hroom.tables.calm h hr) hv hne ht he (Or.inl rfl)
    rw [setPte_ref]
    exact ⟨hentries.elsewhere, hentries.source, hentries.target, hentries.here⟩
  | counted he hroom hown hz hsh href =>
    rename_i e sys₁ pmm
    have hcalm := hroom.tables.calm h hr
    obtain ⟨t, ht, -⟩ := hroom.space hv
    have he₁ : sys₁.entry src v = some e := by rw [hcalm.entry, he]
    obtain ⟨ts, hts, -⟩ := Sys.space_of_entry he₁
    have hts' : ({ sys₁ with pmm := pmm } : Sys).spaces src = some ts := hts
    have hdst : (({ sys₁ with pmm := pmm } : Sys).setPte src v (shareFlags e)).spaces dst = some t := by
      rw [Sys.setPte_low hv hts', Sys.withTree_spaces_ne _ _ (Ne.symm hne)]
      exact ht
    have hentry : ∀ s' v', ((({ sys₁ with pmm := pmm } : Sys).setPte src v (shareFlags e)).setPte dst v
        (shareFlags e)).entry s' v' = if s' = dst ∧ v' = v then some (shareFlags e)
          else if s' = src ∧ v' = v then some (shareFlags e) else sys.entry s' v' := by
      intro s' v'
      rw [Sys.entry_setPte hv hdst, Sys.entry_setPte hv hts', ← hcalm.entry]
      rfl
    refine ⟨?_, ?_, ?_, ?_⟩
    · intro s' v' hsrc hdst
      rw [hentry, if_neg hdst, if_neg hsrc]
    · refine Or.inr ⟨e, he, hsh, hz, hown, ?_⟩
      rw [hentry, if_neg fun h => hne h.1, if_pos ⟨rfl, rfl⟩]
    · intro _ e₀ he₀
      rw [he] at he₀
      cases he₀
      exact ⟨shareFlags e, by rw [hentry, if_pos ⟨rfl, rfl⟩], Or.inr (Or.inl ⟨rfl, hsh⟩)⟩
    · intro s'
      rw [Sys.setPte_here, Sys.setPte_here]
      exact hcalm.here s'
  | refused he hroom hown hz href htook =>
    exact .of_calm ((hroom.tables.calm h hr).trans (.took htook hroom.sound.ground))
  | copied he hroom hown hz href htook hf =>
    rename_i e sys₁ sys₂ f
    have hcalm := hroom.tables.calm h hr
    obtain ⟨t, ht, -⟩ := hroom.space hv
    have ht₂ : sys₂.spaces dst = some t := by rw [htook.spaces, ht]
    have hgiven : GivenFor sys e { e with frame := f } := by
      refine Or.inr (Or.inr ⟨f, rfl, hown, hz, fun hpos => ?_⟩)
      have hsame := hcalm.owners _ hpos
      rcases Pmm.refFrame_none hroom.sound.wf href with h0 | hfull
      · omega
      · rw [← hsame, hfull]
    have hentries := PageEntries.of_setPte (hcalm.trans (.took htook hroom.sound.ground)) hv hne ht₂ he
      hgiven
    rw [Sys.copyFrame, setPte_mem]
    exact ⟨hentries.elsewhere, hentries.source, hentries.target, hentries.here⟩

/-! ## What the walk leaves alone -/

/-- What a prefix of the walk, up to here, has done to the rest of the
machine: frames that had owners keep their bytes, and lose no owner. -/
structure CloneRest (sys sys' : Sys) : Prop where
  sound : sys'.Sound
  mem : ∀ g, 0 < sys.pmm.frameOwners g → sys'.mem g = sys.mem g
  owners : ∀ g, sys.pmm.frameOwners g ≤ sys'.pmm.frameOwners g
  zero : sys'.zero = sys.zero
  live : sys'.live = sys.live
  upper : sys'.upper = sys.upper
  owns : sys'.pmm.owns = sys.pmm.owns

theorem CloneRest.refl (h : sys.Sound) : CloneRest sys sys :=
  ⟨h, fun _ _ => rfl, fun _ => Nat.le_refl _, rfl, rfl, rfl, rfl⟩

theorem CloneRest.trans {sys'' : Sys} (h : CloneRest sys sys') (h' : CloneRest sys' sys'') :
    CloneRest sys sys'' where
  sound := h'.sound
  mem g hg := by
    have := h.owners g
    rw [h'.mem g (by omega), h.mem g hg]
  owners g := Nat.le_trans (h.owners g) (h'.owners g)
  zero := h'.zero.trans h.zero
  live := h'.live.trans h.live
  upper := h'.upper.trans h.upper
  owns := h'.owns.trans h.owns

theorem CloneRest.of_calm (h : Calm sys sys') (hsound : sys'.Sound)
    (hupper : sys'.upper = sys.upper) : CloneRest sys sys' where
  sound := hsound
  mem g _ := by rw [h.mem]
  owners g := by
    rcases Nat.eq_zero_or_pos (sys.pmm.frameOwners g) with h0 | hpos
    · omega
    · rw [h.owners g hpos]
  zero := h.zero
  live := h.live
  upper := hupper
  owns := funext h.owns

theorem CloneRest.setPte (h : CloneRest sys sys') {s : Nat} {t : PageTree}
    (hv : v < LOW_PAGES) (hs : sys'.spaces s = some t) (hopen : t.Open v) (e : Pte) :
    CloneRest sys (sys'.setPte s v e) := by
  obtain ⟨hpmm, hmem, hzero, hlive⟩ := Sys.setPte_fields sys' s v e
  exact ⟨h.sound.setPte hv hs hopen e, by rw [hmem]; exact h.mem, by rw [hpmm]; exact h.owners,
    by rw [hzero]; exact h.zero, by rw [hlive]; exact h.live,
    by rw [Sys.setPte_upper hv]; exact h.upper, by rw [hpmm]; exact h.owns⟩

theorem CloneRest.refFrame (h : CloneRest sys sys') {f : Nat} {pmm : Pmm}
    (hr : sys'.pmm.refFrame f = some pmm) : CloneRest sys { sys' with pmm := pmm } := by
  obtain ⟨-, howners, -, -, hready, hcount, hram, -⟩ := Pmm.refFrame_some h.sound.wf hr
  refine ⟨h.sound.refFrame hr, h.mem, fun g => ?_, h.zero, h.live, h.upper, ?_⟩
  · show sys.pmm.frameOwners g ≤ pmm.frameOwners g
    refine Nat.le_trans (h.owners g) ?_
    rw [howners]
    by_cases hg : g = f
    · rw [hg, update_self]
      omega
    · rw [update_of_ne hg]
  · rw [← h.owns]
    funext g
    rw [Pmm.owns, Pmm.owns, hready, hcount, hram]

theorem CloneRest.copyFrame {sys₂ : Sys} {f g : Nat} (h : CloneRest sys sys₁)
    (ht : sys₁.Took f sys₂) (hf : f ≠ 0) : CloneRest sys (sys₂.copyFrame f g) := by
  have hcalm : Calm sys₁ sys₂ := .took ht h.sound.ground
  have hrest := h.trans (.of_calm hcalm (h.sound.took ht) ht.upper)
  refine ⟨⟨hrest.sound.wf, hrest.sound.ground, hrest.sound.trees⟩, fun g' hg' => ?_, hrest.owners,
    hrest.zero, hrest.live, hrest.upper, hrest.owns⟩
  have hne : g' ≠ f := by
    intro heq
    have h0 := (ht.pmm.fresh hf).2.1
    have := h.owners g'
    rw [heq] at this hg'
    omega
  show update sys₂.mem f _ g' = _
  rw [update_of_ne hne, hrest.mem g' hg']

theorem PageCloned.rest (h : sys.Sound)
    (hv : v < LOW_PAGES) (hr : sys.Real dst v) (hne : src ≠ dst)
    (hc : PageCloned src dst v sys ok sys') : CloneRest sys sys' := by
  have hroomed : ∀ {ok : Bool} {sys₁ : Sys}, Roomed dst v sys ok sys₁ → CloneRest sys sys₁ :=
    fun hroom => .of_calm (hroom.tables.calm h hr) hroom.sound (hroom.tables.upper hv)
  cases hc with
  | absent => exact .refl h
  | noRoom _ hroom => exact hroomed hroom
  | plain he hroom _ =>
    obtain ⟨t, ht, hopen⟩ := hroom.space hv
    exact (hroomed hroom).setPte hv ht hopen _
  | shared he hroom _ _ _ href =>
    obtain ⟨t, ht, hopen⟩ := hroom.space hv
    exact ((hroomed hroom).refFrame href).setPte hv ht hopen _
  | counted he hroom hown hz hsh href =>
    rename_i e sys₁ pmm
    have hcalm := hroom.tables.calm h hr
    obtain ⟨t, ht, hopen⟩ := hroom.space hv
    obtain ⟨ts, hts, hget⟩ := Sys.space_of_entry ((hcalm.entry src v).trans he)
    have hrooted := (hroom.sound.trees src ts hts).rooted v e hget
    have hts' : ({ sys₁ with pmm := pmm } : Sys).spaces src = some ts := hts
    have hdst : (({ sys₁ with pmm := pmm } : Sys).setPte src v (shareFlags e)).spaces dst = some t := by
      rw [Sys.setPte_low hv hts', Sys.withTree_spaces_ne _ _ (Ne.symm hne)]
      exact ht
    exact (((hroomed hroom).refFrame href).setPte hv hts' hrooted _).setPte hv hdst hopen _
  | refused he hroom hown hz href htook =>
    exact (hroomed hroom).trans (.of_calm (.took htook hroom.sound.ground)
      (hroom.sound.took htook) htook.upper)
  | copied he hroom hown hz href htook hf =>
    rename_i e sys₁ sys₂ f
    obtain ⟨t, ht, hopen⟩ := hroom.space hv
    have ht₂ : (sys₂.copyFrame f e.frame).spaces dst = some t := htook.spaces ▸ ht
    exact ((hroomed hroom).copyFrame htook hf).setPte hv ht₂ hopen _

theorem PageCloned.owners_le (h : sys.Sound)
    (hr : sys.Real dst v) (hc : PageCloned src dst v sys ok sys') {g : Nat}
    (hg : 0 < sys.pmm.frameOwners g) : sys'.pmm.frameOwners g ≤
      sys.pmm.frameOwners g + if (sys.entry src v).map Pte.frame = some g then 1 else 0 := by
  have hroomed : ∀ {ok : Bool} {sys₁ : Sys}, Roomed dst v sys ok sys₁ →
      sys₁.pmm.frameOwners g = sys.pmm.frameOwners g :=
    fun hroom => (hroom.tables.calm h hr).owners g hg
  have hset := fun (sys : Sys) (s : Nat) (e : Pte) => (Sys.setPte_fields sys s v e).1
  have href' : ∀ {e : Pte} {sys₁ : Sys} {pmm : Pmm}, sys.entry src v = some e →
      Roomed dst v sys true sys₁ → sys₁.pmm.refFrame e.frame = some pmm →
      pmm.frameOwners g ≤ sys.pmm.frameOwners g +
        if (sys.entry src v).map Pte.frame = some g then 1 else 0 := by
    intro e sys₁ pmm he hroom href
    obtain ⟨-, howners, -⟩ := Pmm.refFrame_some hroom.sound.wf href
    rw [howners, he]
    by_cases hge : g = e.frame
    · subst hge
      simp [hroomed hroom]
    · rw [update_of_ne hge, hroomed hroom]
      exact Nat.le_add_right _ _
  cases hc with
  | absent => exact Nat.le_add_right _ _
  | noRoom _ hroom => exact Nat.le_trans (Nat.le_of_eq (hroomed hroom)) (Nat.le_add_right _ _)
  | plain he hroom _ =>
    rw [hset]
    exact Nat.le_trans (Nat.le_of_eq (hroomed hroom)) (Nat.le_add_right _ _)
  | shared he hroom _ _ _ href =>
    rw [hset]
    exact href' he hroom href
  | counted he hroom hown hz hsh href =>
    rw [hset, hset]
    exact href' he hroom href
  | refused he hroom hown hz href htook =>
    have hone := hroomed hroom
    rw [(Calm.took htook hroom.sound.ground).owners g (by omega), hone]
    exact Nat.le_add_right _ _
  | copied he hroom hown hz href htook hf =>
    rw [hset]
    have hone := hroomed hroom
    have hsame := (Calm.took htook hroom.sound.ground).owners g (by omega)
    rw [hone] at hsame
    exact Nat.le_trans (Nat.le_of_eq hsame) (Nat.le_add_right _ _)

/-! ## The walk -/

/-- Where a walk over the pages `vs` may start. -/
structure Walkable (src dst : Nat) (vs : List Nat) (sys : Sys) : Prop where
  sound : sys.Sound
  here : sys.spaces dst ≠ none
  nodup : vs.Nodup
  low : ∀ v ∈ vs, v < LOW_PAGES
  none : ∀ v ∈ vs, sys.entry dst v = none

/-- What it has done at its end, successful or not. -/
structure Walked (src dst : Nat) (vs : List Nat) (sys sys' : Sys) : Prop where
  rest : CloneRest sys sys'
  here : ∀ s', sys'.spaces s' = none ↔ sys.spaces s' = none
  others : ∀ s' v', s' ≠ src → s' ≠ dst → sys'.entry s' v' = sys.entry s' v'
  skipped : ∀ s' v', v' ∉ vs → sys'.entry s' v' = sys.entry s' v'
  source : ∀ v', KeptBy sys (sys.entry src v') (sys'.entry src v')
  owners : ∀ g, 0 < sys.pmm.frameOwners g → sys'.pmm.frameOwners g ≤
    sys.pmm.frameOwners g + (vs.filter fun v => (sys.entry src v).map Pte.frame = some g).length

variable {vs : List Nat}

theorem Walkable.real (h : Walkable src dst vs sys) : sys.Real dst v :=
  fun _ => Option.ne_none_iff_exists'.mp h.here

theorem Walkable.tail
    (h : Walkable src dst (v :: vs) sys) (hrest : CloneRest sys sys')
    (hentries : PageEntries src dst v sys ok sys') : Walkable src dst vs sys' where
  sound := hrest.sound
  here := fun hnone => h.here ((hentries.here dst).mp hnone)
  nodup := (List.nodup_cons.mp h.nodup).2
  low v' hv' := h.low v' (List.mem_cons_of_mem _ hv')
  none v' hv' := by
    have hne : v' ≠ v := ne_of_mem_of_not_mem hv' (List.nodup_cons.mp h.nodup).1
    rw [hentries.elsewhere dst v' (fun h => hne h.2) (fun h => hne h.2)]
    exact h.none v' (List.mem_cons_of_mem _ hv')

theorem Walked.refl (vs : List Nat) (h : sys.Sound) : Walked src dst vs sys sys :=
  ⟨.refl h, fun _ => Iff.rfl, fun _ _ _ _ => rfl, fun _ _ _ => rfl, fun _ => Or.inl rfl,
    fun _ _ => Nat.le_add_right _ _⟩

theorem KeptBy.of_rest (h : CloneRest sys sys') {old new : Option Pte}
    (hk : KeptBy sys' old new) : KeptBy sys old new := by
  rcases hk with hk | ⟨e, he, hsh, hz, hown, hnew⟩
  · exact Or.inl hk
  · exact Or.inr ⟨e, he, hsh, h.zero ▸ hz, h.owns ▸ hown, hnew⟩

theorem KeptBy.frame {old new : Option Pte} (h : KeptBy sys old new) :
    new.map Pte.frame = old.map Pte.frame := by
  rcases h with h | ⟨e, he, -, -, -, hnew⟩
  · rw [h]
  · rw [he, hnew]
    rfl

theorem Walked.cons
    (hnot : v ∉ vs) (hrest : CloneRest sys sys₁) (hentries : PageEntries src dst v sys ok sys₁)
    (hone : ∀ g, 0 < sys.pmm.frameOwners g → sys₁.pmm.frameOwners g ≤ sys.pmm.frameOwners g +
      if (sys.entry src v).map Pte.frame = some g then 1 else 0)
    (h : Walked src dst vs sys₁ sys') : Walked src dst (v :: vs) sys sys' where
  rest := hrest.trans h.rest
  here s' := (h.here s').trans (hentries.here s')
  others s' v' hsrc hdst := by
    rw [h.others s' v' hsrc hdst,
      hentries.elsewhere s' v' (fun h => hsrc h.1) (fun h => hdst h.1)]
  skipped s' v' hv' := by
    obtain ⟨hne, hvs⟩ := not_or.mp (mt List.mem_cons.mpr hv')
    rw [h.skipped s' v' hvs, hentries.elsewhere s' v' (fun h => hne h.2) (fun h => hne h.2)]
  source v' := by
    by_cases hvv : v' = v
    · subst hvv
      rw [h.skipped src v' hnot]
      exact hentries.source
    · have hsrc := h.source v'
      rw [hentries.elsewhere src v' (fun h => hvv h.2) (fun h => hvv h.2)] at hsrc
      exact hsrc.of_rest hrest
  owners g hg := by
    have hsteps := h.owners g (Nat.lt_of_lt_of_le hg (hrest.owners g))
    have hone := hone g hg
    -- the pages still to come have the frames they had
    have hsame : (vs.filter fun v => (sys₁.entry src v).map Pte.frame = some g) =
        vs.filter fun v => (sys.entry src v).map Pte.frame = some g := by
      refine List.filter_congr fun v' hv' => ?_
      have hne : v' ≠ v := ne_of_mem_of_not_mem hv' hnot
      rw [hentries.elsewhere src v' (fun h => hne h.2) (fun h => hne h.2)]
    rw [hsame] at hsteps
    rw [List.filter_cons]
    split
    · rename_i hv
      rw [if_pos (by simpa using hv)] at hone
      rw [List.length_cons]
      omega
    · rename_i hv
      rw [if_neg (by simpa using hv)] at hone
      omega

theorem clonePages_walked (hne : src ≠ dst) : ∀ (vs : List Nat) (sys : Sys),
    Walkable src dst vs sys → Walked src dst vs sys (clonePages src dst vs sys).2 := by
  intro vs
  induction vs with
  | nil => intro sys h; exact .refl [] h.sound
  | cons v vs ih =>
    intro sys h
    have hv := h.low v (List.mem_cons_self ..)
    have hc := clonePage_cases src h.sound hv h.real
    have hrest := hc.rest h.sound hv h.real hne
    have hentries := hc.entries h.sound hv h.real hne
    have hone := fun g hg => hc.owners_le h.sound h.real (g := g) hg
    have hnot := (List.nodup_cons.mp h.nodup).1
    rw [clonePages]
    rcases hp : clonePage src dst sys v with ⟨ok, sys₁⟩
    rw [hp] at hrest hentries hone
    cases ok with
    | false => exact .cons hnot hrest hentries hone (.refl vs hrest.sound)
    | true => exact .cons hnot hrest hentries hone (ih sys₁ (h.tail hrest hentries))

theorem clonePages_moves {watch : Nat → Bool} {files : Nat → List Nat} {hand : List Nat}
    (hne : src ≠ dst) (hw : watch dst = true) : ∀ (vs : List Nat) (sys : Sys),
    Walkable src dst vs sys → sys.ZeroHeld →
    (∀ v e, sys.entry src v = some e → sys.pmm.owns e.frame = true ∨ e.frame = sys.zero) →
    Moves watch files (hand, sys) (hand, (clonePages src dst vs sys).2) := by
  intro vs
  induction vs with
  | nil => intro sys _ _ _; exact .refl
  | cons v vs ih =>
    intro sys h hzero howned
    have hv := h.low v (List.mem_cons_self ..)
    have hc := clonePage_cases src h.sound hv h.real
    have hrest := hc.rest h.sound hv h.real hne
    have hentries := hc.entries h.sound hv h.real hne
    have hmoves : Moves watch files (hand, sys) (hand, (clonePage src dst sys v).2) :=
      hc.moves h.sound hv h.real hne hw (h.none v (List.mem_cons_self ..)) (howned v) hzero
    rw [clonePages]
    rcases hp : clonePage src dst sys v with ⟨ok, sys₁⟩
    rw [hp] at hrest hentries hmoves
    cases ok with
    | false => exact hmoves
    | true =>
      refine hmoves.trans (ih sys₁ (h.tail hrest hentries) ?_ ?_)
      · intro h0
        rw [hrest.zero] at h0 ⊢
        exact Nat.lt_of_lt_of_le (hzero h0) (hrest.owners _)
      · intro v' e he
        rw [hrest.owns, hrest.zero]
        have hframe : (sys₁.entry src v').map Pte.frame = (sys.entry src v').map Pte.frame := by
          by_cases hvv : v' = v
          · subst hvv
            exact hentries.source.frame
          · rw [hentries.elsewhere src v' (fun h => hvv h.2) (fun h => hvv h.2)]
        rw [he] at hframe
        cases he' : sys.entry src v' with
        | none => simp [he'] at hframe
        | some e₀ =>
          have : e.frame = e₀.frame := by simpa [he'] using hframe
          rw [this]
          exact howned v' e₀ he'

end NovarisOS.Uspace64
