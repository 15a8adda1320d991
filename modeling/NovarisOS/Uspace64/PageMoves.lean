/-
NovarisOS.Uspace64.PageMoves — what the functions of `kernel/uspace64.c` do
to one page, as moves of frames.

Each lemma takes a machine whose ledger is right and a page of the lower
half, and gives the moves the function makes. The loops over pages come
after: a loop that goes through a range keeps what each of its rounds keeps.
-/
import NovarisOS.Uspace64.Accounts

namespace NovarisOS.Uspace64


open Vmspace64 (Pte ownFlags)

variable {files : Nat → List Nat} {base : Nat → Nat} {hand : List Nat} {sys : Sys} {s va : Nat}

/-- The moves of a process's calls: every space is under watch. -/
abbrev Going (files : Nat → List Nat) : List Nat × Sys → List Nat × Sys → Prop :=
  Moves everywhere files

theorem Going.one {x y : List Nat × Sys} (h : Move everywhere files x y) : Going files x y :=
  Relation.ReflTransGen.single h

theorem Going.fresh {sys' : Sys} {f : Nat} (ht : sys.Took f sys') (hf : f ≠ 0) (mem : Nat → Mem) :
    Going files (hand, sys) (f :: hand, { sys' with mem := mem }) :=
  (Going.one (.take ht hf)).tail (.memory mem)

/-! ## Mapping -/

/-- What `paging64_map` is to a ledger: room is made, and then the entry is
written if there was any. -/
structure Room (files : Nat → List Nat) (sys : Sys) (s v : Nat) (ok : Bool) (sys₁ : Sys) : Prop where
  going : ∀ hand, Going files (hand, sys) (hand, sys₁)
  calm : Calm sys sys₁
  space : ok = true → ∃ t, sys₁.spaces s = some t ∧ t.Open v

theorem pagingMap_room (files : Nat → List Nat) {v : Nat} (h : sys.Sound) (hv : v < LOW_PAGES)
    (hs : sys.spaces s ≠ none)
    (frame flags : Nat) :
    ∃ sys₁, Room files sys s v (pagingMap sys s v frame flags).1 sys₁ ∧
      (pagingMap sys s v frame flags).2 = if (pagingMap sys s v frame flags).1 then
        sys₁.setPte s v (pteOf frame flags) else sys₁ := by
  have hreal : sys.Real s v := fun _ => Option.ne_none_iff_exists'.mp hs
  obtain ⟨sys₁, hroom, hres⟩ := pagingMap_spec h hreal frame flags
  refine ⟨sys₁, ⟨fun hand => hroom.tables.moves rfl hv hreal, hroom.tables.calm h hreal, fun hok => ?_⟩,
    hres⟩
  rw [hok] at hroom
  exact hroom.space hv

theorem get_none_of_entry {v : Nat} {t : PageTree} (hs : sys.spaces s = some t)
    (he : sys.entry s v = none) : (t.pages.get v).bind sys.holds = none := by
  rw [← Sys.entry_of_space hs, he]
  rfl

theorem pagingMap_zero {v : Nat} (h : Ledger files base hand sys) (flags : Nat) (hv : v < LOW_PAGES)
    (hs : sys.spaces s ≠ none) (he : sys.entry s v = none) (h0 : sys.zero ≠ 0)
    (hwrite : flags.testBit 1 = false) (hcow : flags.testBit 9 = false) :
    Going files (hand, sys) (hand, (pagingMap sys s v sys.zero flags).2) := by
  obtain ⟨sys₁, hroom, hres⟩ := pagingMap_room files h.sound hv hs sys.zero flags
  rw [hres]
  split
  · rename_i hok
    obtain ⟨t, ht, hopen⟩ := hroom.space hok
    refine (hroom.going hand).tail (.putZero hv ht hopen
      (get_none_of_entry ht (by rw [hroom.calm.entry, he])) ?_ (Or.inl ⟨hwrite, hcow, ?_⟩))
    · show sys.zero = sys₁.zero
      rw [hroom.calm.zero]
    · rw [hroom.calm.zero]
      exact h0
  · exact hroom.going hand

theorem backPage_going (h : Ledger files base hand sys) (hv : pageOf va < LOW_PAGES)
    (hs : sys.spaces s ≠ none) (he : sys.entry s (pageOf va) = none) (flags : Nat) :
    Going files (hand, sys) (hand, (backPage sys s va flags).2) := by
  have htook := Sys.allocUser_took h.sound.wf
  unfold backPage
  rcases ha : sys.allocUser with ⟨frame, sys₁⟩
  rw [ha] at htook
  simp only at htook ⊢
  split
  · rename_i h0
    subst h0
    exact .one (.refused htook)
  · rename_i h0
    have hfresh := h.zeroHeld.fresh htook h0
    have hgo : Going files (hand, sys) (frame :: hand, sys₁.zeroFrame frame) :=
      .fresh htook h0 (sys₁.zeroFrame frame).mem
    have hs₁ : (sys₁.zeroFrame frame).spaces s ≠ none := by
      show sys₁.spaces s ≠ none
      rw [htook.spaces]
      exact hs
    have he₁ : (sys₁.zeroFrame frame).entry s (pageOf va) = none := (htook.entry s _).trans he
    obtain ⟨sys₂, hroom, hres⟩ := pagingMap_room files (h.moves hgo).sound hv hs₁ frame flags
    rcases hm : pagingMap (sys₁.zeroFrame frame) s (pageOf va) frame flags with ⟨ok, sys₃⟩
    rw [hm] at hroom hres
    have hgo₂ := hgo.trans (hroom.going (frame :: hand))
    cases ok with
    | false =>
      subst hres
      exact hgo₂.tail .give
    | true =>
      simp only [if_true] at hres
      subst hres
      obtain ⟨t, ht, hopen⟩ := hroom.space rfl
      refine hgo₂.tail (.put (e := pteOf frame flags) rfl hv ht hopen
        (get_none_of_entry ht (by rw [hroom.calm.entry, he₁])) ?_)
      show frame ≠ sys₂.zero
      rw [hroom.calm.zero]
      exact hfresh

theorem pagingMap_again {v flags : Nat} {e : Pte} (h : Ledger files base hand sys)
    (he : sys.entry s v = some e) (hz : e.frame ≠ sys.zero) :
    Going files (hand, sys) (hand, (pagingMap sys s v e.frame flags).2) := by
  obtain ⟨t, ht, hget⟩ := Sys.space_of_entry he
  have hv := (h.sound.trees s t ht).low v e hget
  obtain ⟨sys₁, hroom, hres⟩ := pagingMap_room files h.sound hv (by rw [ht]; simp) e.frame flags
  rw [hres]
  split
  · obtain ⟨t₁, ht₁, hget₁⟩ := Sys.space_of_entry ((hroom.calm.entry s v).trans he)
    refine (hroom.going hand).tail (.repage ht₁ hget₁ rfl fun heq => absurd heq ?_)
    rwa [hroom.calm.zero]
  · exact hroom.going hand

/-! ## Taking a page away -/

theorem unmap_give {v : Nat} {e : Pte} (h : Ledger files base hand sys)
    (he : sys.entry s v = some e) :
    Going files (hand, sys)
      (hand, if (pagingUnmap sys s v).isZero e.frame then pagingUnmap sys s v
        else (pagingUnmap sys s v).free e.frame) := by
  obtain ⟨t, ht, hget⟩ := Sys.space_of_entry he
  have hv := (h.sound.trees s t ht).low v e hget
  have hunmap : pagingUnmap sys s v = sys.clearPte s v := by
    rw [Sys.unmap_low h.sound.trees hv, he]
    rfl
  have hzero : (sys.clearPte s v).zero = sys.zero := by rw [Sys.clearPte_low hv ht]; rfl
  rw [hunmap, Sys.isZero, hzero]
  by_cases hz : e.frame = sys.zero
  · rw [if_pos (by simpa using hz)]
    exact .one (.dropZero ht hget hz)
  · rw [if_neg (by simpa using hz)]
    exact (Going.one (.pick rfl ht hget hz)).tail .give

theorem unmapPage_going (h : Ledger files base hand sys) (hv : pageOf va < LOW_PAGES) :
    Going files (hand, sys) (hand, unmapPage s sys va) := by
  unfold unmapPage
  rw [Sys.translate_eq h.sound.trees hv]
  cases he : sys.entry s (pageOf va) with
  | none => exact .refl
  | some e => exact unmap_give h he

theorem anonPage_going (h : Ledger files base hand sys) (hv : pageOf va < LOW_PAGES) (flags : Nat)
    (zeroExisting : Bool) : Going files (hand, sys) (hand, anonPage s flags zeroExisting sys va) := by
  unfold anonPage
  rw [Sys.translate_eq h.sound.trees hv]
  cases he : sys.entry s (pageOf va) with
  | none => exact .refl
  | some e =>
    simp only [Option.map_some]
    split
    · rename_i hcase
      have hz : e.frame ≠ sys.zero := by
        simp only [Bool.and_eq_true, Bool.not_eq_true', Sys.isZero, beq_eq_false_iff_ne] at hcase
        exact hcase.1
      exact pagingMap_again h he hz
    · exact unmap_give h he

/-! ## Permissions -/

theorem setWritable_going (h : Ledger files base hand sys) (hv : pageOf va < LOW_PAGES)
    (writable : Bool) : Going files (hand, sys) (hand, (setWritable sys s va writable).2) := by
  unfold setWritable
  simp only
  rw [Sys.pte_eq_entry h.sound.trees hv]
  cases he : sys.entry s (pageOf va) with
  | none => exact .refl
  | some e =>
    obtain ⟨t, ht, hget⟩ := Sys.space_of_entry he
    simp only
    split
    · rename_i hcase
      have hz : e.frame = sys.zero := by
        simp only [Bool.and_eq_true, Sys.isZero, beq_iff_eq] at hcase
        exact hcase.1
      have htook := Sys.allocHigh_took h.sound.wf
      split
      · rename_i h0
        rw [h0] at htook
        exact .one (.refused htook)
      · rename_i h0
        have hfresh := h.zeroHeld.fresh htook h0
        have hgo : Going files (hand, sys) (sys.allocHigh.1 :: hand,
            sys.allocHigh.2.zeroFrame sys.allocHigh.1) := .fresh htook h0 _
        have ht₁ : sys.allocHigh.2.spaces s = some t := by rw [htook.spaces, ht]
        refine hgo.tail (.put (e := { ownFlags e with frame := sys.allocHigh.1 }) rfl hv ht₁
          ((h.sound.trees s t ht).rooted _ e hget) ?_ hfresh)
        rw [hget]
        show (if e.frame = sys.allocHigh.2.zero then none else some e.frame) = none
        rw [htook.zero, if_pos hz]
    · rename_i hcase
      have hro : e.frame = sys.zero → writable = false := by
        intro hz
        simpa [Sys.isZero, hz] using hcase
      split
      · exact .one (.repage ht hget rfl fun hz => ⟨rfl, rfl⟩)
      · exact .one (.repage ht hget rfl fun hz => ⟨hro hz, rfl⟩)

theorem free_setPte (sys : Sys) (s v f : Nat) (e : Pte) :
    (sys.free f).setPte s v e = (sys.setPte s v e).free f := by
  rw [Sys.free, Sys.free, setPte_ref, (Sys.setPte_fields sys s v e).1]

theorem breakCow_going (h : Ledger files base hand sys) (hv : pageOf va < LOW_PAGES) :
    Going files (hand, sys) (hand, (breakCow sys s va).2) := by
  unfold breakCow
  simp only
  rw [Sys.pte_eq_entry h.sound.trees hv]
  cases he : sys.entry s (pageOf va) with
  | none => exact .refl
  | some e =>
    obtain ⟨t, ht, hget⟩ := Sys.space_of_entry he
    simp only
    split
    · exact .refl
    · rename_i hcow
      have hz : e.frame ≠ sys.zero := by
        intro hz
        rw [(h.quiet s _ e he hz).2] at hcow
        exact hcow rfl
      split
      · exact .refl
      · split
        · have htook := Sys.allocUser_took h.sound.wf
          split
          · rename_i h0
            rw [h0] at htook
            exact .one (.refused htook)
          · rename_i h0
            have hfresh := h.zeroHeld.fresh htook h0
            have hgo : Going files (hand, sys) (sys.allocUser.1 :: hand,
                sys.allocUser.2.copyFrame sys.allocUser.1 e.frame) := .fresh htook h0 _
            have ht₁ : sys.allocUser.2.spaces s = some t := by rw [htook.spaces, ht]
            rw [free_setPte]
            refine (hgo.tail (@Move.swap _ _ _ _ _ _ _ _ { ownFlags e with frame := sys.allocUser.1 }
              rfl ht₁ hget ?_ hfresh)).tail .give
            show e.frame ≠ sys.allocUser.2.zero
            rw [htook.zero]
            exact hz
        · exact .one (.repage ht hget rfl fun heq => absurd heq hz)

/-! ## Faults and accesses -/

theorem fault_going (p : Proc) (h : Ledger files base hand sys) (hs : sys.spaces p.space ≠ none)
    (write : Bool) : Going files (hand, sys) (hand, (fault sys p va write).2) := by
  unfold fault
  split
  · exact .refl
  · rename_i hva
    have hv : pageOf (pageDown va) < LOW_PAGES := by
      simp only [pageOf, pageDown, PAGE64_SIZE, LOW_PAGES, USPACE64_LIMIT] at *
      omega
    simp only
    split
    · exact .refl
    · split
      · exact .refl
      · split
        · exact .refl
        · split
          · exact .refl
          · split
            · exact .refl
            · rename_i hnone
              rw [Sys.translate_eq h.sound.trees hv] at hnone
              have he : sys.entry p.space (pageOf (pageDown va)) = none := by simpa using hnone
              exact backPage_going h hv hs he _

theorem storeAt_going (p : Proc) (sys : Sys) (b : UInt8) :
    Going files (hand, sys) (hand, (storeAt sys p va b).2) := by
  unfold storeAt
  split
  · exact .refl
  · split
    · exact .one (.memory _)
    · exact .refl

end NovarisOS.Uspace64
