/-
NovarisOS.Uspace64.KernelTheorems — the ledger of the whole kernel, over
whole runs.

Processes come and go with their spaces, files take frames and give them
back, and every call of a process is made of moves (`CallMoves`, `FileMaps`).
So from boot on there is a ledger in which every frame's owners are counted
(`Kept`), as long as the calls are ones for which that is so (`Op.Keeps`).
-/
import Mathlib.Data.Set.Card
import NovarisOS.Uspace64.FileMaps
import NovarisOS.Uspace64.Forks

namespace NovarisOS.Uspace64

open Function (update update_eq_self update_idem update_of_ne update_self)
open Pmm64 (Pmm wrap)
open Vmspace64 (Pte liveAdd)

variable {files : Nat → List Nat} {base : Nat → Nat} {hand : List Nat} {sys : Sys} {s : Nat}

/-! ## Spaces -/

theorem Pmm.freeAll_of_not_mem (fs : List Nat) : ∀ (p : Pmm) {g : Nat}, g ∉ fs →
    (fs.foldl Pmm.freeFrame p).frameOwners g = p.frameOwners g := by
  induction fs with
  | nil => intro p g _; rfl
  | cons f fs ih =>
    intro p g hg
    obtain ⟨hne, hg⟩ : g ≠ f ∧ g ∉ fs := by simpa using hg
    rw [List.foldl_cons, ih _ hg, Pmm.frameOwners_freeFrame, update_of_ne hne]

variable {t : PageTree}

theorem held_of_freed (files : Nat → List Nat) (hs : sys.spaces s = some t) {f : Nat}
    (hf : f ∈ t.freed sys ++ [s]) : ∃ k, sys.held everywhere files k = some f := by
  rcases List.mem_append.mp hf with hf | hf
  · rcases List.mem_append.mp hf with hf | hf
    · obtain ⟨v, -, hv⟩ := List.mem_filterMap.mp hf
      exact ⟨.page s v, by rw [Books.held_page rfl, Sys.entry_of_space hs, hv]⟩
    · obtain ⟨k, -, hk⟩ := List.mem_filterMap.mp hf
      exact ⟨.table s k, by simp [Sys.held, everywhere, hs, hk]⟩
  · exact ⟨.root s, by simp [Sys.held, everywhere, hs, List.mem_singleton.mp hf]⟩

theorem Ledger.destroyed (h : Ledger files base hand sys) (hs : sys.spaces s = some t)
    (live : List Nat) :
    Ledger files base hand (sys.without s t live) := by
  have hbooks := h.books.destroyed hs rfl live
  have hheld : ∀ k f, (sys.without s t live).held everywhere files k = some f →
      sys.held everywhere files k = some f := by
    intro k f hk
    rw [held_without hs (sys.without s t live) rfl rfl] at hk
    split at hk
    · cases hk
    · exact hk
  have hentry : ∀ s' v e, (sys.without s t live).entry s' v = some e → sys.entry s' v = some e := by
    intro s' v e he
    by_cases hss : s' = s
    · subst hss
      simp [Sys.entry, Sys.without] at he
    · simpa [Sys.entry, Sys.without, update_of_ne hss] using he
  refine ⟨hbooks, ?_, ?_, ?_, ?_, fun s' v e he => h.pages s' v e (hentry s' v e he),
    fun s' v e he => h.quiet s' v e (hentry s' v e he)⟩
  · rw [sys.without_ready, sys.without_frameCount, sys.without_ram]
    intro hrdy f hf hzero
    by_cases hmem : f ∈ t.freed sys ++ [s]
    · obtain ⟨k, hk⟩ := held_of_freed files hs hmem
      exact (h.memory k f hk).1
    · exact h.clean hrdy f hf (Pmm.freeAll_of_not_mem _ _ hmem ▸ hzero)
  · rw [sys.without_ram]
    exact h.handled
  · rw [sys.without_ram]
    exact fun k f hk => h.memory k f (hheld k f hk)
  · intro k f hsole hk
    have hone := h.sole k f hsole (hheld k f hk)
    have hpos := hbooks.tally.held_pos hk
    have hle := Pmm.freeAll_owners_le (t.freed sys ++ [s]) sys.pmm f
    have hle : (sys.without s t live).pmm.frameOwners f ≤ sys.pmm.frameOwners f := hle
    omega

theorem Ledger.destroySpace (h : Ledger files base hand sys) (loaded : Nat)
    (hlive : ∀ s ∈ sys.live, sys.spaces s ≠ none) :
    Ledger files base hand (destroySpace sys loaded s) := by
  rcases destroySpace_cases sys loaded s with ⟨hsame, -⟩ | ⟨live, -, -, hperm, hres⟩
  · rw [hsame]
    exact h
  · obtain ⟨t, ht⟩ := Option.ne_none_iff_exists'.mp
      (hlive s (hperm.mem_iff.mpr (List.mem_cons_self ..)))
    rw [hres, ht]
    exact h.destroyed ht live

theorem Ledger.space_none (h : Ledger files base hand sys) {f : Nat}
    (hf : sys.pmm.frameOwners f = 0) : sys.spaces f = none := by
  by_contra hne
  obtain ⟨t, ht⟩ := Option.ne_none_iff_exists'.mp hne
  have := h.owned (k := .root f) (f := f) (by simp [Sys.held, everywhere, ht])
  omega

/-- What the frames with owners are is enough to keep the ledger, when the
kernel has taken some more and every place but one holds what it held. -/
theorem Ledger.grown {base' : Nat → Nat} {sys' : Sys} (h : Ledger files base hand sys)
    (hgrown : Grown sys base base') (hbooks : Books everywhere files base' hand sys')
    (howners : ∀ f, 0 < sys.pmm.frameOwners f → sys'.pmm.frameOwners f = sys.pmm.frameOwners f)
    (hready : sys'.pmm.ready = sys.pmm.ready) (hcount : sys'.pmm.frameCount = sys.pmm.frameCount)
    (hram : sys'.pmm.ram = sys.pmm.ram) (hzero : sys'.zero = sys.zero)
    (hheld : ∀ k f, sys'.held everywhere files k = some f → sys.held everywhere files k = some f ∨
      sys.pmm.ready = true ∧ f < sys.pmm.frameCount ∧ sys.pmm.frameOwners f = 0 ∧
        sys'.pmm.frameOwners f = 1)
    (hentry : ∀ s v e, sys'.entry s v = some e → sys.entry s v = some e) :
    Ledger files base' hand sys' := by
  have hbase : ∀ g, 0 < sys.pmm.frameOwners g → base' g = base g := by
    intro g hg
    rcases hgrown g with hsame | ⟨-, hz⟩
    · exact hsame
    · omega
  refine ⟨hbooks, ?_, ?_, ?_, ?_, ?_, ?_⟩
  · rw [hready, hcount, hram]
    intro hrdy g hg hz
    refine h.clean hrdy g hg ?_
    by_contra hne
    have := howners g (by omega)
    omega
  · rw [hram]
    intro g hg
    have hle := h.books.tally.outside_le g
    have hpos := List.count_pos_iff.mpr hg
    exact ⟨(h.handled g hg).1, by rw [hbase g (by omega)]; exact (h.handled g hg).2⟩
  · rw [hram]
    intro k g hk
    rcases hheld k g hk with hold | ⟨hrdy, hlt, hfree, hone⟩
    · exact ⟨(h.memory k g hold).1, by rw [hbase g (h.owned hold)]; exact (h.memory k g hold).2⟩
    · have := hbooks.tally.held_pos hk
      exact ⟨h.clean hrdy g hlt hfree, by omega⟩
  · intro k g hsole hk
    rcases hheld k g hk with hold | ⟨-, -, -, hone⟩
    · rw [howners g (h.owned hold)]
      exact h.sole k g hsole hold
    · exact hone
  · exact fun s v e he => h.pages s v e (hentry s v e he)
  · intro s v e he hz
    rw [hzero] at hz
    exact h.quiet s v e (hentry s v e he) hz

/-- A space is made, or there was no room; the kernel may have kept some
frames for its own half. -/
theorem Ledger.createSpace (h : Ledger files base hand sys) (loaded : Nat) :
    ∃ base', Ledger files base' hand (createSpace sys loaded).2 := by
  have hmade := createSpace_cases h.sound loaded
  have hspec := hmade.spec h.sound
  obtain ⟨base', hgrown, hbooks⟩ := h.books.spaceMade hmade (fun _ => rfl) fun hne => by
    rcases hspec with ⟨h0, -, -⟩ | hc
    · exact absurd h0 hne
    · exact h.space_none hc.fresh
  refine ⟨base', ?_⟩
  rcases hspec with ⟨h0, hcalm, -⟩ | hc
  · -- nothing was made, and no space has changed
    have hspaces : (Uspace64.createSpace sys loaded).2.spaces = sys.spaces := by
      rcases hr : Uspace64.createSpace sys loaded with ⟨f, sys'⟩
      rw [hr] at hmade h0
      cases hmade with
      | refused htook => exact htook.spaces
      | noRoom htook _ hsteps _ => exact (hsteps.kernel_half scratch_upper).1.trans htook.spaces
      | made _ _ hf => exact absurd h0 hf
    refine h.grown hgrown hbooks hcalm.owners hcalm.ready hcalm.frameCount hcalm.ram hcalm.zero
      (fun k f hk => Or.inl ?_) fun s v e he => by rwa [hcalm.entry] at he
    rwa [Sys.held_congr hspaces hcalm.zero] at hk
  · have hnone := h.space_none hc.fresh
    refine h.grown hgrown hbooks hc.owners hc.ready hc.frameCount hc.ram hc.zero (fun k f hk => ?_)
      fun s v e he => ?_
    · rw [held_newRoot hnone rfl _ hc.spaces hc.zero] at hk
      by_cases hkr : k = .root (Uspace64.createSpace sys loaded).1
      · subst hkr
        rw [update_self] at hk
        cases hk
        have hlt := Pmm.lt_of_owned (p := (Uspace64.createSpace sys loaded).2.pmm)
          (f := (Uspace64.createSpace sys loaded).1) (by rw [hc.self]; omega)
        rw [hc.ready, hc.frameCount] at hlt
        exact Or.inr ⟨hlt.1, hlt.2, hc.fresh, hc.self⟩
      · rw [update_of_ne hkr] at hk
        exact Or.inl hk
    · rw [Sys.entry, hc.spaces] at he
      by_cases hs : s = (Uspace64.createSpace sys loaded).1
      · subst hs
        simp [PageTree.empty] at he
      · rwa [update_of_ne hs] at he

/-! ## Files -/

namespace Ledger

theorem perm {hand' : List Nat} (h : Ledger files base hand sys) (hperm : hand.Perm hand') :
    Ledger files base hand' sys where
  books := ⟨h.books.sound, h.books.ground, fun f => by
    obtain ⟨K, hK, hcount⟩ := h.books.tally f
    exact ⟨K, hK, by rw [← hperm.count_eq]; exact hcount⟩⟩
  clean := h.clean
  handled f hf := h.handled f (hperm.mem_iff.mpr hf)
  memory := h.memory
  sole := h.sole
  pages := h.pages
  quiet := h.quiet

theorem giveAll : ∀ (fs : List Nat) {sys : Sys}, Ledger files base (fs ++ hand) sys →
    Ledger files base hand (fs.foldl Sys.free sys) := by
  intro fs
  induction fs with
  | nil => intro sys h; exact h
  | cons f fs ih => intro sys h; exact ih (Ledger.give h)

theorem held_files (sys : Sys) (files : Nat → List Nat) (i : Nat) (l : List Nat) (k : Place) :
    sys.held everywhere (update files i l) k =
      match k with
      | .file i' j => if i' = i then l[j]? else (files i')[j]?
      | k => sys.held everywhere files k := by
  cases k with
  | file i' j =>
    by_cases hi : i' = i
    · subst hi
      simp [Sys.held]
    · simp [Sys.held, hi]
  | page => rfl
  | table => rfl
  | root => rfl
  | zero => rfl

theorem held_append (sys : Sys) (files : Nat → List Nat) (i f : Nat) (l : List Nat) :
    sys.held everywhere (update files i (l ++ [f])) =
      update (sys.held everywhere (update files i l)) (.file i l.length) (some f) := by
  funext k
  rw [held_files]
  by_cases hk : k = .file i l.length
  · subst hk
    rw [update_self]
    simp
  · rw [update_of_ne hk, held_files]
    cases k with
    | file i' j =>
      simp only
      split
      · rename_i hi
        have hj : j ≠ l.length := fun hj => hk (by rw [hi, hj])
        rw [List.getElem?_append]
        split
        · rfl
        · rw [List.getElem?_eq_none (by simp; omega), List.getElem?_eq_none (by omega)]
      · rfl
    | page => rfl
    | table => rfl
    | root => rfl
    | zero => rfl

variable {i : Nat}

theorem putFile {f : Nat} {l : List Nat}
    (h : Ledger (update files i l) base (f :: hand) sys) :
    Ledger (update files i (l ++ [f])) base hand sys := by
  have hheld := held_append sys files i f l
  have hnone : sys.held everywhere (update files i l) (.file i l.length) = none := by
    rw [held_files]
    simp
  refine ⟨⟨h.sound, h.books.ground, ?_⟩, h.clean,
    fun g hg => h.handled g (List.mem_cons_of_mem _ hg), ?_, ?_, h.pages, h.quiet⟩
  · rw [hheld]
    exact h.books.tally.put hnone
  · rw [hheld]
    intro k g hk
    by_cases hkf : k = .file i l.length
    · rw [hkf, update_self] at hk
      cases hk
      exact h.handled f (List.mem_cons_self ..)
    · rw [update_of_ne hkf] at hk
      exact h.memory k g hk
  · rw [hheld]
    intro k g hsole hk
    by_cases hkf : k = .file i l.length
    · rw [hkf] at hsole
      exact absurd hsole id
    · rw [update_of_ne hkf] at hk
      exact h.sole k g hsole hk

theorem pickFile {f : Nat} {l : List Nat}
    (h : Ledger (update files i (l ++ [f])) base hand sys) :
    Ledger (update files i l) base (f :: hand) sys := by
  have hheld := held_append sys files i f l
  have hlast : sys.held everywhere (update files i (l ++ [f])) (.file i l.length) = some f := by
    rw [hheld, update_self]
  have hnone : sys.held everywhere (update files i l) (.file i l.length) = none := by
    rw [held_files]
    simp
  have hwas : sys.held everywhere (update files i l) =
      update (sys.held everywhere (update files i (l ++ [f]))) (.file i l.length) none := by
    rw [hheld, update_idem, ← hnone, update_eq_self]
  have hsub : ∀ k g, sys.held everywhere (update files i l) k = some g →
      sys.held everywhere (update files i (l ++ [f])) k = some g := by
    intro k g hk
    rw [hwas] at hk
    by_cases hkf : k = .file i l.length
    · rw [hkf, update_self] at hk
      cases hk
    · rwa [update_of_ne hkf] at hk
  refine ⟨⟨h.sound, h.books.ground, ?_⟩, h.clean, fun g hg => ?_, fun k g hk => h.memory k g (hsub k g hk),
    fun k g hsole hk => h.sole k g hsole (hsub k g hk), h.pages, h.quiet⟩
  · rw [hwas]
    exact h.books.tally.pick hlast
  · rcases List.mem_cons.mp hg with rfl | hg
    · exact h.memory _ _ hlast
    · exact h.handled g hg

theorem putFiles : ∀ (got l : List Nat) {hand : List Nat},
    Ledger (update files i l) base (got ++ hand) sys →
    Ledger (update files i (l ++ got)) base hand sys := by
  intro got
  induction got with
  | nil => intro l hand h; simpa using h
  | cons f got ih =>
    intro l hand h
    have hrest := ih (l ++ [f]) h.putFile
    rwa [List.append_assoc, List.singleton_append] at hrest

theorem pickFiles : ∀ (l : List Nat) {hand : List Nat},
    Ledger (update files i l) base hand sys →
    Ledger (update files i []) base (l ++ hand) sys := by
  intro l
  induction l using List.reverseRecOn with
  | nil => intro hand h; exact h
  | append_singleton l f ih =>
    intro hand h
    have hrest := ih h.pickFile
    rwa [List.append_assoc, List.singleton_append]

end Ledger

theorem Steady.freeAll (fs : List Nat) : ∀ sys : Sys, Steady sys (fs.foldl Sys.free sys) := by
  induction fs with
  | nil => intro sys; exact .refl sys
  | cons f fs ih =>
    intro sys
    have hone : Steady sys (sys.free f) :=
      ⟨rfl, fun _ => Iff.rfl, rfl, (Pmm.freeFrame_fields sys.pmm f).2.1⟩
    exact hone.trans (ih _)

/-- The frames that `make_framed` gathers are in hand, and nobody else has
them. -/
theorem growFile_spec : ∀ (n : Nat) (got : List Nat) (sys : Sys), Ledger files base got sys →
    (∀ f ∈ got, sys.pmm.frameOwners f = 1) →
    Ledger files base (growFile n got sys).2.1 (growFile n got sys).2.2 ∧
      (∀ f ∈ (growFile n got sys).2.1, (growFile n got sys).2.2.pmm.frameOwners f = 1) ∧
      Steady sys (growFile n got sys).2.2 ∧
      ((growFile n got sys).1 = false → (growFile n got sys).2.1 = []) := by
  intro n
  induction n with
  | zero => intro got sys h hone; exact ⟨h, hone, .refl sys, fun hf => by cases hf⟩
  | succ n ih =>
    intro got sys h hone
    have htook := Sys.allocFrame_took h.sound.wf
    rw [growFile]
    rcases ha : sys.allocFrame with ⟨f, sys₁⟩
    rw [ha] at htook
    simp only at htook ⊢
    split
    · rename_i hf
      subst hf
      -- the new ones go back
      have hback : Ledger files base (got ++ []) sys₁ := by
        rw [List.append_nil]
        exact h.refused htook
      exact ⟨hback.giveAll, fun f hf => absurd hf List.not_mem_nil,
        (Steady.took htook).trans (.freeAll got sys₁), fun _ => rfl⟩
    · rename_i hf
      obtain ⟨-, hfree, hfresh⟩ := htook.pmm.fresh hf
      have hgo : Going files (got, sys) (f :: got, sys₁.zeroFrame f) := .fresh htook hf _
      have hled : Ledger files base (got ++ [f]) (sys₁.zeroFrame f) :=
        (h.moves hgo).perm (@List.perm_append_comm _ [f] got)
      obtain ⟨hled', hone', hsteady, hnil⟩ := ih (got ++ [f]) (sys₁.zeroFrame f) hled fun g hg => by
        show sys₁.pmm.frameOwners g = 1
        rcases List.mem_append.mp hg with hold | hnew
        · have hg1 := hone g hold
          rw [htook.pmm.other g (by rintro rfl; omega), hg1]
        · rw [List.mem_singleton.mp hnew]
          exact hfresh
      exact ⟨hled', hone', (h.steady hgo).trans hsteady, hnil⟩

/-! ## The kernel's half -/

/-- The kernel copies nothing of its own half on write. -/
def CowFree (t : PageTree) : Prop := ∀ v e, t.pages.get v = some e → e.cow = false

theorem createSpace_cowFree (h : sys.Sound) (loaded : Nat) (hc : CowFree sys.upper) :
    CowFree (createSpace sys loaded).2.upper := by
  unfold createSpace
  have htook := Sys.allocFrame_took h.wf
  rcases ha : sys.allocFrame with ⟨frame, sys₁⟩
  rw [ha] at htook
  simp only at htook ⊢
  have hc₁ : CowFree sys₁.upper := by
    rw [htook.upper]
    exact hc
  split
  · exact hc₁
  · have hreal : sys₁.Real loaded SCRATCH_PAGE := fun hlow => absurd hlow scratch_upper
    obtain ⟨sys₂, hroom, hres⟩ := pagingMap_spec (h.took htook) hreal frame (PAGE64_PRESENT ||| PAGE64_WRITE)
    have hc₂ : CowFree sys₂.upper := by
      intro v e he
      rw [(hroom.tables.kernel_half scratch_upper).2] at he
      exact hc₁ v e he
    rcases hm : pagingMap sys₁ loaded SCRATCH_PAGE frame (PAGE64_PRESENT ||| PAGE64_WRITE) with ⟨ok, sys₃⟩
    rw [hm] at hres
    cases ok with
    | false =>
      subst hres
      exact hc₂
    | true =>
      simp only [if_true] at hres
      subst hres
      -- the scratch page is written without the flag, and taken away
      have hset : CowFree (sys₂.setPte loaded SCRATCH_PAGE
          (pteOf frame (PAGE64_PRESENT ||| PAGE64_WRITE))).upper := by
        intro v e he
        change update sys₂.upper.pages.get SCRATCH_PAGE _ v = some e at he
        by_cases hv : v = SCRATCH_PAGE
        · rw [hv, update_self] at he
          cases he
          rfl
        · rw [update_of_ne hv] at he
          exact hc₂ v e he
      show CowFree (pagingUnmap (sys₂.setPte loaded SCRATCH_PAGE _) loaded SCRATCH_PAGE).upper
      unfold pagingUnmap
      split
      · intro v e he
        rw [Sys.clearPte, Sys.setTree, if_neg scratch_upper, Sys.tree, if_neg scratch_upper] at he
        simp only [Table.get_erase] at he
        by_cases hv : v = SCRATCH_PAGE
        · rw [hv, update_self] at he
          cases he
        · rw [update_of_ne hv] at he
          exact hset v e he
      · exact hset

theorem PageTree.look_page {v : Nat} {e : Pte} (h : t.look v = .page e) :
    t.pages.get v = some e := by
  unfold look at h
  split at h
  · cases h
  · split at h
    · cases h
    · split at h
      · cases h
      · split at h
        · cases h
        · split at h
          · cases h
          · split at h
            · cases h
            · rename_i hget
              cases h
              exact hget

theorem breakCow_upper {va : Nat} (hc : CowFree sys.upper) (hv : ¬ pageOf va < LOW_PAGES) :
    breakCow sys s va = (false, sys) := by
  unfold breakCow
  simp only
  cases hp : sys.pte s (pageOf va) with
  | none => rfl
  | some e =>
    have hget : sys.upper.pages.get (pageOf va) = some e := by
      rw [Sys.pte, Sys.look, Sys.tree, if_neg hv] at hp
      split at hp
      · rename_i heq
        cases hp
        exact PageTree.look_page heq
      · cases hp
    simp [hc _ e hget]

/-! ## Accesses -/

theorem breakCow_call (h : Ledger files base hand sys) (hc : CowFree sys.upper) (va : Nat) :
    Going files (hand, sys) (hand, (breakCow sys s va).2) := by
  by_cases hv : pageOf va < LOW_PAGES
  · exact breakCow_going h hv
  · rw [breakCow_upper hc hv]

theorem userRead_going {p : Proc} (h : Ledger files base hand sys) (hs : sys.spaces p.space ≠ none)
    (va : Nat) : Going files (hand, sys) (hand, (userRead sys p va).2) := by
  unfold userRead
  split
  · exact .refl
  · have hfault : Going files (hand, sys) (hand, (fault sys p va false).2) := fault_going p h hs false
    split
    · rename_i heq
      rw [heq] at hfault
      exact hfault
    · rename_i heq
      rw [heq] at hfault
      split <;> exact hfault

theorem userWrite_going {p : Proc} (h : Ledger files base hand sys) (hs : sys.spaces p.space ≠ none)
    (hc : CowFree sys.upper) (va : Nat) (b : UInt8) :
    Going files (hand, sys) (hand, (userWrite sys p va b).2) := by
  unfold userWrite
  split
  · have hfault : Going files (hand, sys) (hand, (fault sys p va true).2) := fault_going p h hs true
    split
    · rename_i heq
      rw [heq] at hfault
      exact hfault
    · rename_i heq
      rw [heq] at hfault
      exact hfault.trans (storeAt_going p _ b)
  · split
    · exact storeAt_going p sys b
    · have hbreak := breakCow_call (s := p.space) h hc va
      split
      · rename_i heq
        rw [heq] at hbreak
        exact hbreak
      · rename_i heq
        rw [heq] at hbreak
        exact hbreak.trans (storeAt_going p _ b)

/-! ## Calls -/

/-- When a call keeps the count of owners. The walks over a range must not
come by anything of the kernel's, the break must stay below the limit, and
`map_frames` must be given its references. A mapping of a device's memory is
not counted at all. -/
def Call.Keeps (files : Nat → List Nat) (sys : Sys) (p : Proc) : Call → Prop
  | .mmap .. | .discard .. | .breakCow _ | .read _ | .write _ _ => True
  | .munmap addr length | .protect addr length _ =>
    Confined sys (pageDown addr) (wrap (pageDown addr + pageUp length))
  | .brk addr => p.brkBase ≤ addr → p.brkCurrent < pageUp addr → pageUp addr ≤ USPACE64_LIMIT
  | .mapFile addr fixed file first count _ _ =>
    FramesFit sys p addr fixed (((files file).drop first).take count)
  | .mapPhys .. => False

/-- No frame is on two pages of files. -/
def FilesApart (files : Nat → List Nat) : Prop :=
  ∀ i j i' j' f : Nat, (files i)[j]? = some f → (files i')[j']? = some f → i = i' ∧ j = j'

theorem FilesApart.nodup (h : FilesApart files) (i : Nat) : (files i).Nodup :=
  List.nodup_iff_injective_getElem.mpr fun a b hab => by
    have hab : (files i)[a.val] = (files i)[b.val] := hab
    refine Fin.ext (h i a i b _ (List.getElem?_eq_getElem a.2) ?_).2
    rw [hab]
    exact List.getElem?_eq_getElem b.2

theorem Ledger.length_le (h : Ledger files base hand sys) (hfiles : FilesApart files) (i : Nat) :
    (files i).length ≤ sys.pmm.frameCount - 1 := by
  have hsub : (files i).toFinset ⊆ (Finset.range sys.pmm.frameCount).erase 0 := by
    intro f hf
    have hf := List.mem_toFinset.mp hf
    obtain ⟨j, hj⟩ := file_held sys hf
    have howned := h.file_owned hf
    obtain ⟨hready, hlt⟩ := Pmm.lt_of_owned howned
    refine Finset.mem_erase.mpr ⟨?_, Finset.mem_range.mpr hlt⟩
    rintro rfl
    have := h.books.ground hready hlt
    have := (h.memory _ _ hj).2
    omega
  have hcard := Finset.card_le_card hsub
  rw [List.toFinset_card_of_nodup (hfiles.nodup i)] at hcard
  refine Nat.le_trans hcard ?_
  by_cases h0 : 0 < sys.pmm.frameCount
  · rw [Finset.card_erase_of_mem (Finset.mem_range.mpr h0), Finset.card_range]
  · have : sys.pmm.frameCount = 0 := by omega
    simp [this]

/-- Frame numbers of 64-bit addresses. -/
abbrev MAX_FRAMES : Nat := 0x10000000000000

theorem Call.run_called (bound : Option Nat) {p : Proc} (h : Ledger files base [] sys)
    (hs : sys.spaces p.space ≠ none) (hb : Below p.resv) (hc : CowFree sys.upper)
    (hfiles : FilesApart files) (hmax : sys.pmm.frameCount ≤ MAX_FRAMES) (c : Call)
    (hok : c.Keeps files sys p) :
    Called files [] sys p (c.run bound files sys p).2.1 (c.run bound files sys p).2.2 := by
  cases c with
  | mmap addr length prot flags => exact mmap_called bound h hs hb addr length prot flags
  | munmap addr length => exact munmap_called bound h hs hb hok
  | protect addr length prot => exact protect_called bound h hs hb hok
  | discard addr length => exact ⟨discard_going h hb, rfl, hb⟩
  | brk addr => exact brk_called bound h hs hb hok
  | mapFile addr fixed file first count prot cow =>
    have hsub : (((files file).drop first).take count).Sublist (files file) :=
      (List.take_sublist ..).trans (List.drop_sublist ..)
    have hlen := Nat.le_trans hsub.length_le (h.length_le hfiles file)
    exact mapFrames_called bound h hs hb prot cow ((hfiles.nodup file).sublist hsub)
      (fun f hf => ⟨file, hsub.mem hf⟩) (by simp only [PAGE64_SIZE, MAX_FRAMES] at *; omega) hok
  | mapPhys length phys prot => exact absurd hok id
  | breakCow va => exact ⟨breakCow_call h hc va, rfl, hb⟩
  | read va => exact ⟨userRead_going h hs va, rfl, hb⟩
  | write va b => exact ⟨userWrite_going h hs hc va b, rfl, hb⟩

/-! ## The invariant -/

/-- What holds of the kernel between any two calls. -/
structure Kept (k : Kernel) : Prop where
  ledger : ∃ base, Ledger k.files base [] k.sys
  spaces : ∀ n p, k.procs n = some p → k.sys.spaces p.space ≠ none
  apart : ∀ n m p q, k.procs n = some p → k.procs m = some q → p.space = q.space → n = m
  below : ∀ n p, k.procs n = some p → Below p.resv
  live : ∀ s ∈ k.sys.live, k.sys.spaces s ≠ none
  nodup : k.sys.live.Nodup
  files : FilesApart k.files
  cow : CowFree k.sys.upper
  max : k.sys.pmm.frameCount ≤ MAX_FRAMES

/-- When a step keeps the count of owners. -/
def Op.Keeps (k : Kernel) : Op → Prop
  | .call n c => ∀ p, k.procs n = some p → c.Keeps k.files k.sys p
  | _ => True

/-- A machine as it is when the kernel starts its first process. -/
structure Booted (sys : Sys) : Prop where
  wf : sys.pmm.Wf
  ground : sys.pmm.Grounded
  clean : sys.pmm.ready = true → sys.pmm.Clean
  max : sys.pmm.frameCount ≤ MAX_FRAMES
  zero : sys.zero = 0
  live : sys.live = []
  spaces : ∀ s, sys.spaces s = none
  cow : CowFree sys.upper

namespace Kept

variable {k : Kernel}

theorem boot (h : Booted sys) : Kept (Kernel.boot sys) where
  ledger := by
    have hheld : ∀ p, sys.held everywhere (fun _ => []) p = none := by
      intro p
      cases p <;> simp [Sys.held, Sys.entry, h.spaces, h.zero]
    have hentry : ∀ s v, sys.entry s v = none := by
      intro s v
      simp [Sys.entry, h.spaces]
    refine ⟨sys.pmm.frameOwners, ⟨⟨h.wf, h.ground, fun s t ht => ?_⟩, fun hr hlt => ?_, .start hheld⟩,
      fun hr f hf hz => ?_, fun f hf => absurd hf List.not_mem_nil, fun p f hp => ?_, fun p f _ hp => ?_,
      fun s v e he => ?_, fun s v e he => ?_⟩
    · have ht : sys.spaces s = some t := ht
      rw [h.spaces] at ht
      cases ht
    · exact (Pmm.bitmapTest_iff hr hlt).mp (h.ground hr)
    · refine h.clean hr f hf ?_
      by_contra hbit
      have hbit : sys.pmm.bitmapTest f = true := by simpa using hbit
      have hpos := (Pmm.bitmapTest_iff hr hf).mp hbit
      omega
    · have hp : sys.held everywhere (fun _ => []) p = some f := hp
      rw [hheld] at hp
      cases hp
    · have hp : sys.held everywhere (fun _ => []) p = some f := hp
      rw [hheld] at hp
      cases hp
    · have he : sys.entry s v = some e := he
      rw [hentry] at he
      cases he
    · have he : sys.entry s v = some e := he
      rw [hentry] at he
      cases he
  spaces _ _ hp := by cases hp
  apart _ _ _ _ hp := by cases hp
  below _ _ hp := by cases hp
  live s hs := by
    have hs : s ∈ sys.live := hs
    rw [h.live] at hs
    cases hs
  nodup := by
    show sys.live.Nodup
    rw [h.live]
    exact List.nodup_nil
  files i j i' j' f hf := by simp [Kernel.boot] at hf
  cow := h.cow
  max := h.max

theorem refiled {sys' : Sys} {files : Nat → List Nat} (h : Kept k)
    (hled : ∃ base, Ledger files base [] sys') (hst : Steady k.sys sys') (hfiles : FilesApart files) :
    Kept { k with sys := sys', files := files } where
  ledger := hled
  spaces n p hp hnone := h.spaces n p hp ((hst.here p.space).mp hnone)
  apart := h.apart
  below := h.below
  live s hs hnone := by
    rw [hst.live] at hs
    exact h.live s hs ((hst.here s).mp hnone)
  nodup := by
    show sys'.live.Nodup
    rw [hst.live]
    exact h.nodup
  files := hfiles
  cow := by
    show CowFree sys'.upper
    rw [hst.upper]
    exact h.cow
  max := by
    show sys'.pmm.frameCount ≤ _
    rw [hst.frameCount]
    exact h.max

theorem steady {sys' : Sys} (h : Kept k) (hled : ∃ base, Ledger k.files base [] sys')
    (hst : Steady k.sys sys') : Kept (k.setSys sys') :=
  h.refiled hled hst h.files

variable {p : Proc} {n : Nat}

theorem setProc {q : Proc} (h : Kept k) (hp : k.procs n = some p)
    (hspace : q.space = p.space) (hb : Below q.resv) :
    Kept { k with procs := update k.procs n (some q) } := by
  -- every process of the new table has the space of one of the old
  have hold : ∀ m r, update k.procs n (some q) m = some r →
      ∃ r', k.procs m = some r' ∧ r.space = r'.space ∧ Below r.resv := by
    intro m r hm
    by_cases hmn : m = n
    · subst hmn
      rw [update_self] at hm
      cases hm
      exact ⟨p, hp, hspace, hb⟩
    · rw [update_of_ne hmn] at hm
      exact ⟨r, hm, rfl, h.below m r hm⟩
  refine ⟨h.ledger, fun m r hm => ?_, fun m m' r r' hm hm' heq => ?_, fun m r hm => (hold m r hm).choose_spec.2.2,
    h.live, h.nodup, h.files, h.cow, h.max⟩
  · obtain ⟨r₀, hr₀, hs, -⟩ := hold m r hm
    rw [hs]
    exact h.spaces m r₀ hr₀
  · obtain ⟨r₀, hr₀, hs, -⟩ := hold m r hm
    obtain ⟨r₁, hr₁, hs', -⟩ := hold m' r' hm'
    exact h.apart m m' r₀ r₁ hr₀ hr₁ (hs.symm.trans (heq.trans hs'))

theorem destroySpace (h : Kept k) (loaded s : Nat) (hfree : ∀ n p, k.procs n = some p → p.space ≠ s) :
    Kept (k.setSys (destroySpace k.sys loaded s)) := by
  obtain ⟨base, hled⟩ := h.ledger
  have hled' := hled.destroySpace (s := s) loaded h.live
  rcases destroySpace_cases k.sys loaded s with ⟨hsame, -⟩ | ⟨live, -, -, hperm, hres⟩
  · rw [hsame]
    exact h
  · have hnodup := hperm.nodup_iff.mp h.nodup
    obtain ⟨hnot, hnodup⟩ := List.nodup_cons.mp hnodup
    rw [hres] at hled' ⊢
    refine ⟨⟨base, hled'⟩, fun n p hp => ?_, h.apart, h.below, fun s' hs' => ?_, hnodup, h.files, h.cow, ?_⟩
    · show update k.sys.spaces s none p.space ≠ none
      rw [update_of_ne (hfree n p hp)]
      exact h.spaces n p hp
    · show update k.sys.spaces s none s' ≠ none
      rw [update_of_ne (ne_of_mem_of_not_mem hs' hnot)]
      exact h.live s' (hperm.mem_iff.mpr (List.mem_cons_of_mem _ hs'))
    · show (List.foldl Pmm.freeFrame k.sys.pmm _).frameCount ≤ _
      rw [(Pmm.freeAll_fields _ _).2.1]
      exact h.max

theorem createSpace (h : Kept k) (loaded : Nat) :
    Kept (k.setSys (createSpace k.sys loaded).2) ∧
      ((createSpace k.sys loaded).1 ≠ 0 →
        (createSpace k.sys loaded).2.spaces (createSpace k.sys loaded).1 = some PageTree.empty ∧
        ∀ n p, k.procs n = some p → p.space ≠ (createSpace k.sys loaded).1) := by
  obtain ⟨base, hled⟩ := h.ledger
  have hled' := hled.createSpace loaded
  have hcow := createSpace_cowFree hled.sound loaded h.cow
  rcases (createSpace_cases hled.sound loaded).spec hled.sound with ⟨h0, hcalm, -⟩ | hc
  · refine ⟨⟨hled', fun n p hp hnone => h.spaces n p hp ((hcalm.here p.space).mp hnone), h.apart, h.below,
      fun s hs hnone => ?_, ?_, h.files, hcow, ?_⟩, fun hne => absurd h0 hne⟩
    · have hs : s ∈ (Uspace64.createSpace k.sys loaded).2.live := hs
      rw [hcalm.live] at hs
      exact h.live s hs ((hcalm.here s).mp hnone)
    · show (Uspace64.createSpace k.sys loaded).2.live.Nodup
      rw [hcalm.live]
      exact h.nodup
    · show (Uspace64.createSpace k.sys loaded).2.pmm.frameCount ≤ _
      rw [hcalm.frameCount]
      exact h.max
  · have hnone := hled.space_none hc.fresh
    have hother : ∀ s, k.sys.spaces s ≠ none → s ≠ (Uspace64.createSpace k.sys loaded).1 := by
      rintro s hs rfl
      exact hs hnone
    have hspaces : ∀ s, k.sys.spaces s ≠ none →
        (Uspace64.createSpace k.sys loaded).2.spaces s ≠ none := by
      intro s hs
      rw [hc.spaces, update_of_ne (hother s hs)]
      exact hs
    have hself : (Uspace64.createSpace k.sys loaded).2.spaces (Uspace64.createSpace k.sys loaded).1 =
        some PageTree.empty := by rw [hc.spaces, update_self]
    refine ⟨⟨hled', fun n p hp => hspaces _ (h.spaces n p hp), h.apart, h.below, fun s hs => ?_, ?_, h.files,
      hcow, ?_⟩, fun _ => ⟨hself, fun n p hp => hother _ (h.spaces n p hp)⟩⟩
    · have hs : s ∈ (Uspace64.createSpace k.sys loaded).2.live := hs
      rw [hc.live, liveAdd] at hs
      show (Uspace64.createSpace k.sys loaded).2.spaces s ≠ none
      split at hs
      · rcases List.mem_append.mp hs with hs | hs
        · exact hspaces s (h.live s hs)
        · rw [List.mem_singleton.mp hs, hself]
          simp
      · exact hspaces s (h.live s hs)
    · show (Uspace64.createSpace k.sys loaded).2.live.Nodup
      rw [hc.live, liveAdd]
      split
      · refine List.nodup_append.mpr ⟨h.nodup, List.nodup_singleton _, fun a ha b hb => ?_⟩
        rw [List.mem_singleton.mp hb]
        exact hother a (h.live a ha)
      · exact h.nodup
    · show (Uspace64.createSpace k.sys loaded).2.pmm.frameCount ≤ _
      rw [hc.frameCount]
      exact h.max

theorem addProc (h : Kept k) (hs : k.sys.spaces p.space ≠ none)
    (hfree : ∀ n q, k.procs n = some q → q.space ≠ p.space) (hb : Below p.resv) (m : Nat) (next : Nat) :
    Kept { k with procs := update k.procs m (some p), nextPid := next } := by
  refine ⟨h.ledger, fun n q hq => ?_, fun n n' q q' hq hq' heq => ?_, fun n q hq => ?_, h.live, h.nodup,
    h.files, h.cow, h.max⟩
  · have hq : update k.procs m (some p) n = some q := hq
    by_cases hn : n = m
    · subst hn
      rw [update_self] at hq
      cases hq
      exact hs
    · rw [update_of_ne hn] at hq
      exact h.spaces n q hq
  · have hq : update k.procs m (some p) n = some q := hq
    have hq' : update k.procs m (some p) n' = some q' := hq'
    by_cases hn : n = m
    · by_cases hn' : n' = m
      · rw [hn, hn']
      · rw [hn, update_self] at hq
        rw [update_of_ne hn'] at hq'
        cases hq
        exact absurd heq.symm (hfree n' q' hq')
    · rw [update_of_ne hn] at hq
      by_cases hn' : n' = m
      · rw [hn', update_self] at hq'
        cases hq'
        exact absurd heq (hfree n q hq)
      · rw [update_of_ne hn'] at hq'
        exact h.apart n n' q q' hq hq' heq
  · have hq : update k.procs m (some p) n = some q := hq
    by_cases hn : n = m
    · subst hn
      rw [update_self] at hq
      cases hq
      exact hb
    · rw [update_of_ne hn] at hq
      exact h.below n q hq

theorem spawn (h : Kept k) (brkStart : Nat) : Kept (k.spawn brkStart).1 := by
  obtain ⟨hkept, hnew⟩ := h.createSpace KERNEL_SPACE
  unfold Kernel.spawn
  rcases hr : Uspace64.createSpace k.sys KERNEL_SPACE with ⟨space, sys⟩
  rw [hr] at hkept hnew
  simp only at hkept hnew ⊢
  split
  · exact hkept
  · rename_i h0
    obtain ⟨hspace, hfree⟩ := hnew h0
    have hthere : sys.spaces space ≠ none := by
      rw [hspace]
      simp
    exact hkept.addProc (p := Proc.reset ⟨space, 0, 0, 0, []⟩ brkStart) hthere
      (fun n q hq => hfree n q hq) (fun x hx => absurd hx List.not_mem_nil) k.nextPid (k.nextPid + 1)

theorem fork (h : Kept k) (hp : k.procs n = some p) : Kept (k.fork p).1 := by
  obtain ⟨hkept, hnew⟩ := h.createSpace p.space
  unfold Kernel.fork
  rcases hr : Uspace64.createSpace k.sys p.space with ⟨space, sys⟩
  rw [hr] at hkept hnew
  simp only at hkept hnew ⊢
  split
  · exact hkept
  · rename_i h0
    obtain ⟨hspace, hfree⟩ := hnew h0
    obtain ⟨base, hled⟩ := hkept.ledger
    have hled : Ledger k.files base [] sys := hled
    -- the clone, as moves
    have hmoves : Going k.files ([], sys) ([], (cloneCow sys p.space space).2) :=
      clonePages_moves (hfree n p hp) rfl _ _
        (walkable_empty hled.sound hspace) hled.zeroHeld fun v e he => hled.page_owns he
    have hcloned := hkept.steady ⟨base, hled.moves hmoves⟩ (hled.steady hmoves)
    rcases hcl : cloneCow sys p.space space with ⟨ok, sys'⟩
    rw [hcl] at hcloned hmoves
    cases ok with
    | false => exact hcloned.destroySpace p.space space fun n q hq => hfree n q hq
    | true =>
      have hthere : sys'.spaces space ≠ none := fun hnone => by
        have := ((hled.steady hmoves).here space).mp hnone
        rw [hspace] at this
        cases this
      exact hcloned.addProc (p := { p with space := space }) hthere (fun n q hq => hfree n q hq)
        (h.below n p hp) k.nextPid (k.nextPid + 1)

theorem exit (h : Kept k) (hp : k.procs n = some p) : Kept (k.exit n p).1 := by
  have hgone : Kept { k with procs := update k.procs n none } := by
    have hold : ∀ m q, update k.procs n none m = some q → m ≠ n ∧ k.procs m = some q := by
      intro m q hq
      by_cases hm : m = n
      · subst hm
        rw [update_self] at hq
        cases hq
      · rw [update_of_ne hm] at hq
        exact ⟨hm, hq⟩
    exact ⟨h.ledger, fun m q hq => h.spaces m q (hold m q hq).2,
      fun m m' q q' hq hq' heq => h.apart m m' q q' (hold m q hq).2 (hold m' q' hq').2 heq,
      fun m q hq => h.below m q (hold m q hq).2, h.live, h.nodup, h.files, h.cow, h.max⟩
  refine hgone.destroySpace KERNEL_SPACE p.space fun m q hq heq => ?_
  have hq : update k.procs n none m = some q := hq
  by_cases hm : m = n
  · subst hm
    rw [update_self] at hq
    cases hq
  · rw [update_of_ne hm] at hq
    exact hm (h.apart m n q p hq hp heq)

theorem callBy (bound : Option Nat) {c : Call} (h : Kept k) (hp : k.procs n = some p)
    (hok : c.Keeps k.files k.sys p) : Kept (k.callBy bound n c p).1 := by
  obtain ⟨base, hled⟩ := h.ledger
  have hcalled := c.run_called bound hled (h.spaces n p hp) (h.below n p hp) h.cow h.files h.max hok
  have hkept := h.steady ⟨base, hled.moves hcalled.going⟩ (hled.steady hcalled.going)
  exact hkept.setProc (n := n) hp hcalled.space hcalled.below

theorem frames (h : Kept k) (file need : Nat) : Kept (k.frames file need).1 := by
  obtain ⟨base, hled⟩ := h.ledger
  obtain ⟨hled', hone, hsteady, hnil⟩ := growFile_spec (need - (k.files file).length) [] k.sys hled
    fun f hf => absurd hf List.not_mem_nil
  unfold Kernel.frames
  rcases hg : growFile (need - (k.files file).length) [] k.sys with ⟨ok, got, sys⟩
  rw [hg] at hled' hone hsteady hnil
  simp only at hled' hone hsteady hnil
  cases ok with
  | false =>
    rw [hnil rfl] at hled'
    exact h.steady ⟨base, hled'⟩ hsteady
  | true =>
    -- what is in hand is in no file yet, and once in hand
    have hcount : ∀ f ∈ got, got.count f = 1 ∧ ∀ i j : Nat, (k.files i)[j]? ≠ some f := by
      intro f hf
      have hpos := List.count_pos_iff.mpr hf
      have hle := hled'.books.tally.outside_le f
      refine ⟨by have := hone f hf; omega, fun i j hij => ?_⟩
      have := hled'.books.tally.held_pos (k := .file i j) hij
      have := hone f hf
      omega
    have hgot : got.Nodup := List.nodup_iff_count_le_one.mpr fun f => by
      by_cases hf : f ∈ got
      · exact Nat.le_of_eq (hcount f hf).1
      · rw [List.count_eq_zero_of_not_mem hf]
        omega
    have hput : Ledger (update k.files file (k.files file ++ got)) base [] sys := by
      refine Ledger.putFiles got (k.files file) ?_
      rw [update_eq_self, List.append_nil]
      exact hled'
    -- where a frame of the longer file was
    have hwhere : ∀ i j f : Nat, (update k.files file (k.files file ++ got) i)[j]? = some f →
        (k.files i)[j]? = some f ∨
          i = file ∧ (k.files file).length ≤ j ∧ got[j - (k.files file).length]? = some f := by
      intro i j f hf
      by_cases hi : i = file
      · subst hi
        rw [update_self, List.getElem?_append] at hf
        split at hf
        · exact Or.inl hf
        · exact Or.inr ⟨rfl, by omega, hf⟩
      · rw [update_of_ne hi] at hf
        exact Or.inl hf
    refine h.refiled ⟨base, hput⟩ hsteady fun i j i' j' f hf hf' => ?_
    rcases hwhere i j f hf with hold | ⟨hi, hj, hnew⟩
    · rcases hwhere i' j' f hf' with hold' | ⟨-, -, hnew'⟩
      · exact h.files i j i' j' f hold hold'
      · exact absurd hold ((hcount f (List.mem_of_getElem? hnew')).2 i j)
    · rcases hwhere i' j' f hf' with hold' | ⟨hi', hj', hnew'⟩
      · exact absurd hold' ((hcount f (List.mem_of_getElem? hnew)).2 i' j')
      · have hlt := (List.getElem?_eq_some_iff.mp hnew).1
        have hsame := (List.getElem?_inj hlt hgot).mp (hnew.trans hnew'.symm)
        exact ⟨hi.trans hi'.symm, by omega⟩

theorem release (h : Kept k) (file : Nat) : Kept (k.release file).1 := by
  obtain ⟨base, hled⟩ := h.ledger
  have hpicked : Ledger (update k.files file []) base (k.files file ++ []) k.sys := by
    refine Ledger.pickFiles (k.files file) ?_
    rw [update_eq_self]
    exact hled
  refine h.refiled ⟨base, hpicked.giveAll⟩ (.freeAll (k.files file) k.sys) fun i j i' j' f hf hf' => ?_
  have hold : ∀ i j : Nat, (update k.files file [] i)[j]? = some f → (k.files i)[j]? = some f := by
    intro i j hf
    by_cases hi : i = file
    · subst hi
      simp at hf
    · rwa [update_of_ne hi] at hf
  exact h.files i j i' j' f (hold i j hf) (hold i' j' hf')

theorem step (bound : Option Nat) (h : Kept k) (op : Op) (hok : op.Keeps k) :
    Kept ((memory bound).step k op).1 := by
  refine memory_step bound h op (fun b _ => h.spawn b) (fun n p _ hp => h.fork hp)
    (fun n p _ hp => h.exit hp) (fun n c p hop hp => ?_) (fun file need _ => h.frames file need)
    fun file _ => h.release file
  subst hop
  exact h.callBy bound hp (hok p hp)

theorem run (bound : Option Nat) (h : Booted sys) (ops : List Op)
    (hok : (memory bound).Guarded (fun k op => op.Keeps k) (Kernel.boot sys) ops) :
    Kept ((memory bound).run (Kernel.boot sys) ops) :=
  (memory bound).invariant_of_step (fun (k : Kernel) op (hI : Kept k) hop => hI.step bound op hop) ops _
    (boot h) hok

end Kept

end NovarisOS.Uspace64
