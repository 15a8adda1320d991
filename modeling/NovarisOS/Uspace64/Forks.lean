/-
NovarisOS.Uspace64.Forks — shared pages over any number of forks, and a fork
that is undone.

`vmspace64_clone_cow` gives a page marked SHARED to the child as it is, with
one more owner for its frame. One owner count is a byte; where it is full the
walk falls back to copying the page, which is right for a private page and
ends the sharing of this one.
-/
import NovarisOS.Uspace64.Lifetimes

namespace NovarisOS.Uspace64

open Function (update update_eq_self update_idem update_of_ne update_self)
open Pmm64 (Pmm)
open Vmspace64 (Pte tableKey shareFlags ownFlags liveAdd LIVE_MAX)

/-! ## §1 Cloning into an empty space -/

variable {v src dst f va : Nat}

theorem mem_inOrder {t : PageTree} : v ∈ t.inOrder ↔ t.pages.get v ≠ none := by
  rw [PageTree.inOrder, List.mem_insertionSort, t.pages.mem_keys]

theorem nodup_inOrder (t : PageTree) : t.inOrder.Nodup :=
  (List.perm_insertionSort _ _).nodup_iff.mpr t.pages.nodup

/-- The pages of the source, in the order of the walk. -/
def sourcePages (sys : Sys) (src : Nat) : List Nat := (sys.tree src 0).inOrder

variable {sys sys' : Sys}

theorem mem_sourcePages : v ∈ sourcePages sys src ↔ sys.entry src v ≠ none := by
  rw [sourcePages, mem_inOrder, Sys.tree_low (by decide), Sys.entry]
  cases sys.spaces src with
  | none => simp [PageTree.empty]
  | some t => simp

theorem sourcePages_low (h : sys.Sound) (hv : v ∈ sourcePages sys src) : v < LOW_PAGES := by
  obtain ⟨e, he⟩ := Option.ne_none_iff_exists'.mp (mem_sourcePages.mp hv)
  obtain ⟨t, ht, hget⟩ := Sys.space_of_entry he
  exact (h.trees src t ht).low v e hget

theorem walkable_empty (h : sys.Sound)
    (hdst : sys.spaces dst = some PageTree.empty) :
    Walkable src dst (sourcePages sys src) sys where
  sound := h
  here := by simp [hdst]
  nodup := nodup_inOrder _
  low v hv := sourcePages_low h hv
  none v _ := by
    rw [Sys.entry_of_space hdst]
    rfl

theorem clonePages_append (src dst : Nat) (vs ws : List Nat) : ∀ sys : Sys,
    clonePages src dst (vs ++ ws) sys = match clonePages src dst vs sys with
      | (false, sys) => (false, sys)
      | (true, sys) => clonePages src dst ws sys := by
  induction vs with
  | nil => intro sys; rfl
  | cons v vs ih =>
    intro sys
    rw [List.cons_append, clonePages, clonePages]
    rcases clonePage src dst sys v with ⟨ok, sys₁⟩
    cases ok with
    | false => rfl
    | true => exact ih sys₁

variable {vs ws : List Nat}

theorem Walkable.append_left
    (h : Walkable src dst (vs ++ ws) sys) : Walkable src dst vs sys :=
  ⟨h.sound, h.here, (List.nodup_append.mp h.nodup).1, fun v hv => h.low v (List.mem_append_left _ hv),
    fun v hv => h.none v (List.mem_append_left _ hv)⟩

theorem Walkable.append_right
    (h : Walkable src dst (vs ++ ws) sys) (hw : Walked src dst vs sys sys') :
    Walkable src dst ws sys' where
  sound := hw.rest.sound
  here := fun hnone => h.here ((hw.here dst).mp hnone)
  nodup := (List.nodup_append.mp h.nodup).2.1
  low v hv := h.low v (List.mem_append_right _ hv)
  none v hv := by
    have hnot : v ∉ vs := fun hmem => (List.nodup_append.mp h.nodup).2.2 v hmem v hv rfl
    rw [hw.skipped dst v hnot]
    exact h.none v (List.mem_append_right _ hv)

/-! ## §2 Shared pages -/

/-- The pages of the source that the walk comes to before `v` and that have
the frame `f`. -/
def earlier (sys : Sys) (src v f : Nat) : List Nat :=
  ((sourcePages sys src).takeWhile (· ≠ v)).filter fun w => (sys.entry src w).map Pte.frame = some f

/-- The count of the frame of page `v` still has room when the walk gets
there. A frame that is not the allocator's, and the zero frame, need none. -/
def Granted (sys : Sys) (src v : Nat) : Prop :=
  ∀ e, sys.entry src v = some e → sys.pmm.owns e.frame = true → e.frame ≠ sys.zero →
    sys.pmm.frameOwners e.frame + (earlier sys src v e.frame).length ≤ 255

theorem earlier_eq
    (hsplit : sourcePages sys src = vs ++ v :: ws) (hnot : v ∉ vs) :
    earlier sys src v f = vs.filter fun w => (sys.entry src w).map Pte.frame = some f := by
  have htake : (sourcePages sys src).takeWhile (· ≠ v) = vs := by
    rw [hsplit, List.takeWhile_append_of_pos, List.takeWhile_cons_of_neg (by simp), List.append_nil]
    intro w hw
    have : w ≠ v := ne_of_mem_of_not_mem hw hnot
    simpa using this
  rw [earlier, htake]

variable {e : Pte}

theorem cloneCow_shared (h : sys.Sound)
    (hdst : sys.spaces dst = some PageTree.empty) (hne : src ≠ dst) (he : sys.entry src v = some e)
    (hsh : e.shared = true) (howner : sys.pmm.owns e.frame = true → 0 < sys.pmm.frameOwners e.frame)
    (hgranted : Granted sys src v) (hok : (cloneCow sys src dst).1 = true) :
    (cloneCow sys src dst).2.entry dst v = some e := by
  have hwalk : Walkable src dst (sourcePages sys src) sys := walkable_empty h hdst
  have hmem : v ∈ sourcePages sys src := mem_sourcePages.mpr (by rw [he]; simp)
  -- the pages before `v`, `v` itself, and the rest
  obtain ⟨vs, ws, hsplit⟩ := List.append_of_mem hmem
  rw [hsplit] at hwalk
  have hnot : v ∉ vs := fun hin =>
    (List.nodup_append.mp hwalk.nodup).2.2 v hin v (List.mem_cons_self ..) rfl
  have hnot' : v ∉ ws := (List.nodup_cons.mp (List.nodup_append.mp hwalk.nodup).2.1).1
  have hcow : cloneCow sys src dst = clonePages src dst (vs ++ v :: ws) sys := by rw [← hsplit]; rfl
  rw [hcow, clonePages_append] at hok ⊢
  have hbefore := clonePages_walked hne vs sys hwalk.append_left
  rcases hvs : clonePages src dst vs sys with ⟨ok, sys₁⟩
  rw [hvs] at hbefore hok
  cases ok with
  | false => cases hok
  | true =>
    have hwalk₁ := hwalk.append_right hbefore
    have hv := hwalk₁.low v (List.mem_cons_self ..)
    have he₁ : sys₁.entry src v = some e := by rw [hbefore.skipped src v hnot, he]
    have hc : PageCloned src dst v sys₁ _ _ := clonePage_cases _ hwalk₁.sound hv hwalk₁.real
    have hentries := hc.entries hwalk₁.sound hv hwalk₁.real hne
    have hrest := hc.rest hwalk₁.sound hv hwalk₁.real hne
    simp only [clonePages] at hok ⊢
    rcases hp : clonePage src dst sys₁ v with ⟨ok, sys₂⟩
    rw [hp] at hentries hrest hok
    cases ok with
    | false => cases hok
    | true =>
      obtain ⟨e', he', hgiven⟩ := hentries.target rfl e he₁
      have hsame : e' = e := by
        rcases hgiven with heq | ⟨-, hpriv⟩ | ⟨f, -, hown, hz, hfull⟩
        · exact heq
        · rw [hsh] at hpriv
          cases hpriv
        · -- copied: the count would have to be full, and it was granted
          rw [hbefore.rest.owns] at hown
          rw [hbefore.rest.zero] at hz
          have hpos := howner hown
          have hroom := hgranted e he hown hz
          rw [earlier_eq hsplit hnot] at hroom
          have hle := hbefore.owners e.frame hpos
          have hge := hbefore.rest.owners e.frame
          omega
      have hafter := clonePages_walked hne ws sys₂ (hwalk₁.tail hrest hentries)
      rw [hafter.skipped dst v hnot', he', hsame]

/-- The spaces that came from one by cloning, and the machine they are on. -/
structure Family where
  sys : Sys
  members : List Nat

/-- A member is cloned into a new space. The child is a member if
`vmspace64_clone_cow` returned 1. -/
def Family.clone (st : Family) (src : Nat) : Family × Bool :=
  if src ∉ st.members then (st, false)
  else
    let (dst, sys) := createSpace st.sys src
    if dst = 0 then ({ st with sys := sys }, false)
    else
      match cloneCow sys src dst with
      | (false, sys) => ({ st with sys := sys }, false)
      | (true, sys) => (⟨sys, dst :: st.members⟩, true)

def family : Machine Family Nat Bool := ⟨Family.clone⟩

/-- Every space's PML4 has an owner. -/
def Sys.Rooted (sys : Sys) : Prop := ∀ s, sys.spaces s ≠ none → 0 < sys.pmm.frameOwners s

theorem Created.space_none (h : Created sys f sys') (hrooted : sys.Rooted) :
    sys.spaces f = none := by
  by_contra hne
  have := hrooted f hne
  have := h.fresh
  omega

theorem Created.entry (h : Created sys f sys') {s : Nat} (hs : s ≠ f)
    (v : Nat) : sys'.entry s v = sys.entry s v := by
  rw [Sys.entry, Sys.entry, h.spaces, update_of_ne hs]

theorem Created.rooted (h : Created sys f sys') (hrooted : sys.Rooted) : sys'.Rooted := by
  intro s hs
  by_cases hsf : s = f
  · rw [hsf, h.self]
    exact Nat.one_pos
  · rw [h.spaces, update_of_ne hsf] at hs
    rw [h.owners s (hrooted s hs)]
    exact hrooted s hs

theorem Created.owns (h : Created sys f sys') : sys'.pmm.owns = sys.pmm.owns := by
  funext g
  rw [Pmm.owns, Pmm.owns, h.ready, h.frameCount, h.ram]

theorem Sys.Rooted.calm (h : sys.Rooted) (hc : Calm sys sys') : sys'.Rooted := by
  intro s hs
  have hpos := h s fun hnone => hs ((hc.here s).mpr hnone)
  rw [hc.owners s hpos]
  exact hpos

theorem Sys.Rooted.walked (h : sys.Rooted) (hw : Walked src dst vs sys sys') : sys'.Rooted := by
  intro s hs
  have hpos := h s fun hnone => hs ((hw.here s).mpr hnone)
  exact Nat.lt_of_lt_of_le hpos (hw.rest.owners s)

theorem Created.granted (h : Created sys f sys')
    (hsrc : src ≠ f) (he : sys.entry src v = some e)
    (howner : sys.pmm.owns e.frame = true → 0 < sys.pmm.frameOwners e.frame)
    (hg : Granted sys src v) : Granted sys' src v := by
  intro e' he' hown hz
  rw [h.entry hsrc, he] at he'
  cases he'
  rw [h.owns] at hown
  rw [h.zero] at hz
  have hpages : sourcePages sys' src = sourcePages sys src := by
    rw [sourcePages, sourcePages, Sys.tree_low (by decide), Sys.tree_low (by decide), h.spaces,
      update_of_ne hsrc]
  have hearlier : earlier sys' src v e.frame = earlier sys src v e.frame := by
    rw [earlier, earlier, hpages]
    refine List.filter_congr fun w _ => ?_
    rw [h.entry hsrc]
  rw [h.owners _ (howner hown), hearlier]
  exact hg e he hown hz

/-- Page `v` is the same in every member. -/
structure SharedBy (v : Nat) (e : Pte) (st : Family) : Prop where
  sound : st.sys.Sound
  rooted : st.sys.Rooted
  owner : st.sys.pmm.owns e.frame = true → 0 < st.sys.pmm.frameOwners e.frame
  entries : ∀ a ∈ st.members, st.sys.entry a v = some e

/-- Each clone finds room in the count of the page's frame. -/
def RoomFor (v : Nat) (st : Family) (src : Nat) : Prop :=
  src ∈ st.members → Granted st.sys src v

theorem Walked.shared
    (h : Walked src dst vs sys sys') (hsh : e.shared = true) {a : Nat} (ha : a ≠ dst)
    (he : sys.entry a v = some e) : sys'.entry a v = some e := by
  by_cases hsrc : a = src
  · subst hsrc
    rcases h.source v with hsame | ⟨e₀, he₀, hpriv, -⟩
    · rw [hsame, he]
    · rw [he] at he₀
      cases he₀
      rw [hsh] at hpriv
      cases hpriv
  · rw [h.others a v hsrc ha, he]

theorem SharedBy.step (hsh : e.shared = true) (st : Family) (src : Nat)
    (h : SharedBy v e st) (hroom : RoomFor v st src) : SharedBy v e (family.step st src).1 := by
  show SharedBy v e (st.clone src).1
  unfold Family.clone
  split
  · exact h
  · rename_i hmem
    have hmem : src ∈ st.members := not_not.mp hmem
    have hmade := (createSpace_cases h.sound src).spec h.sound
    rcases hcreate : createSpace st.sys src with ⟨dst, sys₁⟩
    rw [hcreate] at hmade
    simp only
    rcases hmade with ⟨h0, hcalm, hsound⟩ | hmade
    · rw [if_pos h0]
      refine ⟨hsound, h.rooted.calm hcalm, fun hown => ?_, fun a ha => ?_⟩
      · rw [hcalm.owns] at hown
        rw [hcalm.owners _ (h.owner hown)]
        exact h.owner hown
      · rw [hcalm.entry]
        exact h.entries a ha
    · have hne : ∀ a ∈ st.members, a ≠ dst := by
        intro a ha heq
        obtain ⟨t, ht, -⟩ := Sys.space_of_entry (h.entries a ha)
        rw [heq, hmade.space_none h.rooted] at ht
        cases ht
      rw [if_neg hmade.ne]
      have he := h.entries src hmem
      have hsrc := hne src hmem
      have he₁ : sys₁.entry src v = some e := by rw [hmade.entry hsrc, he]
      have howner₁ : sys₁.pmm.owns e.frame = true → 0 < sys₁.pmm.frameOwners e.frame := by
        intro hown
        rw [hmade.owns] at hown
        rw [hmade.owners _ (h.owner hown)]
        exact h.owner hown
      have hempty : sys₁.spaces dst = some PageTree.empty := by
        rw [hmade.spaces, update_self]
      have hwalked : Walked src dst (sourcePages sys₁ src) sys₁ (cloneCow sys₁ src dst).2 :=
        clonePages_walked hsrc _ _ (walkable_empty hmade.sound hempty)
      have hshared := cloneCow_shared hmade.sound hempty hsrc he₁ hsh howner₁
        (hmade.granted hsrc he h.owner (hroom hmem))
      have hkept : ∀ a ∈ st.members, (cloneCow sys₁ src dst).2.entry a v = some e := by
        intro a ha
        refine hwalked.shared hsh (hne a ha) ?_
        rw [hmade.entry (hne a ha)]
        exact h.entries a ha
      have hrooted := (hmade.rooted h.rooted).walked hwalked
      have howner : (cloneCow sys₁ src dst).2.pmm.owns e.frame = true →
          0 < (cloneCow sys₁ src dst).2.pmm.frameOwners e.frame := by
        intro hown
        rw [hwalked.rest.owns] at hown
        exact Nat.lt_of_lt_of_le (howner₁ hown) (hwalked.rest.owners _)
      rcases hc : cloneCow sys₁ src dst with ⟨ok, sys₂⟩
      rw [hc] at hwalked hshared hkept hrooted howner
      cases ok with
      | false => exact ⟨hwalked.rest.sound, hrooted, howner, hkept⟩
      | true =>
        refine ⟨hwalked.rest.sound, hrooted, howner, fun a ha => ?_⟩
        rcases List.mem_cons.mp ha with rfl | ha
        · exact hshared rfl
        · exact hkept a ha

theorem store_read {p q : Proc} {b : UInt8} {e' : Pte} (h : sys.Sound)
    (hv : pageOf va < LOW_PAGES) (he : sys.entry p.space (pageOf va) = some e)
    (he' : sys.entry q.space (pageOf va) = some e') (hframe : e'.frame = e.frame)
    (huser : e.user = true) (hwrite : e.write = true) (huser' : e'.user = true) :
    (userWrite sys p va b).1 = true ∧
      (userRead (userWrite sys p va b).2 q va).1 = some b := by
  have hpte := Sys.pte_eq_entry (s := p.space) h.trees hv
  have hstore : userWrite sys p va b = (true, sys.store e.frame (va % PAGE64_SIZE) b) := by
    simp [userWrite, storeAt, hpte, he, huser, hwrite]
  have hread : (sys.store e.frame (va % PAGE64_SIZE) b).pte q.space (pageOf va) = some e' := by
    have := Sys.pte_eq_entry (s := q.space) h.trees hv
    rw [he'] at this
    exact this
  rw [hstore]
  refine ⟨rfl, ?_⟩
  simp only [userRead, hread, huser', if_true, hframe]
  simp [Sys.store]

/-- Through any number of clones, each of which finds room in the count, a
shared page stays the page of the same frame in every space of the family,
and what one of them stores there all of them read. -/
theorem shared_stays_shared (sys : Sys) (s v : Nat) (e : Pte) (hsound : sys.Sound)
    (hrooted : sys.Rooted) (he : sys.entry s v = some e) (hsh : e.shared = true)
    (howner : sys.pmm.owns e.frame = true → 0 < sys.pmm.frameOwners e.frame)
    (srcs : List Nat) (hguard : family.Guarded (RoomFor v) ⟨sys, [s]⟩ srcs) :
    (∀ a ∈ (family.run ⟨sys, [s]⟩ srcs).members,
      ∃ e', (family.run ⟨sys, [s]⟩ srcs).sys.pte a v = some e' ∧ e'.frame = e.frame) ∧
    (∀ a ∈ (family.run ⟨sys, [s]⟩ srcs).members, ∀ b ∈ (family.run ⟨sys, [s]⟩ srcs).members,
      ∀ (p q : Proc) (va : Nat) (byte : UInt8), p.space = a → q.space = b → pageOf va = v →
        e.user = true → e.write = true →
        (userWrite (family.run ⟨sys, [s]⟩ srcs).sys p va byte).1 = true ∧
        (userRead (userWrite (family.run ⟨sys, [s]⟩ srcs).sys p va byte).2 q va).1 = some byte) := by
  have hstart : SharedBy v e ⟨sys, [s]⟩ := by
    refine ⟨hsound, hrooted, howner, fun a ha => ?_⟩
    rw [List.mem_singleton.mp ha]
    exact he
  have hend := family.invariant_of_step (SharedBy.step hsh) srcs _ hstart hguard
  obtain ⟨t, ht, hget⟩ := Sys.space_of_entry he
  have hv : v < LOW_PAGES := (hsound.trees s t ht).low v e hget
  refine ⟨fun a ha => ⟨e, ?_, rfl⟩, ?_⟩
  · rw [Sys.pte_eq_entry hend.sound.trees hv]
    exact hend.entries a ha
  · rintro a ha b hb p q va byte rfl rfl rfl huser hwrite
    exact store_read hend.sound hv (hend.entries _ ha) (hend.entries _ hb) rfl huser hwrite huser

instance (sys : Sys) (src v : Nat) : Decidable (Granted sys src v) :=
  match h : sys.entry src v with
  | none => isTrue fun e he => absurd (h.symm.trans he) (by simp)
  | some e =>
    decidable_of_iff (sys.pmm.owns e.frame = true → e.frame ≠ sys.zero →
        sys.pmm.frameOwners e.frame + (earlier sys src v e.frame).length ≤ 255)
      ⟨fun hg e' he' => Option.some.inj (h.symm.trans he') ▸ hg, fun hg => hg e h⟩

instance (v : Nat) (st : Family) (src : Nat) : Decidable (RoomFor v st src) :=
  inferInstanceAs (Decidable (src ∈ st.members → Granted st.sys src v))

/-- A tree with one page, under the tables `frame + 1` to `frame + 3`. -/
def PageTree.onePage (frame v : Nat) (e : Pte) : PageTree where
  tables := ((Table.empty.set (tableKey 0 v) ⟨frame + 1, true, true⟩).set (tableKey 1 v)
    ⟨frame + 2, true, true⟩).set (tableKey 2 v) ⟨frame + 3, true, true⟩
  huge := fun _ => none
  pages := Table.empty.set v e

theorem PageTree.onePage_wf {frame : Nat} (hv : v < LOW_PAGES) : (onePage frame v e).Wf := by
  have hopen : (onePage frame v e).Open v := by
    intro lvl hlvl
    have hkey : ∀ a b, a ≠ b → tableKey a v ≠ tableKey b v := by
      intro a b hab h
      exact hab (congrArg Prod.fst h)
    match lvl, hlvl with
    | 0, _ => simp [onePage, update_of_ne (hkey 0 1 (by omega)),
        update_of_ne (hkey 0 2 (by omega))]
    | 1, _ => simp [onePage, update_of_ne (hkey 1 2 (by omega))]
    | 2, _ => simp [onePage]
  have honly : ∀ v' e', (onePage frame v e).pages.get v' = some e' → v' = v := by
    intro v' e' hget
    by_contra hne
    simp [onePage, update_of_ne hne] at hget
  refine ⟨fun _ => rfl, fun v' e' hget => ?_, fun v' e' hget => ?_⟩
  · rw [honly v' e' hget]
    exact hv
  · rw [honly v' e' hget]
    exact hopen

/-- A machine of 32 frames with one space, whose PML4 is frame 1, and in it
one shared page. -/
def tinySys : Sys where
  pmm := { Pmm.static with
    ready := true, frameCount := 32, highHint := 32, usedCount := 8
    bitmap := fun b => if b < 1 then 0xFF else 0, ram := fun _ => true }
  mem := fun _ _ => 0
  zero := 0
  live := [1]
  spaces := update (fun _ => none) 1
    (some (.onePage 1 16 ⟨5, true, true, false, false, true, 0⟩))
  upper := PageTree.empty
  starved := false

theorem tinySys_sound : tinySys.Sound := by
  refine ⟨⟨fun _ _ => rfl, fun _ => Nat.zero_le _, ?_, by decide⟩, fun _ => by decide, ?_⟩
  · show (8 : Nat) = _
    decide
  · intro s t hs
    by_cases h1 : s = 1
    · subst h1
      have : some (PageTree.onePage 1 16 ⟨5, true, true, false, false, true, 0⟩) = some t := by
        simpa [tinySys] using hs
      cases this
      exact PageTree.onePage_wf (by decide)
    · simp [tinySys, update_of_ne h1] at hs

theorem tinySys_rooted : tinySys.Rooted := by
  intro s hs
  by_cases h1 : s = 1
  · subst h1
    decide
  · simp [tinySys, update_of_ne h1] at hs

/-- A space and two of its children have the same page. -/
theorem shared_stays_shared_twice :
    (family.run ⟨tinySys, [1]⟩ [1, 1]).members = [15, 8, 1] ∧
    ∀ a ∈ (family.run ⟨tinySys, [1]⟩ [1, 1]).members,
      ∃ e', (family.run ⟨tinySys, [1]⟩ [1, 1]).sys.pte a 16 = some e' ∧ e'.frame = 5 :=
  ⟨by decide, (shared_stays_shared tinySys 1 16 ⟨5, true, true, false, false, true, 0⟩
    tinySys_sound tinySys_rooted rfl rfl (fun _ => by decide) [1, 1] (by decide)).1⟩

/-- A file of one page that one process has mapped 254 times and another
once, shared: its frame has the 256 owners that a count can hold. -/
def crowded : Sys :=
  ((memory (some PROC64_RESV_MAX)).run (Kernel.boot plainSys)
    ([.spawn 0, .spawn 0, .frames 0 1] ++
      List.replicate 254 (.call 1 (.mapFile 0 false 0 0 1 3 false)) ++
      [.call 2 (.mapFile 0 false 0 0 1 3 false)])).sys

/-- Cloned once more, the shared page is another one in the child: the clone
returns 1 and the entries name different frames. -/
theorem shared_page_copied :
    crowded.pte 260 0x100000000 = some ⟨261, true, true, false, false, true, 0⟩ ∧
    family.trace ⟨crowded, [260]⟩ [260] = [true] ∧
    ¬ ∀ a ∈ (family.run ⟨crowded, [260]⟩ [260]).members,
      ((family.run ⟨crowded, [260]⟩ [260]).sys.pte a 0x100000000).map Pte.frame = some 261 := by
  decide +kernel

/-! ## §3 A fork that is undone -/

/-- Only the space `c` is under watch. -/
def only (c : Nat) : Nat → Bool := fun s => s == c

def noFiles : Nat → List Nat := fun _ => []

theorem Books.start {c : Nat} (h : sys.Sound) (hc : c ≠ 0) (hnone : sys.spaces c = none) :
    Books (only c) noFiles sys.pmm.frameOwners [] sys where
  sound := h
  ground hr h0 := (Pmm.bitmapTest_iff hr h0).mp (h.ground hr)
  tally := by
    refine .start fun k => ?_
    cases k with
    | page s v =>
      by_cases hs : s = c
      · simp [Sys.held, hs, Sys.entry, hnone]
      · simp [Sys.held, only, hs]
    | table s k =>
      by_cases hs : s = c
      · simp [Sys.held, hs, hnone]
      · simp [Sys.held, only, hs]
    | root s =>
      by_cases hs : s = c
      · simp [Sys.held, hs, hnone]
      · simp [Sys.held, only, hs]
    | file i j => simp [Sys.held, noFiles]
    | zero => simp [Sys.held, only, Ne.symm hc]

theorem Books.finish {c : Nat} {base : Nat → Nat}
    (h : Books (only c) noFiles base [] sys) (hc : c ≠ 0) (hnone : sys.spaces c = none) (f : Nat) :
    sys.pmm.frameOwners f = base f := by
  have hheld := (Books.start h.sound hc hnone).tally f
  obtain ⟨K, hK, hcount⟩ := h.tally f
  obtain ⟨K', hK', hcount'⟩ := hheld
  have hsame : K = K' := by
    ext k
    rw [hK, hK']
  subst hsame
  omega

theorem SpaceMade.books {r : Nat × Sys} (hmade : SpaceMade sys r) (h : sys.Sound)
    (hrooted : sys.Rooted) (hopen : sys.upper.Open SCRATCH_PAGE) :
    (r.1 = 0 → r.2.pmm.frameOwners = sys.pmm.frameOwners) ∧
      (r.1 ≠ 0 → Books (only r.1) noFiles sys.pmm.frameOwners [] r.2) := by
  cases hmade with
  | refused htook => exact ⟨fun _ => htook.pmm.none rfl h.ground, fun h0 => absurd rfl h0⟩
  | noRoom htook h0 hsteps hpmm =>
    rename_i sys₁ sys₂ f loaded
    refine ⟨fun _ => ?_, fun h0 => absurd rfl h0⟩
    show (sys₂.pmm.freeFrame f).frameOwners = _
    have hfree := (htook.pmm.fresh h0).2.1
    rw [Pmm.frameOwners_freeFrame, hpmm hopen, htook.owners h0, update_self,
      update_idem, Nat.sub_self, ← hfree, update_eq_self]
  | made t htook h0 hsteps hpmm =>
    rename_i sys₁ sys₂ f loaded
    refine ⟨fun hz => absurd hz h0, fun _ => ?_⟩
    have hnone : sys.spaces f = none := by
      by_contra hne
      have := hrooted f hne
      have := (htook.pmm.fresh h0).2.1
      omega
    have htaken := (Books.start h h0 hnone).took htook h0
    have hcalm := hsteps.calm (h.took htook) fun hlow => absurd hlow scratch_upper
    have hspaces := (hsteps.kernel_half scratch_upper).1
    have hroom := htaken.congr (hpmm hopen) hspaces hcalm.zero
    exact hroom.putRoot (by simp [only]) (by rw [hspaces, htook.spaces, hnone]) t _

/-- What the program may do with a page: write it, at once or after a fault. -/
def MayWrite (e : Pte) : Bool := e.user && (e.write || (e.cow && e.cowRw))

theorem breakCow_entry {s : Nat} (h : sys.Sound)
    (hv : pageOf va < LOW_PAGES) (he : sys.entry s (pageOf va) = some e) :
    ((breakCow sys s va).1 = true ↔ e.cow = true ∧ e.cowRw = true ∧
      (sys.pmm.frameOwners e.frame ≤ 1 ∨ sys.pmm.allocUser.1 ≠ 0)) ∧
    ((breakCow sys s va).1 = true →
      ∃ f, (breakCow sys s va).2.pte s (pageOf va) = some { ownFlags e with frame := f }) := by
  obtain ⟨t, ht, hget⟩ := Sys.space_of_entry he
  have htree := h.trees s t ht
  have hset : ∀ (sys' : Sys) (e' : Pte), sys'.spaces = sys.spaces →
      (sys'.setPte s (pageOf va) e').pte s (pageOf va) = some e' := by
    intro sys' e' hspaces
    have ht' : sys'.spaces s = some t := by rw [hspaces, ht]
    have htrees : (sys'.setPte s (pageOf va) e').Trees := by
      rw [Sys.setPte_low hv ht']
      exact Sys.Trees.withTree (fun s₀ t₀ hs => h.trees s₀ t₀ (hspaces ▸ hs)) s
        (htree.setPage hv (htree.rooted _ e hget) e')
    rw [Sys.pte_eq_entry htrees hv, Sys.entry_setPte hv ht', if_pos ⟨rfl, rfl⟩]
  unfold breakCow
  simp only
  rw [Sys.pte_eq_entry h.trees hv, he]
  simp only
  cases hcow : e.cow with
  | false => simp
  | true =>
    cases hrw : e.cowRw with
    | false => simp
    | true =>
      simp only [Bool.not_true, Bool.false_eq_true, if_false]
      split
      · rename_i hmany
        by_cases h0 : sys.allocUser.1 = 0
        · rw [if_pos h0]
          have h0' : sys.pmm.allocUser.1 = 0 := h0
          simp only [Bool.false_eq_true, false_iff, false_implies, and_true]
          omega
        · rw [if_neg h0]
          have h0' : sys.pmm.allocUser.1 ≠ 0 := h0
          refine ⟨by simp [h0'], fun _ => ⟨_, hset _ _ rfl⟩⟩
      · rename_i hfew
        refine ⟨by simp only [true_iff, true_and]; omega, fun _ => ⟨e.frame, ?_⟩⟩
        have heq : { ownFlags e with frame := e.frame } = ownFlags e := rfl
        rw [heq]
        exact hset _ _ rfl

theorem userWrite_mapped {p : Proc} (h : sys.Sound)
    (hv : pageOf va < LOW_PAGES) (he : sys.entry p.space (pageOf va) = some e) (b : UInt8) :
    (userWrite sys p va b).1 = true ↔ e.user = true ∧ (e.write = true ∨
      (e.cow = true ∧ e.cowRw = true ∧
        (sys.pmm.frameOwners e.frame ≤ 1 ∨ sys.pmm.allocUser.1 ≠ 0))) := by
  have hpte := Sys.pte_eq_entry (s := p.space) h.trees hv
  rw [he] at hpte
  obtain ⟨hiff, hentry⟩ := breakCow_entry (s := p.space) h hv he
  unfold userWrite
  rw [hpte]
  simp only
  cases huser : e.user with
  | false =>
    rcases hb : breakCow sys p.space va with ⟨ok, sys'⟩
    rw [hb] at hentry
    cases ok with
    | false => simp
    | true =>
      obtain ⟨f, hf⟩ := hentry rfl
      simp [storeAt, hf, ownFlags, huser]
  | true =>
    cases hwrite : e.write with
    | true => simp [storeAt, hpte, huser, hwrite]
    | false =>
      rw [← hiff]
      rcases hb : breakCow sys p.space va with ⟨ok, sys'⟩
      rw [hb] at hentry
      cases ok with
      | false => simp
      | true =>
        obtain ⟨f, hf⟩ := hentry rfl
        simp [storeAt, hf, ownFlags, huser]

/-- A space is made, `src` cloned into it as far as it goes, and the space
destroyed. -/
def forkUndone (sys : Sys) (loaded src : Nat) : Sys :=
  let (c, sys) := createSpace sys loaded
  if c = 0 then sys else destroySpace (cloneCow sys src c).2 loaded c

/-- What is asked of the source: its pages are frames of the allocator's or
the zero frame, all of them owned, and a page that remembers it was writable
is marked COW. -/
structure Forkable (sys : Sys) (src : Nat) : Prop where
  here : sys.spaces src ≠ none
  owned : ∀ v e, sys.entry src v = some e →
    (sys.pmm.owns e.frame = true ∨ e.frame = sys.zero) ∧ 0 < sys.pmm.frameOwners e.frame
  marked : ∀ v e, sys.entry src v = some e → e.cowRw = true → e.cow = true

/-- The source afterwards: its owners, its entries up to the COW marks, its
bytes. -/
structure Undone (sys : Sys) (src : Nat) (sys' : Sys) : Prop where
  sound : sys'.Sound
  owners : ∀ f, sys'.pmm.frameOwners f = sys.pmm.frameOwners f
  source : ∀ v, KeptBy sys (sys.entry src v) (sys'.entry src v)
  mem : ∀ f, 0 < sys.pmm.frameOwners f → sys'.mem f = sys.mem f

theorem undone_forkUndone {loaded : Nat} (h : sys.Sound) (hrooted : sys.Rooted)
    (hopen : sys.upper.Open SCRATCH_PAGE) (hlive : sys.live.length < LIVE_MAX) (hzero : sys.ZeroHeld)
    (hloaded : loaded = 0 ∨ sys.spaces loaded ≠ none) (hsrc : Forkable sys src) :
    Undone sys src (forkUndone sys loaded src) := by
  have hcases := createSpace_cases h loaded
  have hspec := hcases.spec h
  obtain ⟨hrefused, hbooks⟩ := hcases.books h hrooted hopen
  unfold forkUndone
  rcases hcreate : createSpace sys loaded with ⟨c, sys₁⟩
  rw [hcreate] at hspec hrefused hbooks
  simp only at hspec hrefused hbooks ⊢
  rcases hspec with ⟨h0, hcalm, hsound⟩ | hmade
  · rw [if_pos h0]
    exact ⟨hsound, fun f => by rw [hrefused h0], fun v => Or.inl (hcalm.entry src v),
      fun f _ => by rw [hcalm.mem]⟩
  · rw [if_neg hmade.ne]
    have hnone := hmade.space_none hrooted
    have hne : src ≠ c := fun heq => hsrc.here (heq ▸ hnone)
    have hne' : loaded ≠ c := by
      rintro rfl
      exact hloaded.elim hmade.ne fun h => h hnone
    have hempty : sys₁.spaces c = some PageTree.empty := by rw [hmade.spaces, update_self]
    have hwalk : Walkable src c (sourcePages sys₁ src) sys₁ := walkable_empty hmade.sound hempty
    have hwalked : Walked src c (sourcePages sys₁ src) sys₁ (cloneCow sys₁ src c).2 :=
      clonePages_walked hne _ _ hwalk
    -- the child holds what it was given
    have hzero₁ : sys₁.ZeroHeld := by
      intro h0
      rw [hmade.zero] at h0 ⊢
      rw [hmade.owners _ (hzero h0)]
      exact hzero h0
    have howned₁ : ∀ v e, sys₁.entry src v = some e →
        sys₁.pmm.owns e.frame = true ∨ e.frame = sys₁.zero := by
      intro v e he
      rw [hmade.entry hne] at he
      rw [hmade.owns, hmade.zero]
      exact (hsrc.owned v e he).1
    have hmoves : Moves (only c) noFiles ([], sys₁) ([], (cloneCow sys₁ src c).2) :=
      clonePages_moves hne (by simp [only]) _ _ hwalk hzero₁ howned₁
    have hfull : Books (only c) noFiles sys.pmm.frameOwners [] (cloneCow sys₁ src c).2 :=
      (hbooks hmade.ne).moves hmoves
    -- it is in the table of live spaces, so it is destroyed
    have hin : c ∈ (cloneCow sys₁ src c).2.live := by
      rw [hwalked.rest.live, hmade.live, liveAdd, if_pos hlive]
      simp
    obtain ⟨t, ht⟩ : ∃ t, (cloneCow sys₁ src c).2.spaces c = some t := by
      refine Option.ne_none_iff_exists'.mp fun hgone => ?_
      rw [(hwalked.here c).mp hgone] at hempty
      cases hempty
    rcases destroySpace_cases (cloneCow sys₁ src c).2 loaded c with ⟨-, hout⟩ | ⟨live, -, -, -, hd⟩
    · rcases hout with h0 | h0 | h0
      · exact absurd h0 hmade.ne
      · exact absurd h0 hne'
      · exact absurd hin h0
    · rw [ht, Option.getD_some] at hd
      rw [hd]
      have hend := hfull.destroyed ht (by simp [only]) live
      refine ⟨hend.sound, hend.finish hmade.ne (update_self ..), fun v => ?_, fun f hf => ?_⟩
      · show KeptBy sys (sys.entry src v)
          ((update (cloneCow sys₁ src c).2.spaces c none src).bind fun t => t.pages.get v)
        rw [update_of_ne hne, ← hmade.entry hne]
        refine (hwalked.source v).imp id ?_
        rintro ⟨e, he, hsh, hz, hown, hnew⟩
        exact ⟨e, he, hsh, hmade.zero ▸ hz, hmade.owns ▸ hown, hnew⟩
      · show (cloneCow sys₁ src c).2.mem f = _
        rw [hwalked.rest.mem f (by rw [hmade.owners f hf]; exact hf), hmade.mem]

theorem mayWrite_keptBy {new : Option Pte} (h : KeptBy sys (some e) new)
    (hmarked : e.cowRw = true → e.cow = true) :
    ∃ e', new = some e' ∧ e'.frame = e.frame ∧ e'.user = e.user ∧ MayWrite e' = MayWrite e ∧
      (e'.write = true ∨ (e'.cow = true ∧ e'.cowRw = true) ↔
        e.write = true ∨ (e.cow = true ∧ e.cowRw = true)) := by
  rcases h with h | ⟨e₀, he₀, -, -, -, hnew⟩
  · exact ⟨e, h, rfl, rfl, rfl, Iff.rfl⟩
  · cases he₀
    refine ⟨shareFlags e, hnew, rfl, rfl, ?_, ?_⟩
    · cases hw : e.write <;> cases hrw : e.cowRw <;> simp_all [MayWrite, shareFlags]
    · cases hw : e.write <;> cases hrw : e.cowRw <;> simp_all [shareFlags]

/-- A fork that is undone, at whatever page the clone stopped, leaves every
owner count as it was; the source reads the same bytes, and may write the
same pages. Where the write has to copy the page, it needs a frame. -/
theorem fork_undone (sys : Sys) (loaded src : Nat) (hsound : sys.Sound) (hrooted : sys.Rooted)
    (hopen : sys.upper.Open SCRATCH_PAGE) (hlive : sys.live.length < LIVE_MAX) (hzero : sys.ZeroHeld)
    (hloaded : loaded = 0 ∨ sys.spaces loaded ≠ none) (hsrc : Forkable sys src) :
    (∀ f, (forkUndone sys loaded src).pmm.frameOwners f = sys.pmm.frameOwners f) ∧
    (∀ v, sys.entry src v = none → (forkUndone sys loaded src).entry src v = none) ∧
    (∀ v e, sys.entry src v = some e →
      ∃ e', (forkUndone sys loaded src).entry src v = some e' ∧
        (∀ off, (forkUndone sys loaded src).mem e'.frame off = sys.mem e.frame off) ∧
        e'.user = e.user ∧ MayWrite e' = MayWrite e ∧
        ∀ (p : Proc) (va : Nat) (b : UInt8), p.space = src → pageOf va = v → MayWrite e = true →
          (userWrite (forkUndone sys loaded src) p va b).1 = true ∨
          (1 < sys.pmm.frameOwners e.frame ∧ (forkUndone sys loaded src).pmm.allocUser.1 = 0)) := by
  have h := undone_forkUndone hsound hrooted hopen hlive hzero hloaded hsrc
  refine ⟨h.owners, fun v hv => ?_, fun v e he => ?_⟩
  · rcases h.source v with hsame | ⟨e, he, -⟩
    · rw [hsame, hv]
    · rw [hv] at he
      cases he
  · have hkept := h.source v
    rw [he] at hkept
    obtain ⟨e', he', hframe, huser, hmay, hbits⟩ := mayWrite_keptBy hkept (hsrc.marked v e he)
    refine ⟨e', he', fun off => ?_, huser, hmay, ?_⟩
    · rw [hframe, h.mem _ (hsrc.owned v e he).2]
    · rintro p va b rfl rfl hmayw
      obtain ⟨t, ht, hget⟩ := Sys.space_of_entry he
      have hv := (hsound.trees _ t ht).low _ e hget
      have hwrite := userWrite_mapped h.sound hv he' b
      have hmay : e.user = true ∧ (e.write = true ∨ (e.cow = true ∧ e.cowRw = true)) := by
        simpa [MayWrite] using hmayw
      rcases Nat.lt_or_ge 1 (sys.pmm.frameOwners e.frame) with hmany | hone
      · by_cases h0 : (forkUndone sys loaded p.space).pmm.allocUser.1 = 0
        · exact Or.inr ⟨hmany, h0⟩
        · refine Or.inl (hwrite.mpr ⟨huser.trans hmay.1, (hbits.mpr hmay.2).imp id fun hc => ?_⟩)
          exact ⟨hc.1, hc.2, Or.inr h0⟩
      · refine Or.inl (hwrite.mpr ⟨huser.trans hmay.1, (hbits.mpr hmay.2).imp id fun hc => ?_⟩)
        exact ⟨hc.1, hc.2, Or.inl (by rw [hframe, h.owners]; exact hone)⟩

/-- `tinySys` after its first space was made: the tables of the scratch page
are there. -/
def settledSys : Sys :=
  { tinySys with upper := { PageTree.onePage 100 SCRATCH_PAGE ⟨0, true, false, false, false, false, 0⟩
      with pages := Table.empty } }

theorem settledSys_sound : settledSys.Sound :=
  ⟨tinySys_sound.wf, tinySys_sound.ground, tinySys_sound.trees⟩

theorem settledSys_entry (h : settledSys.entry 1 v = some e) :
    e = ⟨5, true, true, false, false, true, 0⟩ := by
  have hget : (PageTree.onePage 1 16 ⟨5, true, true, false, false, true, 0⟩).pages.get v = some e := by
    simpa [Sys.entry, settledSys, tinySys] using h
  by_cases hv : v = 16
  · subst hv
    simpa [PageTree.onePage] using hget.symm
  · simp [PageTree.onePage, update_of_ne hv] at hget

theorem settledSys_forkable : Forkable settledSys 1 where
  here := by simp [settledSys, tinySys]
  owned v e h := by
    rw [settledSys_entry h]
    decide
  marked v e h hrw := by
    rw [settledSys_entry h] at hrw
    cases hrw

/-- A process with one page is cloned and its clone is destroyed. -/
theorem fork_undone_settled :
    (createSpace settledSys 1).1 ≠ 0 ∧
    ∀ f, (forkUndone settledSys 1 1).pmm.frameOwners f = settledSys.pmm.frameOwners f :=
  ⟨by decide, (fork_undone settledSys 1 1 settledSys_sound tinySys_rooted
    (by intro lvl hlvl; match lvl, hlvl with
      | 0, _ => decide
      | 1, _ => decide
      | 2, _ => decide)
    (by decide) (fun h => absurd rfl h) (Or.inr settledSys_forkable.here) settledSys_forkable).1⟩

/-- `settledSys` with a private page in the place of the shared one, writable
although its frame has a second owner. -/
def doubledSys : Sys :=
  { settledSys with
    pmm := { settledSys.pmm with refs := update (fun _ => 0) 5 1 }
    spaces := update (fun _ => none) 1
      (some (.onePage 1 16 ⟨5, true, true, false, false, false, 0⟩)) }

/-- Where a fork is not undone to the last frame, or costs one later. With
`LIVE_MAX` spaces alive the child is not tracked, so it is not destroyed. The
first space of all leaves the tables of the scratch page. And a page that was
writable with two owners is marked COW, so that the next store to it needs a
frame; here there is none to give. -/
theorem fork_not_undone :
    (¬ ∀ f, (forkUndone { settledSys with live := List.range' 1000 1024 } 1 1).pmm.frameOwners f =
      settledSys.pmm.frameOwners f) ∧
    (¬ ∀ f, (forkUndone tinySys 1 1).pmm.frameOwners f = tinySys.pmm.frameOwners f) ∧
    (userWrite doubledSys ⟨1, 0, 0, 0, []⟩ 0x10000 7).1 = true ∧
    (userWrite (forkUndone doubledSys 1 1) ⟨1, 0, 0, 0, []⟩ 0x10000 7).1 = false := by
  refine ⟨fun h => ?_, fun h => ?_, by decide, by decide⟩
  · have := h 8
    revert this
    decide +kernel
  · have := h 9
    revert this
    decide

end NovarisOS.Uspace64
