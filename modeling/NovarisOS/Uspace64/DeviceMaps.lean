/-
NovarisOS.Uspace64.DeviceMaps — device memory and the frame allocator.

`uspace64_map_phys` maps frames that nobody allocated: a framebuffer, say,
which is no memory of the allocator's. Taking the mapping away gives the
frame to `pmm64_free_frame` all the same. That is harmless where the frame
lies past the end of the bitmap, and not where it lies in a hole below it:
the hole is marked used, so the free is believed.
-/
import NovarisOS.Uspace64.KernelTheorems

namespace NovarisOS.Uspace64

open Function (update update_of_ne update_self)
open Pmm64 (Pmm Multiboot wrap)
open Vmspace64 (Pte tableKey liveAdd)

/-! ## §1 The machine -/

/-- A call of the allocator by some part of the kernel. -/
inductive FrameCall where
  | allocFrame
  | allocHigh
  | allocUser
  | allocAbove (minPhys : Nat)
  | ref (f : Nat)

/-- What an allocation returned, and the machine after it. -/
def FrameCall.run (sys : Sys) : FrameCall → Option Nat × Sys
  | .allocFrame => (some sys.allocFrame.1, sys.allocFrame.2)
  | .allocHigh => (some sys.allocHigh.1, sys.allocHigh.2)
  | .allocUser => (some sys.allocUser.1, sys.allocUser.2)
  | .allocAbove minPhys =>
    (some (sys.pmm.allocAbove minPhys).1, (sys.took (sys.pmm.allocAbove minPhys)).2)
  | .ref f =>
    match sys.pmm.refFrame f with
    | none => (none, sys)
    | some pmm => (none, { sys with pmm := pmm })

inductive DeviceOp where
  | frame (c : FrameCall)
  | spawn (brkStart : Nat)
  | clone (n : Nat)
  | destroy (n : Nat)
  | mapPhys (n length phys prot : Nat)
  | munmap (n addr length : Nat)

/-- `vmspace64_create` and `vmspace64_clone_cow`, whether or not the clone
got to the end. -/
def Kernel.clone (k : Kernel) (p : Proc) : Kernel :=
  let (space, sys) := createSpace k.sys p.space
  if space = 0 then k.setSys sys
  else
    { k with
      sys := (cloneCow sys p.space space).2
      procs := update k.procs k.nextPid (some { p with space := space })
      nextPid := k.nextPid + 1 }

def DeviceOp.run (k : Kernel) : DeviceOp → Kernel × Option Nat
  | .frame c => (k.setSys (c.run k.sys).2, (c.run k.sys).1)
  | .spawn brkStart => ((k.spawn brkStart).1, none)
  | .clone n => ((k.procs n).elim k k.clone, none)
  | .destroy n => ((k.procs n).elim k fun p => (k.exit n p).1, none)
  | .mapPhys n length phys prot =>
    ((k.procs n).elim k fun p =>
      (k.callBy (some PROC64_RESV_MAX) n (.mapPhys length phys prot) p).1, none)
  | .munmap n addr length =>
    ((k.procs n).elim k fun p =>
      (k.callBy (some PROC64_RESV_MAX) n (.munmap addr length) p).1, none)

def devices : Machine Kernel DeviceOp (Option Nat) := ⟨DeviceOp.run⟩

/-- A machine after `pmm64_init`, with any kernel half. -/
def Kernel.powerOn (mbi : Multiboot) (kernelStart kernelEnd : Nat) (mem : Nat → Mem) (upper : PageTree) :
    Kernel :=
  Kernel.boot ⟨Pmm.init mbi kernelStart kernelEnd, mem, 0, [], fun _ => none, upper, false⟩

/-! ## §2 Only memory is free -/

/-- What is free is memory, and so is what a space will give back besides
its pages. -/
structure RamOnly (sys : Sys) : Prop where
  sound : sys.Sound
  clean : sys.pmm.ready = true → ∀ f < sys.pmm.frameCount, sys.pmm.frameOwners f = 0 →
    sys.pmm.ram f = true
  tables : ∀ s t, sys.spaces s = some t → ∀ k l, t.tables.get k = some l →
    l.frame ≠ 0 ∧ sys.pmm.ram l.frame = true
  live : ∀ s ∈ sys.live, sys.pmm.ram s = true
  zero : sys.zero = 0

/-- Which frames are memory does not change. -/
structure SameRam (sys sys' : Sys) : Prop where
  ram : sys'.pmm.ram = sys.pmm.ram
  frameCount : sys'.pmm.frameCount = sys.pmm.frameCount

theorem SameRam.refl (sys : Sys) : SameRam sys sys := ⟨rfl, rfl⟩

variable {sys : Sys}

theorem SameRam.trans {sys' sys'' : Sys} (h : SameRam sys sys') (h' : SameRam sys' sys'') :
    SameRam sys sys'' :=
  ⟨h'.ram.trans h.ram, h'.frameCount.trans h.frameCount⟩

namespace RamOnly

variable {sys sys' : Sys} {s v f : Nat}

theorem fresh (h : RamOnly sys) (ht : sys.Took f sys') (hf : f ≠ 0) : sys.pmm.ram f = true := by
  obtain ⟨hlt, hfree, hone⟩ := ht.pmm.fresh hf
  refine h.clean ?_ f hlt hfree
  rw [← ht.pmm.ready]
  exact (Pmm.lt_of_owned (f := f) (by omega)).1

theorem took (h : RamOnly sys) (ht : sys.Took f sys') : RamOnly sys' where
  sound := h.sound.took ht
  clean := by
    rw [ht.pmm.ready, ht.pmm.frameCount, ht.pmm.ram]
    intro hready g hg hzero
    refine h.clean hready g hg ?_
    by_cases hgf : g = f
    · by_cases h0 : f = 0
      · rwa [ht.pmm.none h0 h.sound.ground] at hzero
      · rw [hgf]
        exact (ht.pmm.fresh h0).2.1
    · rwa [ht.pmm.other g hgf] at hzero
  tables := by
    rw [ht.spaces, ht.pmm.ram]
    exact h.tables
  live := by
    rw [ht.live, ht.pmm.ram]
    exact h.live
  zero := ht.zero.trans h.zero

theorem sameRam_took (ht : sys.Took f sys') : SameRam sys sys' := ⟨ht.pmm.ram, ht.pmm.frameCount⟩

theorem ref {pmm : Pmm} (h : RamOnly sys) (hr : sys.pmm.refFrame f = some pmm) :
    RamOnly { sys with pmm := pmm } := by
  obtain ⟨-, howners, -, -, hready, hcount, hram, -⟩ := Pmm.refFrame_some h.sound.wf hr
  refine ⟨h.sound.refFrame hr, ?_, ?_, ?_, h.zero⟩
  · show pmm.ready = true → ∀ g < pmm.frameCount, pmm.frameOwners g = 0 → pmm.ram g = true
    rw [hready, hcount, hram, howners]
    intro hrdy g hg hzero
    refine h.clean hrdy g hg ?_
    by_cases hgf : g = f
    · rw [hgf, update_self] at hzero
      omega
    · rwa [update_of_ne hgf] at hzero
  · show ∀ s t, _ → ∀ k (l : Link), _ → l.frame ≠ 0 ∧ pmm.ram l.frame = true
    rw [hram]
    exact h.tables
  · show ∀ s ∈ sys.live, pmm.ram s = true
    rw [hram]
    exact h.live

theorem free (h : RamOnly sys) (h0 : f ≠ 0) (hram : f < sys.pmm.frameCount → sys.pmm.ram f = true) :
    RamOnly (sys.free f) := by
  obtain ⟨hready, hcount, hrams⟩ := Pmm.freeFrame_fields sys.pmm f
  have howners := Pmm.frameOwners_freeFrame sys.pmm f
  refine ⟨⟨h.sound.wf.freeFrame f, h.sound.ground.freeFrame fun hr hc => ?_, h.sound.trees⟩, ?_, ?_, ?_,
    h.zero⟩
  · rw [howners, update_of_ne (Ne.symm h0)]
    exact (Pmm.bitmapTest_iff hr hc).mp (h.sound.ground hr)
  · show (sys.pmm.freeFrame f).ready = true → ∀ g < (sys.pmm.freeFrame f).frameCount,
      (sys.pmm.freeFrame f).frameOwners g = 0 → (sys.pmm.freeFrame f).ram g = true
    rw [hready, hcount, hrams, howners]
    intro hrdy g hg hzero
    by_cases hgf : g = f
    · rw [hgf]
      exact hram (hgf ▸ hg)
    · rw [update_of_ne hgf] at hzero
      exact h.clean hrdy g hg hzero
  · show ∀ s t, _ → ∀ k (l : Link), _ → l.frame ≠ 0 ∧ (sys.pmm.freeFrame f).ram l.frame = true
    rw [hrams]
    exact h.tables
  · show ∀ s ∈ sys.live, (sys.pmm.freeFrame f).ram s = true
    rw [hrams]
    exact h.live

theorem sameRam_free (sys : Sys) (f : Nat) : SameRam sys (sys.free f) :=
  ⟨(Pmm.freeFrame_fields sys.pmm f).2.2, (Pmm.freeFrame_fields sys.pmm f).2.1⟩

theorem withTree {t : PageTree} (h : RamOnly sys) (ht : t.Wf)
    (htables : ∀ k l, t.tables.get k = some l → l.frame ≠ 0 ∧ sys.pmm.ram l.frame = true) :
    RamOnly (sys.withTree s t) where
  sound := h.sound.withTree s ht
  clean := h.clean
  tables := by
    intro s' t' hs'
    by_cases hss : s' = s
    · subst hss
      rw [Sys.withTree_spaces_self] at hs'
      cases hs'
      exact htables
    · rw [Sys.withTree_spaces_ne _ _ hss] at hs'
      exact h.tables s' t' hs'
  live := h.live
  zero := h.zero

theorem withUpper (h : RamOnly sys) (t : PageTree) : RamOnly { sys with upper := t } :=
  ⟨h.sound.withUpper t, h.clean, h.tables, h.live, h.zero⟩

theorem withMem (h : RamOnly sys) (mem : Nat → Mem) : RamOnly { sys with mem := mem } :=
  ⟨⟨h.sound.wf, h.sound.ground, h.sound.trees⟩, h.clean, h.tables, h.live, h.zero⟩

theorem setTree_missing (hv : v < LOW_PAGES) (hs : sys.spaces s = none) (t : PageTree) :
    sys.setTree s v t = sys := by rw [Sys.setTree, if_pos hv, hs]

theorem setTable (h : RamOnly sys) {k : Nat × Nat} {l : Link} (h0 : l.frame ≠ 0)
    (hram : sys.pmm.ram l.frame = true) :
    RamOnly (sys.setTree s v { sys.tree s v with tables := (sys.tree s v).tables.set k l }) := by
  by_cases hv : v < LOW_PAGES
  · cases hs : sys.spaces s with
    | none =>
      rw [setTree_missing hv hs]
      exact h
    | some t =>
      rw [Sys.setTree_of_space hv hs, Sys.tree_of_space hv hs]
      refine h.withTree ((h.sound.trees s t hs).setTable k l) fun k' l' hl' => ?_
      change update t.tables.get k (some l) k' = some l' at hl'
      by_cases hk : k' = k
      · rw [hk, update_self] at hl'
        cases hl'
        exact ⟨h0, hram⟩
      · rw [update_of_ne hk] at hl'
        exact h.tables s t hs k' l' hl'
  · rw [Sys.setTree, if_neg hv]
    exact h.withUpper _

theorem sameRam_setTree (sys : Sys) (s v : Nat) (t : PageTree) : SameRam sys (sys.setTree s v t) := by
  rw [Sys.setTree]
  split
  · split <;> exact ⟨rfl, rfl⟩
  · exact ⟨rfl, rfl⟩

theorem setPte {t : PageTree} (h : RamOnly sys) (hv : v < LOW_PAGES) (hs : sys.spaces s = some t)
    (hopen : t.Open v) (e : Pte) : RamOnly (sys.setPte s v e) := by
  rw [Sys.setPte_low hv hs]
  exact h.withTree ((h.sound.trees s t hs).setPage hv hopen e) (h.tables s t hs)

theorem clearPte (h : RamOnly sys) (s v : Nat) : RamOnly (sys.clearPte s v) := by
  by_cases hv : v < LOW_PAGES
  · cases hs : sys.spaces s with
    | none =>
      rw [Sys.clearPte, setTree_missing hv hs]
      exact h
    | some t =>
      rw [Sys.clearPte_low hv hs]
      exact h.withTree ((h.sound.trees s t hs).erasePage v) (h.tables s t hs)
  · rw [Sys.clearPte, Sys.setTree, if_neg hv]
    exact h.withUpper _

/-! ### Mapping -/

theorem tabled (h : RamOnly sys) (hstep : Tabled s v sys sys') : RamOnly sys' ∧ SameRam sys sys' := by
  cases hstep with
  | refused _ htook => exact ⟨h.took htook, sameRam_took htook⟩
  | widened lvl l l' hl hframe =>
    refine ⟨?_, sameRam_setTree ..⟩
    by_cases hv : v < LOW_PAGES
    · cases hs : sys.spaces s with
      | none =>
        rw [setTree_missing hv hs]
        exact h
      | some t =>
        rw [Sys.tree_of_space hv hs] at hl
        obtain ⟨h0, hram⟩ := h.tables s t hs _ l hl
        exact h.setTable (by rwa [hframe]) (by rwa [hframe])
    · rw [Sys.setTree, if_neg hv]
      exact h.withUpper _
  | made lvl f sys₁ l hnone htook hf hframe =>
    have hram := h.fresh htook hf
    rw [← htook.pmm.ram] at hram
    rw [← htook.tree s v]
    exact ⟨(h.took htook).setTable (by rwa [hframe]) (by rwa [hframe]),
      (sameRam_took htook).trans (sameRam_setTree ..)⟩

theorem tablesMade (h : RamOnly sys) (hsteps : Tables s v sys sys') : RamOnly sys' ∧ SameRam sys sys' :=
  hsteps.keep (I := fun sys' => RamOnly sys' ∧ SameRam sys sys')
    (fun _ _ hI hone => ⟨(hI.1.tabled hone).1, hI.2.trans (hI.1.tabled hone).2⟩) ⟨h, .refl sys⟩

theorem ensureTable_missing (h : RamOnly sys) (hv : v < LOW_PAGES) (hs : sys.spaces s = none)
    (lvl flags : Nat) :
    (RamOnly (ensureTable sys s v lvl flags).2 ∧ SameRam sys (ensureTable sys s v lvl flags).2) ∧
      (ensureTable sys s v lvl flags).2.spaces s = none := by
  have htook := Sys.allocFrame_took h.sound.wf
  have hafter : sys.allocFrame.2.spaces s = none := by rw [htook.spaces, hs]
  unfold ensureTable
  rw [Sys.tree_low hv, hs]
  simp only [Option.getD_none, PageTree.empty, Table.get_empty]
  split
  · exact ⟨⟨h.took htook, sameRam_took htook⟩, hafter⟩
  · rw [setTree_missing hv hafter]
    exact ⟨⟨h.took htook, sameRam_took htook⟩, hafter⟩

theorem pagingMap_missing (h : RamOnly sys) (hv : v < LOW_PAGES) (hs : sys.spaces s = none)
    (frame flags : Nat) :
    RamOnly (pagingMap sys s v frame flags).2 ∧ SameRam sys (pagingMap sys s v frame flags).2 := by
  unfold pagingMap
  have h0 := h.ensureTable_missing hv hs 0 flags
  rcases hm0 : ensureTable sys s v 0 flags with ⟨ok0, sys0⟩
  rw [hm0] at h0
  obtain ⟨⟨hram0, hsame0⟩, hs0⟩ := h0
  cases ok0 with
  | false => exact ⟨hram0, hsame0⟩
  | true =>
    simp only
    split
    · exact ⟨hram0, hsame0⟩
    · have h1 := hram0.ensureTable_missing hv hs0 1 flags
      rcases hm1 : ensureTable sys0 s v 1 flags with ⟨ok1, sys1⟩
      rw [hm1] at h1
      obtain ⟨⟨hram1, hsame1⟩, hs1⟩ := h1
      cases ok1 with
      | false => exact ⟨hram1, hsame0.trans hsame1⟩
      | true =>
        simp only
        split
        · exact ⟨hram1, hsame0.trans hsame1⟩
        · have h2 := hram1.ensureTable_missing hv hs1 2 flags
          rcases hm2 : ensureTable sys1 s v 2 flags with ⟨ok2, sys2⟩
          rw [hm2] at h2
          obtain ⟨⟨hram2, hsame2⟩, hs2⟩ := h2
          have hsame := (hsame0.trans hsame1).trans hsame2
          cases ok2 with
          | false => exact ⟨hram2, hsame⟩
          | true =>
            simp only
            rw [Sys.setPte, setTree_missing hv hs2]
            exact ⟨hram2, hsame⟩

theorem pagingMap (h : RamOnly sys) (hv : v < LOW_PAGES) (frame flags : Nat) :
    RamOnly (pagingMap sys s v frame flags).2 ∧ SameRam sys (pagingMap sys s v frame flags).2 := by
  cases hs : sys.spaces s with
  | none => exact h.pagingMap_missing hv hs frame flags
  | some t =>
    obtain ⟨sys₁, hroom, hres⟩ := pagingMap_spec h.sound (fun _ => ⟨t, hs⟩) frame flags
    obtain ⟨hram, hsame⟩ := h.tablesMade hroom.tables
    rw [hres]
    split
    · rename_i hok
      obtain ⟨t₁, hs₁, hopen⟩ := (hok ▸ hroom).space hv
      exact ⟨hram.setPte hv hs₁ hopen _, hsame.trans (sameRam_setTree ..)⟩
    · exact ⟨hram, hsame⟩

/-! ### Taking pages away -/

theorem pagingUnmap (h : RamOnly sys) (s v : Nat) :
    RamOnly (pagingUnmap sys s v) ∧ SameRam sys (pagingUnmap sys s v) := by
  unfold Uspace64.pagingUnmap
  split
  · exact ⟨h.clearPte s v, sameRam_setTree ..⟩
  · exact ⟨h, .refl sys⟩

theorem unmapPage (h : RamOnly sys) {va : Nat} (hmap : ∀ f, pagingTranslate sys s (pageOf va) = some f →
    f < sys.pmm.frameCount → f = sys.zero ∨ sys.pmm.ram f = true) :
    RamOnly (unmapPage s sys va) ∧ SameRam sys (unmapPage s sys va) := by
  unfold Uspace64.unmapPage
  cases hf : pagingTranslate sys s (pageOf va) with
  | none => exact ⟨h, .refl sys⟩
  | some f =>
    obtain ⟨hram, hsame⟩ := h.pagingUnmap s (pageOf va)
    simp only
    split
    · exact ⟨hram, hsame⟩
    · rename_i hz
      have hz : f ≠ 0 := by
        simp only [Sys.isZero, hram.zero, beq_iff_eq] at hz
        exact hz
      refine ⟨hram.free hz fun hlt => ?_, hsame.trans (sameRam_free _ f)⟩
      rw [hsame.frameCount] at hlt
      rw [hsame.ram]
      exact (hmap f hf hlt).resolve_left (by rwa [h.zero])

end RamOnly

/-- Less is mapped than before, for the space that is loaded. -/
def Shrunk (s : Nat) (sys sys' : Sys) : Prop :=
  ∀ v f, pagingTranslate sys' s v = some f → pagingTranslate sys s v = some f

variable {f s start stop : Nat}

theorem PageTree.look_erase (t : PageTree) (v w : Nat)
    (h : (({ t with pages := t.pages.erase v } : PageTree).look w).frame = some f) :
    (t.look w).frame = some f := by
  unfold look at h ⊢
  cases h0 : t.tables.get (tableKey 0 w) with
  | none => simpa [h0] using h
  | some l0 =>
    simp only [h0] at h ⊢
    cases h1 : t.huge (tableKey 1 w) with
    | some g => simpa [h1] using h
    | none =>
      simp only [h1] at h ⊢
      cases h2 : t.tables.get (tableKey 1 w) with
      | none => simpa [h2] using h
      | some l1 =>
        simp only [h2] at h ⊢
        cases h3 : t.huge (tableKey 2 w) with
        | some g => simpa [h3] using h
        | none =>
          simp only [h3] at h ⊢
          cases h4 : t.tables.get (tableKey 2 w) with
          | none => simpa [h4] using h
          | some l2 =>
            simp only [h4, Table.get_erase] at h ⊢
            by_cases hw : w = v
            · rw [hw, update_self] at h
              simp [Slot.frame] at h
            · rwa [update_of_ne hw] at h

theorem clearPte_shrunk (sys : Sys) (s v : Nat) : Shrunk s sys (sys.clearPte s v) := by
  intro w f h
  rw [pagingTranslate, Sys.look] at h ⊢
  by_cases hv : v < LOW_PAGES
  · cases hs : sys.spaces s with
    | none => rwa [Sys.clearPte, RamOnly.setTree_missing hv hs] at h
    | some t =>
      rw [Sys.clearPte_low hv hs] at h
      by_cases hw : w < LOW_PAGES
      · rw [Sys.tree_of_space hw (Sys.withTree_spaces_self ..)] at h
        rw [Sys.tree_of_space hw hs]
        exact t.look_erase v w h
      · rw [Sys.tree, if_neg hw] at h ⊢
        exact h
  · rw [Sys.clearPte, Sys.setTree, if_neg hv] at h
    by_cases hw : w < LOW_PAGES
    · rw [Sys.tree, if_pos hw] at h ⊢
      exact h
    · have hupper : sys.tree s v = sys.upper := by rw [Sys.tree, if_neg hv]
      rw [hupper, Sys.tree, if_neg hw] at h
      rw [Sys.tree, if_neg hw]
      exact sys.upper.look_erase v w h

theorem unmapPage_shrunk (sys : Sys) (s va : Nat) : Shrunk s sys (unmapPage s sys va) := by
  unfold unmapPage
  intro w f h
  split at h
  · exact h
  · simp only at h
    have hclear : pagingTranslate (pagingUnmap sys s (pageOf va)) s w = some f := by
      split at h <;> exact h
    unfold pagingUnmap at hclear
    split at hclear
    · exact clearPte_shrunk sys s _ w f hclear
    · exact hclear

/-- What the allocator would take for memory, of the pages a walk comes by,
is memory. -/
def NoHole (sys : Sys) (s start stop : Nat) : Prop :=
  ∀ va, Passed start stop va → ∀ f, pagingTranslate sys s (pageOf va) = some f →
    f < sys.pmm.frameCount → f = sys.zero ∨ sys.pmm.ram f = true

theorem NoHole.congr {sys' : Sys} (h : NoHole sys s start stop)
    (hsame : SameRam sys sys') (hzero : sys'.zero = sys.zero) (hless : Shrunk s sys sys') :
    NoHole sys' s start stop := by
  intro va hva f hf hlt
  rw [hsame.frameCount] at hlt
  rw [hsame.ram, hzero]
  exact h va hva f (hless _ _ hf) hlt

theorem RamOnly.unmapPages (h : RamOnly sys)
    (hok : NoHole sys s start stop) : RamOnly (unmapPages sys s start stop) := by
  refine (overMapped_keep (I := fun sys' => RamOnly sys' ∧ NoHole sys' s start stop)
    (fun sys' va hI hva _ => ?_) ⟨h, hok⟩).1
  obtain ⟨hram, hsame⟩ := hI.1.unmapPage (hI.2 va hva)
  exact ⟨hram, hI.2.congr hsame (by rw [hram.zero, hI.1.zero]) (unmapPage_shrunk sys' s va)⟩

theorem resvRemove_nil (bound : Option Nat) (start stop : Nat) :
    resvRemove bound [] start stop = ([], none) := rfl

theorem RamOnly.munmap {p : Proc} {addr length : Nat} (h : RamOnly sys) (hr : p.resv = [])
    (hok : length ≠ 0 → NoHole sys p.space (pageDown addr) (wrap (pageDown addr + pageUp length)))
    (bound : Option Nat) :
    RamOnly (munmap bound sys p addr length).2.1 ∧ (munmap bound sys p addr length).2.2.resv = [] := by
  unfold Uspace64.munmap
  split
  · exact ⟨h, hr⟩
  · rename_i hlen
    simp only [dropResv, hr, resvRemove_nil]
    exact ⟨h.unmapPages (hok hlen), trivial⟩

/-! ### Devices -/

theorem RamOnly.mapPhysLoop (s frame flags : Nat) (hstop : stop ≤ USPACE64_LIMIT) :
    ∀ (n i : Nat) (sys : Sys), (∀ j < i + n, start + j * PAGE64_SIZE < stop) → RamOnly sys →
      RamOnly (mapPhysLoop s start frame flags n i sys).2 := by
  intro n
  induction n with
  | zero => intro i sys _ h; exact h
  | succ n ih =>
    intro i sys hrange h
    rw [Uspace64.mapPhysLoop]
    have hlow : pageOf (start + i * PAGE64_SIZE) < LOW_PAGES :=
      pageOf_low (Nat.lt_of_lt_of_le (hrange i (by omega)) hstop)
    have hmap := (h.pagingMap (s := s) hlow ((frame + i) % 1099511627776) flags).1
    rcases hm : Uspace64.pagingMap sys s (pageOf (start + i * PAGE64_SIZE))
        ((frame + i) % 1099511627776) flags with ⟨ok, sys'⟩
    rw [hm] at hmap
    cases ok with
    | false =>
      refine List.foldlRecOn (motive := RamOnly) _ _ hmap fun sys'' h'' j _ => ?_
      exact (h''.pagingUnmap s _).1
    | true => exact ih (i + 1) sys' (fun j hj => hrange j (by omega)) hmap

theorem RamOnly.mapPhys {p : Proc} (h : RamOnly sys) (hr : p.resv = [])
    (length phys prot : Nat) :
    RamOnly (mapPhys sys p length phys prot).2.1 ∧ (mapPhys sys p length phys prot).2.2.resv = [] := by
  unfold Uspace64.mapPhys
  split
  · exact ⟨h, hr⟩
  · simp only
    split
    · exact ⟨h, hr⟩
    · split
      · exact ⟨h, hr⟩
      · rename_i hplace
        have hfits := fitsInUserHalf_iff.mp (findFreeLoop_found _ _ hplace).1
        have hrange : ∀ j < 0 + pageUp length / PAGE64_SIZE,
            findFree sys p (pageUp length) + j * PAGE64_SIZE <
              findFree sys p (pageUp length) + pageUp length := by
          intro j hj
          simp only [PAGE64_SIZE] at *
          omega
        have hloop := RamOnly.mapPhysLoop p.space (phys / PAGE64_SIZE)
          (protFlags prot ||| PAGE64_PCD ||| PAGE64_PWT) hfits.2 _ 0 sys hrange h
        split
        · rename_i hres
          exact ⟨by rwa [hres] at hloop, hr⟩
        · rename_i hres
          refine ⟨by rwa [hres] at hloop, ?_⟩
          unfold bumpPast
          split <;> exact hr

/-! ### Spaces -/

theorem mem_liveAdd {live : List Nat} (h : s ∈ liveAdd live f) : s = f ∨ s ∈ live := by
  unfold liveAdd at h
  split at h
  · rcases List.mem_append.mp h with h | h
    · exact Or.inr h
    · exact Or.inl (List.mem_singleton.mp h)
  · exact Or.inr h

namespace RamOnly

variable {sys sys' : Sys} {s v f : Nat}

theorem createSpace (h : RamOnly sys) (loaded : Nat) : RamOnly (createSpace sys loaded).2 := by
  have hmade := createSpace_cases h.sound loaded
  rcases hc : Uspace64.createSpace sys loaded with ⟨space, sys'⟩
  rw [hc] at hmade
  show RamOnly sys'
  cases hmade with
  | refused htook => exact h.took htook
  | noRoom htook hf htables _ =>
    obtain ⟨hram, hsame⟩ := (h.took htook).tablesMade htables
    refine hram.free hf fun _ => ?_
    rw [hsame.ram, htook.pmm.ram]
    exact h.fresh htook hf
  | @made sys₁ sys₂ _ _ t htook hf htables _ =>
    obtain ⟨hram, hsame⟩ := (h.took htook).tablesMade htables
    have hroot : sys₂.pmm.ram space = true := by
      rw [hsame.ram, htook.pmm.ram]
      exact h.fresh htook hf
    have hnew := hram.withTree (s := space) PageTree.empty_wf fun k l hl => absurd hl (by simp [PageTree.empty])
    refine ⟨⟨hnew.sound.wf, hnew.sound.ground, hnew.sound.trees⟩, hnew.clean, hnew.tables, fun s hs => ?_,
      hnew.zero⟩
    rcases mem_liveAdd hs with rfl | hs
    · exact hroot
    · exact hram.live s hs

theorem rewrite {e : Pte} (h : RamOnly sys) (he : sys.entry s v = some e) (e' : Pte) :
    RamOnly (sys.setPte s v e') := by
  obtain ⟨t, hs, hp⟩ := Sys.space_of_entry he
  exact h.setPte ((h.sound.trees s t hs).low v e hp) hs ((h.sound.trees s t hs).rooted v e hp) e'

end RamOnly

theorem Sys.setPte_open {v d w : Nat} {t : PageTree} (hs : sys.spaces d = some t)
    (hopen : t.Open w) (e : Pte) : ∃ t', (sys.setPte s v e).spaces d = some t' ∧ t'.Open w := by
  rw [Sys.setPte, Sys.setTree]
  split
  · rename_i hv
    split
    · exact ⟨t, hs, hopen⟩
    · rename_i t₀ hs₀
      by_cases hd : d = s
      · subst hd
        rw [hs] at hs₀
        cases hs₀
        refine ⟨_, update_self .., ?_⟩
        rw [Sys.tree_of_space hv hs]
        exact hopen
      · exact ⟨t, by rw [← hs]; exact update_of_ne hd .., hopen⟩
  · exact ⟨t, hs, hopen⟩

namespace RamOnly

variable {sys sys' : Sys} {src dst v : Nat}

theorem pageCloned {ok : Bool} (h : RamOnly sys) (hv : v < LOW_PAGES) (hdst : sys.spaces dst ≠ none)
    (hc : PageCloned src dst v sys ok sys') : RamOnly sys' ∧ sys'.spaces dst ≠ none := by
  obtain ⟨t, ht⟩ := Option.ne_none_iff_exists'.mp hdst
  have hreal : sys.Real dst v := fun _ => ⟨t, ht⟩
  have hroomed : ∀ {ok : Bool} {sys₁ : Sys}, Roomed dst v sys ok sys₁ →
      RamOnly sys₁ ∧ sys₁.spaces dst ≠ none ∧ ∀ e, sys.entry src v = some e → sys₁.entry src v = some e := by
    intro ok sys₁ hroom
    have hcalm := hroom.tables.calm h.sound hreal
    exact ⟨(h.tablesMade hroom.tables).1, fun hnone => hdst ((hcalm.here dst).mp hnone),
      fun e he => by rw [hcalm.entry, he]⟩
  have hput : ∀ {sys₁ : Sys} {t₁ : PageTree}, RamOnly sys₁ → sys₁.spaces dst = some t₁ → t₁.Open v →
      ∀ e, RamOnly (sys₁.setPte dst v e) ∧ (sys₁.setPte dst v e).spaces dst ≠ none := by
    intro sys₁ t₁ hram hs₁ hopen e
    refine ⟨hram.setPte hv hs₁ hopen e, fun hnone => ?_⟩
    rw [Sys.setPte_here, hs₁] at hnone
    cases hnone
  cases hc with
  | absent => exact ⟨h, hdst⟩
  | noRoom he hroom => exact ⟨(hroomed hroom).1, (hroomed hroom).2.1⟩
  | plain he hroom _ =>
    obtain ⟨t₁, hs₁, hopen⟩ := hroom.space hv
    exact hput (hroomed hroom).1 hs₁ hopen _
  | shared he hroom _ _ _ href =>
    obtain ⟨t₁, hs₁, hopen⟩ := hroom.space hv
    exact hput ((hroomed hroom).1.ref href) hs₁ hopen _
  | @counted e sys₁ pmm he hroom _ _ _ href =>
    obtain ⟨t₁, hs₁, hopen⟩ := hroom.space hv
    have hsrc := (hroomed hroom).2.2 _ he
    have hs₁ : ({ sys₁ with pmm := pmm } : Sys).spaces dst = some t₁ := hs₁
    obtain ⟨t₂, hs₂, hopen₂⟩ := Sys.setPte_open hs₁ hopen _
    exact hput (((hroomed hroom).1.ref href).rewrite hsrc _) hs₂ hopen₂ _
  | refused he hroom _ _ _ htook =>
    exact ⟨(hroomed hroom).1.took htook, by rw [htook.spaces]; exact (hroomed hroom).2.1⟩
  | @copied e sys₁ sys₂ f he hroom _ _ _ htook hf =>
    obtain ⟨t₁, hs₁, hopen⟩ := hroom.space hv
    have hcopied : RamOnly (sys₂.copyFrame f e.frame) := ((hroomed hroom).1.took htook).withMem _
    rw [← htook.spaces] at hs₁
    exact hput hcopied hs₁ hopen _

theorem clonePages (src : Nat) {dst : Nat} : ∀ (vs : List Nat) (sys : Sys), (∀ v ∈ vs, v < LOW_PAGES) →
    RamOnly sys → sys.spaces dst ≠ none → RamOnly (clonePages src dst vs sys).2 := by
  intro vs
  induction vs with
  | nil => intro sys _ h _; exact h
  | cons v vs ih =>
    intro sys hlow h hdst
    obtain ⟨t, ht⟩ := Option.ne_none_iff_exists'.mp hdst
    have hv := hlow v (List.mem_cons_self ..)
    have hpage := h.pageCloned hv hdst (clonePage_cases src h.sound hv fun _ => ⟨t, ht⟩)
    rw [Uspace64.clonePages]
    rcases hc : clonePage src dst sys v with ⟨ok, sys'⟩
    rw [hc] at hpage
    cases ok with
    | false => exact hpage.1
    | true => exact ih sys' (fun w hw => hlow w (List.mem_cons_of_mem _ hw)) hpage.1 hpage.2

theorem cloneCow (h : RamOnly sys) (src : Nat) (hdst : sys.spaces dst ≠ none) :
    RamOnly (cloneCow sys src dst).2 :=
   RamOnly.clonePages src _ sys (fun _ hv => sourcePages_low h.sound hv) h hdst

theorem freeAll (fs : List Nat) : ∀ {sys : Sys}, RamOnly sys →
    (∀ f ∈ fs, f ≠ 0 ∧ (f < sys.pmm.frameCount → sys.pmm.ram f = true)) →
    RamOnly { sys with pmm := fs.foldl Pmm.freeFrame sys.pmm } := by
  induction fs with
  | nil => intro sys h _; exact h
  | cons f fs ih =>
    intro sys h hall
    obtain ⟨h0, hram⟩ := hall f (List.mem_cons_self ..)
    refine ih (h.free h0 hram) fun g hg => ?_
    rw [(sameRam_free sys f).frameCount, (sameRam_free sys f).ram]
    exact hall g (List.mem_cons_of_mem _ hg)

/-- A space is destroyed whose pages are memory, or nothing to the
allocator. -/
theorem destroySpace (h : RamOnly sys) (loaded : Nat) {pml4 : Nat}
    (hpages : pml4 ∈ sys.live → ∀ v e, sys.entry pml4 v = some e → e.frame < sys.pmm.frameCount →
      e.frame = sys.zero ∨ sys.pmm.ram e.frame = true) : RamOnly (destroySpace sys loaded pml4) := by
  rcases destroySpace_cases sys loaded pml4 with ⟨hsame, -⟩ | ⟨live, h0, -, hperm, hres⟩
  · rw [hsame]
    exact h
  · rw [hres]
    have hlive : pml4 ∈ sys.live := hperm.mem_iff.mpr (List.mem_cons_self ..)
    have hfreed : ∀ f ∈ ((sys.spaces pml4).getD PageTree.empty).freed sys ++ [pml4],
        f ≠ 0 ∧ (f < sys.pmm.frameCount → sys.pmm.ram f = true) := by
      intro f hf
      rcases List.mem_append.mp hf with hf | hf
      · cases hs : sys.spaces pml4 with
        | none =>
          rw [hs] at hf
          exact absurd hf (by simp [PageTree.freed, PageTree.empty, Table.empty])
        | some t =>
          rw [hs, Option.getD_some, PageTree.freed] at hf
          rcases List.mem_append.mp hf with hf | hf
          · obtain ⟨v, -, hv⟩ := List.mem_filterMap.mp hf
            obtain ⟨e, he, hholds⟩ := Option.bind_eq_some_iff.mp hv
            rw [Sys.holds] at hholds
            split at hholds
            · cases hholds
            · rename_i hz
              cases hholds
              refine ⟨by rwa [h.zero] at hz, fun hlt => ?_⟩
              exact (hpages hlive v e (by rw [Sys.entry_of_space hs, he]) hlt).resolve_left hz
          · obtain ⟨k, -, hk⟩ := List.mem_filterMap.mp hf
            obtain ⟨l, hl, rfl⟩ := Option.map_eq_some_iff.mp hk
            exact ⟨(h.tables pml4 t hs k l hl).1, fun _ => (h.tables pml4 t hs k l hl).2⟩
      · rw [List.mem_singleton.mp hf]
        exact ⟨h0, fun _ => h.live pml4 hlive⟩
    have hafter := h.freeAll _ hfreed
    refine ⟨⟨hafter.sound.wf, hafter.sound.ground, fun s t hs => ?_⟩, hafter.clean, fun s t hs => ?_,
      fun s hs => hafter.live s (hperm.mem_iff.mpr (List.mem_cons_of_mem _ hs)), hafter.zero⟩
    · by_cases hss : s = pml4
      · rw [hss] at hs
        exact absurd hs (by simp)
      · exact hafter.sound.trees s t (by rw [← hs]; exact (update_of_ne hss ..).symm)
    · by_cases hss : s = pml4
      · rw [hss] at hs
        exact absurd hs (by simp)
      · exact hafter.tables s t (by rw [← hs]; exact (update_of_ne hss ..).symm)

end RamOnly

/-! ## §3 Runs -/

/-- The processes hold devices only, and only memory is free. -/
structure Kernel.RamOnly (k : Kernel) : Prop where
  sys : Uspace64.RamOnly k.sys
  procs : ∀ n p, k.procs n = some p → p.resv = []

/-- The operation does not tear down an entry that maps a hole: the walk of
`munmap` comes by none, and the space destroyed has none. -/
def DeviceOp.Harmless (k : Kernel) : DeviceOp → Prop
  | .munmap n addr length => ∀ p, k.procs n = some p → length ≠ 0 →
      NoHole k.sys p.space (pageDown addr) (wrap (pageDown addr + pageUp length))
  | .destroy n => ∀ p, k.procs n = some p → p.space ∈ k.sys.live → ∀ v e,
      k.sys.entry p.space v = some e → e.frame < k.sys.pmm.frameCount →
      e.frame = k.sys.zero ∨ k.sys.pmm.ram e.frame = true
  | _ => True

/-- The frame allocator owns memory only: what is free to be handed out is
memory, and so is what any of its calls hands out. -/
def OwnsRam (sys : Sys) : Prop :=
  (sys.pmm.ready = true → ∀ f < sys.pmm.frameCount, sys.pmm.bitmapTest f = false →
    sys.pmm.owns f = true) ∧
  ∀ (c : FrameCall) (f : Nat), (c.run sys).1 = some f → f ≠ 0 → sys.pmm.owns f = true

theorem FrameCall.took (h : sys.pmm.Wf) {c : FrameCall}
    (hf : (c.run sys).1 = some f) : sys.Took f (c.run sys).2 := by
  cases c with
  | allocFrame =>
    cases hf
    exact Sys.allocFrame_took h
  | allocHigh =>
    cases hf
    exact Sys.allocHigh_took h
  | allocUser =>
    cases hf
    exact Sys.allocUser_took h
  | allocAbove minPhys =>
    cases hf
    exact ⟨Pmm.allocAbove_took h minPhys, rfl⟩
  | ref g =>
    rw [FrameCall.run] at hf
    split at hf <;> cases hf

theorem RamOnly.frameCall (h : RamOnly sys) (c : FrameCall) : RamOnly (c.run sys).2 := by
  cases hf : (c.run sys).1 with
  | some f => exact h.took (FrameCall.took h.sound.wf hf)
  | none =>
    cases c with
    | ref g =>
      rw [FrameCall.run]
      split
      · exact h
      · rename_i hr
        exact h.ref hr
    | _ => cases hf

theorem RamOnly.ownsRam (h : RamOnly sys) : OwnsRam sys := by
  refine ⟨fun hready f hlt hfree => ?_, fun c f hf h0 => ?_⟩
  · have hzero : sys.pmm.frameOwners f = 0 := by
      by_contra hne
      rw [(Pmm.bitmapTest_iff hready hlt).mpr (Nat.pos_of_ne_zero hne)] at hfree
      cases hfree
    simp [Pmm.owns, hready, hlt, h.clean hready f hlt hzero]
  · have htook := FrameCall.took h.sound.wf hf
    obtain ⟨hlt, -, hone⟩ := htook.pmm.fresh h0
    have hready : sys.pmm.ready = true := by
      rw [← htook.pmm.ready]
      exact (Pmm.lt_of_owned (f := f) (by omega)).1
    simp [Pmm.owns, hready, hlt, h.fresh htook h0]

namespace Kernel.RamOnly

variable {k : Kernel}

theorem setProc (h : k.RamOnly) {sys : Sys} (hsys : Uspace64.RamOnly sys) (n next : Nat) {p : Option Proc}
    (hp : ∀ q, p = some q → q.resv = []) :
    ({ k with sys := sys, procs := update k.procs n p, nextPid := next } : Kernel).RamOnly := by
  refine ⟨hsys, fun m q hq => ?_⟩
  change update k.procs n p m = some q at hq
  by_cases hm : m = n
  · rw [hm, update_self] at hq
    exact hp q hq
  · rw [update_of_ne hm] at hq
    exact h.procs m q hq

theorem spawn (h : k.RamOnly) (brkStart : Nat) : (k.spawn brkStart).1.RamOnly := by
  have hmade := h.sys.createSpace KERNEL_SPACE
  unfold Kernel.spawn
  simp only
  split
  · exact ⟨hmade, h.procs⟩
  · refine h.setProc hmade _ _ fun q hq => ?_
    cases hq
    rfl

theorem clone (h : k.RamOnly) {n : Nat} {p : Proc} (hp : k.procs n = some p) : (k.clone p).RamOnly := by
  have hmade := h.sys.createSpace p.space
  unfold Kernel.clone
  simp only
  split
  · exact ⟨hmade, h.procs⟩
  · rename_i h0
    have hhere : (createSpace k.sys p.space).2.spaces (createSpace k.sys p.space).1 ≠ none := by
      rcases (createSpace_cases h.sys.sound p.space).spec h.sys.sound with ⟨hzero, -⟩ | hc
      · exact absurd hzero h0
      · rw [hc.spaces, update_self]
        simp
    refine h.setProc (hmade.cloneCow p.space hhere) _ _ fun q hq => ?_
    cases hq
    exact h.procs n p hp

theorem step (h : k.RamOnly) (op : DeviceOp) (hop : op.Harmless k) : (devices.step k op).1.RamOnly := by
  show (op.run k).1.RamOnly
  cases op with
  | frame c => exact ⟨h.sys.frameCall c, h.procs⟩
  | spawn brkStart => exact h.spawn brkStart
  | clone n =>
    rw [DeviceOp.run]
    cases hp : k.procs n with
    | none => exact h
    | some p => exact h.clone hp
  | destroy n =>
    rw [DeviceOp.run]
    cases hp : k.procs n with
    | none => exact h
    | some p =>
      exact h.setProc (h.sys.destroySpace KERNEL_SPACE (hop p hp)) n _ fun q hq => absurd hq (by simp)
  | mapPhys n length phys prot =>
    rw [DeviceOp.run]
    cases hp : k.procs n with
    | none => exact h
    | some p =>
      obtain ⟨hsys, hresv⟩ := h.sys.mapPhys (h.procs n p hp) length phys prot
      refine h.setProc hsys n _ fun q hq => ?_
      cases hq
      exact hresv
  | munmap n addr length =>
    rw [DeviceOp.run]
    cases hp : k.procs n with
    | none => exact h
    | some p =>
      obtain ⟨hsys, hresv⟩ := h.sys.munmap (h.procs n p hp) (hop p hp) (some PROC64_RESV_MAX)
      refine h.setProc hsys n _ fun q hq => ?_
      cases hq
      exact hresv

theorem powerOn (mbi : Multiboot) (kernelStart kernelEnd : Nat) (mem : Nat → Mem) (upper : PageTree) :
    (Kernel.powerOn mbi kernelStart kernelEnd mem upper).RamOnly := by
  obtain ⟨hwf, hground, -, hclean⟩ := Pmm.init_spec mbi kernelStart kernelEnd
  refine ⟨⟨⟨hwf, hground, fun _ _ hs => absurd hs (by simp [Kernel.powerOn, Kernel.boot])⟩,
    fun hready f hlt hzero => hclean hready f hlt ?_, fun _ _ hs => absurd hs (by simp [Kernel.powerOn,
      Kernel.boot]), fun _ hs => absurd hs (List.not_mem_nil), rfl⟩, fun _ _ hp => absurd hp (by
      simp [Kernel.powerOn, Kernel.boot])⟩
  cases hb : Pmm.bitmapTest (Pmm.init mbi kernelStart kernelEnd) f with
  | false => rfl
  | true =>
    have hpos := (Pmm.bitmapTest_iff hready hlt).mp hb
    omega

end Kernel.RamOnly

/-- On every machine, in every run of the allocator's calls and of processes
that map devices, unmap, are cloned and destroyed, the allocator owns memory
only, as long as no entry is torn down that maps a hole below the end of the
bitmap. -/
theorem owns_ram_only (mbi : Multiboot) (kernelStart kernelEnd : Nat) (mem : Nat → Mem)
    (upper : PageTree) (ops : List DeviceOp)
    (hops : devices.Guarded DeviceOp.Harmless (Kernel.powerOn mbi kernelStart kernelEnd mem upper) ops) :
    OwnsRam (devices.run (Kernel.powerOn mbi kernelStart kernelEnd mem upper) ops).sys := by
  have hrun := devices.invariant_of_step (fun (k : Kernel) op (hk : k.RamOnly) hop => hk.step op hop) ops _
    (Kernel.RamOnly.powerOn mbi kernelStart kernelEnd mem upper) hops
  exact hrun.sys.ownsRam

/-- A machine with a hole in its memory, such as a device has. -/
def holedMachine : Multiboot where
  mmap := some [⟨0x100000, 0x40000, 1⟩, ⟨0x150000, 0x30000, 1⟩]
  memLower := 0
  memUpper := 0
  mods := none

/-- A process has mapped a page of a device past the end of the bitmap. -/
def mappedPast : Kernel :=
  devices.run (Kernel.powerOn holedMachine 0x100000 0x102000 (fun _ _ => 0) PageTree.empty)
    [.spawn 0x400000, .mapPhys 1 0x1000 0xFD000000 3]

set_option maxRecDepth 20000

theorem mappedPast_page :
    (mappedPast.procs 1).all (fun p =>
      pagingTranslate mappedPast.sys p.space (pageOf USPACE64_MMAP_BASE) == some 0xFD000) = true ∧
      mappedPast.sys.pmm.frameCount = 0x180 := by decide

/-- A device past the end of the bitmap is mapped and unmapped. -/
theorem owns_ram_only_past :
    OwnsRam (devices.run (Kernel.powerOn holedMachine 0x100000 0x102000 (fun _ _ => 0) PageTree.empty)
      [.spawn 0x400000, .mapPhys 1 0x1000 0xFD000000 3, .munmap 1 USPACE64_MMAP_BASE 0x1000]).sys := by
  refine owns_ram_only holedMachine 0x100000 0x102000 _ _ _ ⟨trivial, trivial, ?_, trivial⟩
  change DeviceOp.Harmless mappedPast _
  intro p hp hlen va hva f hf hlt
  have hpage : pageOf va = pageOf USPACE64_MMAP_BASE := by
    obtain ⟨hstop, hstart | htop⟩ := hva
    · have hstop : va < 0x100000001000 := hstop
      have hstart : 0x100000000000 ≤ va := hstart
      simp only [pageOf, PAGE64_SIZE, USPACE64_MMAP_BASE]
      omega
    · exact absurd htop (by decide)
  obtain ⟨hmapped, hcount⟩ := mappedPast_page
  rw [hp, Option.all_some, ← hpage, hf] at hmapped
  simp only [beq_iff_eq, Option.some.injEq] at hmapped
  omega

/-- One page of the hole is mapped and unmapped: the allocator takes it for
memory, and hands it out. -/
theorem hole_handed_out :
    ¬ ∀ ops : List DeviceOp,
      OwnsRam (devices.run (Kernel.powerOn holedMachine 0x100000 0x102000 (fun _ _ => 0) PageTree.empty) ops).sys := by
  intro h
  have hbad := (h [.spawn 0x400000, .mapPhys 1 0x1000 0x148000 3, .munmap 1 USPACE64_MMAP_BASE 0x1000]).1
    (by decide) 0x148 (by decide) (by decide)
  exact absurd hbad (by decide)

end NovarisOS.Uspace64
