/-
NovarisOS.Kheap32.HeapTheorems — the 32-bit kernel's heap hands out no byte
twice.

`heap_exclusive`: in every run whose requests stay below the sizes that wrap,
from a heap that got its first sixteen pages, the blocks tile the mapped heap
and what is outstanding lies in blocks of its own.

`Sound h L` is the invariant of the heap, `Outstanding` that of the clients.
-/
import NovarisOS.Kheap32.Heap
import NovarisOS.Lib.Machine

namespace NovarisOS.Kheap32

open Mem BlockList BlockList.HeaderFormat

/-! ## Growing -/

theorem heap_expand_le {new_end : Nat} (haligned : new_end % PAGE_SIZE = 0) (hlimit : new_end < WORD) (frames : Nat) :
    ∀ {heap_end : Nat}, heap_end % PAGE_SIZE = 0 → heap_end ≤ heap_expand new_end frames heap_end ∧
      heap_expand new_end frames heap_end % PAGE_SIZE = 0 ∧
      (heap_expand new_end frames heap_end = heap_end ∨ heap_expand new_end frames heap_end ≤ new_end) := by
  induction frames with
  | zero => exact fun h => ⟨Nat.le_refl _, h, Or.inl rfl⟩
  | succ frames ih =>
    intro heap_end h
    unfold heap_expand
    split
    · next hlt =>
      have hnext : heap_end + PAGE_SIZE ≤ new_end := by
        simp only [PAGE_SIZE] at *
        omega
      rw [Nat.mod_eq_of_lt (Nat.lt_of_le_of_lt hnext hlimit)]
      obtain ⟨hle, hmod, hend⟩ := @ih (heap_end + PAGE_SIZE) (by simpa using h)
      refine ⟨by omega, hmod, Or.inr ?_⟩
      rcases hend with hend | hend
      · rwa [hend]
      · exact hend
    · exact ⟨Nat.le_refl _, h, Or.inl rfl⟩

theorem heap_expand_enough {new_end : Nat} (hlimit : new_end < WORD) (k : Nat) :
    ∀ {frames heap_end : Nat}, heap_end + k * PAGE_SIZE = new_end → k ≤ frames →
      heap_expand new_end frames heap_end = new_end := by
  induction k with
  | zero =>
    intro frames heap_end h _
    cases frames with
    | zero => simpa [heap_expand] using h
    | succ frames => rw [heap_expand, if_neg (by omega)]; omega
  | succ k ih =>
    intro frames heap_end h hk
    cases frames with
    | zero => omega
    | succ frames =>
      rw [heap_expand, if_pos (by simp only [PAGE_SIZE] at *; omega),
          Nat.mod_eq_of_lt (by simp only [PAGE_SIZE] at *; omega)]
      exact ih (by simp only [PAGE_SIZE] at *; omega) (by omega)

/-! ## The heap -/

/-- The list of the blocks tiles the mapped heap. -/
structure Sound (h : Kheap) (L : List BlockList.Block) : Prop where
  seg : block_header.Seg h.mem L 0
  head : h.heap_head = BlockList.Block.start L 0
  tiles : block_header.Tiles HEAP_START L h.heap_end
  aligned : h.heap_end % PAGE_SIZE = 0
  top : h.heap_end ≤ HEAP_START + HEAP_MAX_SIZE

/-- The heap `h` with the blocks `L` became `h'` with `L'`, where the blocks
with `taken` are the taken ones. -/
structure Keeps (h : Kheap) (L : List BlockList.Block) (h' : Kheap) (L' : List BlockList.Block)
    (taken : BlockList.Block → Prop) : Prop where
  sound : Sound h' L'
  busy : ∀ x : BlockList.Block, x.used = true → (x ∈ L' ↔ taken x)
  kept : ∀ i < h.heap_end, block_header.Theirs L i → h'.mem i = h.mem i

section Heap

variable {h h' : Kheap} {L L' : List BlockList.Block} {b c : BlockList.Block} {frames size n e : Nat} {r : Kheap × Nat}

theorem Sound.spaced (hs : Sound h L) : block_header.Spaced HEAP_START L h.heap_end := hs.tiles.spaced Gap.eq.le

theorem Sound.length_le (hs : Sound h L) : L.length ≤ WORD := by
  have hlen := hs.spaced.length_le
  have htop := hs.top
  simp only [HEAP_START, HEAP_MAX_SIZE, WORD] at *
  omega

theorem Sound.ne_zero (hs : Sound h L) : ∀ b ∈ L, b.addr ≠ 0 := fun b hb => by
  have := (hs.spaced.bounds.2 b hb).1
  simp only [HEAP_START] at this
  omega

theorem Sound.refl (hs : Sound h L) : Keeps h L h L (· ∈ L) := ⟨hs, fun _ _ => Iff.rfl, fun _ _ _ => rfl⟩

theorem Sound.start {m : Mem} {head : Nat} (hframes : 16 ≤ frames) :
    Sound (kheap_init frames ⟨m, HEAP_START, head⟩) [⟨HEAP_START, HEAP_INITIAL_SIZE - HEADER_SIZE, false⟩] := by
  have hend : heap_expand (HEAP_START + HEAP_INITIAL_SIZE) frames HEAP_START = HEAP_START + HEAP_INITIAL_SIZE :=
    heap_expand_enough (by decide) 16 rfl hframes
  refine ⟨⟨?_, trivial⟩, rfl, ⟨rfl, ?_⟩, ?_, ?_⟩
  · exact block_header.read_write _ _ _ (by decide) (by decide) (by decide)
  · show _ = heap_expand _ _ _
    rw [hend]
    rfl
  · show heap_expand _ _ _ % _ = 0
    rw [hend]
    rfl
  · show heap_expand _ _ _ ≤ _
    rw [hend]
    decide

theorem Sound.link (hs : Sound h L) {u : Bool} (he : h.heap_end + HEADER_SIZE + n = e) (haligned : e % PAGE_SIZE = 0)
    (htop : e ≤ HEAP_START + HEAP_MAX_SIZE) :
    Keeps h L (Kheap.link { h with heap_end := e } h.heap_end n (if u then 1 else 0)) (L ++ [⟨h.heap_end, n, u⟩])
      (fun x => x ∈ L ∨ u = true ∧ x = ⟨h.heap_end, n, u⟩) := by
  have hstop : BlockList.Block.stop block_header ⟨h.heap_end, n, u⟩ = e := he
  obtain ⟨hseg, hlaid, hhead, hkept⟩ := append_spec (b := ⟨h.heap_end, n, u⟩) Gap.eq hs.seg hs.tiles (by decide)
    hs.length_le rfl (by rw [hstop]; exact Nat.lt_of_le_of_lt htop (by decide)) rfl
  rw [hstop] at hlaid
  have hmem : (Kheap.link { h with heap_end := e } h.heap_end n (if u then 1 else 0)) =
      ⟨(block_header.append h.mem WORD (BlockList.Block.start L 0) h.heap_end
        (BlockList.Block.header ⟨h.heap_end, n, u⟩ 0)).1, e,
        (block_header.append h.mem WORD (BlockList.Block.start L 0) h.heap_end
          (BlockList.Block.header ⟨h.heap_end, n, u⟩ 0)).2⟩ := by
    rw [hs.head]
    rfl
  rw [hmem]
  refine ⟨⟨hseg, hhead, hlaid, haligned, htop⟩, fun x hx => ?_, fun i hi htheirs => ?_⟩
  · rw [List.mem_append, List.mem_singleton]
    refine or_congr_right ⟨?_, And.right⟩
    rintro rfl
    exact ⟨hx, rfl⟩
  · exact hkept i (fun c hc => htheirs.outside hc) (Or.inl hi)

/-! ## The calls -/

/-- What `kmalloc` answers: nothing, or a block nobody had. -/
inductive Answer (h : Kheap) (L : List BlockList.Block) (size : Nat) : Kheap × Nat → Prop
  | refused (h' : Kheap) (L' : List BlockList.Block) (hkeeps : Keeps h L h' L' (· ∈ L)) : Answer h L size (h', 0)
  | given (h' : Kheap) (L' : List BlockList.Block) (c : BlockList.Block) (hkeeps : Keeps h L h' L' (fun x => x ∈ L ∨ x = c)) (hused : c.used = true) (hfresh : c ∉ L)
      (hroom : size ≤ c.size) : Answer h L size (h', c.addr + HEADER_SIZE)

theorem Sound.stop_le (hs : Sound h L) (hb : b ∈ L) : b.addr + HEADER_SIZE + b.size ≤ h.heap_end :=
  (hs.spaced.bounds.2 b hb).2

theorem kmalloc_grow_spec (hs : Sound h L) (hsize : size ≤ 0xFFFFFFF0) (hsize4 : size % 4 = 0) :
    Answer h L size (kmalloc_grow frames size h) := by
  have htop := hs.top
  have haligned := hs.aligned
  have hneeded : (size + HEADER_SIZE) % WORD = size + HEADER_SIZE :=
      Nat.mod_eq_of_lt (by simp only [HEADER_SIZE, WORD]; omega)
  unfold kmalloc_grow
  dsimp only
  rw [hneeded]
  split
  · exact Answer.refused _ _ hs.refl
  · next hroom =>
    generalize hto : ((h.heap_end + (size + HEADER_SIZE)) % WORD +
        (PAGE_SIZE - 1)) % WORD / PAGE_SIZE * PAGE_SIZE = to_end
    -- past the end of the address space nothing is mapped at all
    have hto' : to_end % PAGE_SIZE = 0 ∧
        (to_end ≤ h.heap_end ∨ to_end ≤ HEAP_START + HEAP_MAX_SIZE) ∧ to_end < WORD := by
      simp only [HEAP_START, HEAP_MAX_SIZE, HEADER_SIZE, WORD, PAGE_SIZE] at *
      omega
    obtain ⟨hle, hmod, hend⟩ := heap_expand_le hto'.1 hto'.2.2 frames haligned
    generalize heap_expand to_end frames h.heap_end = e at hle hmod hend ⊢
    have hetop : e ≤ HEAP_START + HEAP_MAX_SIZE := by omega
    have hgot : (e + WORD - h.heap_end) % WORD = e - h.heap_end := by
      simp only [HEAP_START, HEAP_MAX_SIZE, WORD] at *
      omega
    rw [hgot]
    split
    · next hshort =>
      split
      · next hsome =>
        -- the pages there were become a free block
        have hpages : h.heap_end + PAGE_SIZE ≤ e := by
          simp only [HEAP_START, HEAP_MAX_SIZE, HEADER_SIZE, WORD, PAGE_SIZE] at *
          omega
        have hlink := hs.link (u := false) (n := e - h.heap_end - HEADER_SIZE) (e := e)
          (by simp only [HEADER_SIZE, PAGE_SIZE] at *; omega) hmod hetop
        refine Answer.refused _ _ ⟨hlink.sound, fun x hx => (hlink.busy x hx).trans ?_, hlink.kept⟩
        simp
      · next hnone =>
        have hsame : e = h.heap_end := by
          simp only [HEAP_START, HEAP_MAX_SIZE, HEADER_SIZE, WORD, PAGE_SIZE] at *
          omega
        rw [hsame]
        exact Answer.refused _ _ hs.refl
    · next hlong =>
      have hlink := hs.link (u := true) (n := e - h.heap_end - HEADER_SIZE) (e := e)
        (by simp only [HEADER_SIZE] at *; omega) hmod hetop
      have hptr : (h.heap_end + HEADER_SIZE) % WORD = h.heap_end + HEADER_SIZE := by
        simp only [HEAP_START, HEAP_MAX_SIZE, HEADER_SIZE, WORD] at *
        omega
      have hbig : (e - h.heap_end + WORD - HEADER_SIZE) % WORD = e - h.heap_end - HEADER_SIZE := by
        simp only [HEAP_START, HEAP_MAX_SIZE, HEADER_SIZE, WORD] at *
        omega
      rw [hptr, hbig]
      refine Answer.given _ _ ⟨h.heap_end, e - h.heap_end - HEADER_SIZE, true⟩
        ⟨hlink.sound, fun x hx => (hlink.busy x hx).trans ?_, hlink.kept⟩ rfl ?_ ?_
      · simp
      · intro hmem
        have := hs.stop_le hmem
        simp only [HEADER_SIZE] at this
        omega
      · simp only [HEADER_SIZE] at *
        omega

theorem align4_spec (hsize : size ≤ 0xFFFFFFF0) :
    size ≤ align4 size ∧ align4 size ≤ 0xFFFFFFF0 ∧ align4 size % 4 = 0 := by
  unfold align4
  simp only [WORD]
  omega

theorem Answer.mono (h' : Answer h L n r) (hle : size ≤ n) : Answer h L size r := by
  cases h' with
  | refused h' L' hkeeps => exact Answer.refused h' L' hkeeps
  | given h' L' c hkeeps hused hfresh hroom => exact Answer.given h' L' c hkeeps hused hfresh (Nat.le_trans hle hroom)

theorem kmalloc_spec (hs : Sound h L) (hsize : size ≤ 0xFFFFFFF0) : Answer h L size (kmalloc frames size h) := by
  obtain ⟨hle, hmax, hmod⟩ := align4_spec hsize
  have htop := hs.top
  unfold kmalloc
  split
  · exact Answer.refused _ _ hs.refl
  · cases hfind : block_header.search h.mem (align4 size) WORD h.heap_head with
    | none => exact (kmalloc_grow_spec hs hmax hmod).mono hle
    | some a =>
      rw [hs.head] at hfind
      obtain ⟨b, hb, rfl, hfree, hroom⟩ := hs.seg.search_some hs.ne_zero hs.length_le hfind
      obtain ⟨L', c, hcarved⟩ := carve_spec 4 Gap.eq hs.seg hs.tiles
          (Nat.lt_of_le_of_lt (Nat.add_le_add_right htop 4) (by decide))
        hb hfree hroom
      have hptr : (b.addr + HEADER_SIZE) % WORD = c.addr + HEADER_SIZE := by
        have := hs.stop_le hb
        rw [hcarved.addr]
        simp only [HEAP_START, HEAP_MAX_SIZE, HEADER_SIZE, WORD] at *
        omega
      dsimp only
      rw [hptr]
      refine Answer.given _ L' c ⟨⟨hcarved.becomes.seg, hs.head.trans hcarved.becomes.start.symm, hcarved.becomes.laid,
        hs.aligned, htop⟩, hcarved.becomes.busy, fun i _ hi => hcarved.kept i hi⟩ hcarved.used ?_
          (Nat.le_trans hle hcarved.room)
      -- what was free is not what is taken
      intro hmem
      have heq := hs.spaced.eq_of_addr hmem hb hcarved.addr
      have := hcarved.used
      rw [heq, hfree] at this
      cases this

theorem kfree_spec (hs : Sound h L) (hb : b ∈ L) :
    ∃ L', Keeps h L (kfree (b.addr + HEADER_SIZE) h) L' (fun x => x ∈ L ∧ x ≠ b) := by
  have htop := hs.top
  have hstop := hs.stop_le hb
  have haddr : (b.addr + HEADER_SIZE + WORD - HEADER_SIZE) % WORD = b.addr := by
    simp only [HEAP_START, HEAP_MAX_SIZE, HEADER_SIZE, WORD] at *
    omega
  obtain ⟨L', hL', hkept⟩ :=
      release_spec WORD Gap.eq (by decide) (Nat.lt_of_le_of_lt htop (by decide)) hs.seg hs.tiles hb
  refine ⟨L', ?_⟩
  unfold kfree
  rw [if_neg (by simp only [HEADER_SIZE]; omega), haddr, hs.head]
  exact ⟨⟨hL'.seg, hL'.start.symm, hL'.laid, hs.aligned, htop⟩, hL'.busy, fun i _ hi => hkept i hi⟩

end Heap

/-! ## The clients -/

/-- What is outstanding lies in taken blocks, one for each. -/
structure Outstanding (held : List Held) (L : List BlockList.Block) : Prop where
  block : ∀ p ∈ held, ∃ b ∈ L, b.used = true ∧ p.ptr = b.addr + HEADER_SIZE ∧ 0 < p.size ∧ p.size ≤ b.size
  apart : held.Pairwise (fun p q => p.ptr ≠ q.ptr)

/-- The machine of the heap and its clients. -/
def clients : Machine Clients Act Unit where
  step s a := (s.step a, ())

/-- Clients give back what they hold, and write to nothing else. -/
def Act.Proper (s : Clients) : Act → Prop
  | .kmalloc _ size => size < WORD
  | .kfree ptr => ∃ p ∈ s.held, p.ptr = ptr
  | .store p off _ => p ∈ s.held ∧ off < p.size

/-- No request is of a size that wraps. -/
def Act.Small (_ : Clients) : Act → Prop
  | .kmalloc _ size => size ≤ 0xFFFFFFF0
  | _ => True

instance (s : Clients) : (a : Act) → Decidable (a.Proper s ∧ a.Small s)
  | .kmalloc _ size => inferInstanceAs (Decidable (size < WORD ∧ size ≤ 0xFFFFFFF0))
  | .kfree ptr => inferInstanceAs (Decidable ((∃ p ∈ s.held, p.ptr = ptr) ∧ True))
  | .store p off _ => inferInstanceAs (Decidable ((p ∈ s.held ∧ off < p.size) ∧ True))

/-- The invariant of the clients. -/
def Inv (s : Clients) : Prop := ∃ L, Sound s.heap L ∧ Outstanding s.held L

theorem Inv.step {s : Clients} {a : Act} (hs : Inv s) (hproper : a.Proper s) (hsmall : a.Small s) :
    Inv (s.step a) := by
  obtain ⟨L, hsound, hout⟩ := hs
  cases a with
  | kmalloc frames size =>
    have hanswer : Answer s.heap L size (Kheap32.kmalloc frames size s.heap) := kmalloc_spec hsound hsmall
    have hzero : size = 0 → (Kheap32.kmalloc frames size s.heap).2 = 0 := fun h => by rw [Kheap32.kmalloc, if_pos h]
    unfold Clients.step
    dsimp only
    generalize Kheap32.kmalloc frames size s.heap = r at hanswer hzero ⊢
    cases hanswer with
    | refused h' L' hkeeps =>
      refine ⟨L', hkeeps.sound, fun p hp => ?_, hout.apart⟩
      obtain ⟨b, hb, hu, hrest⟩ := hout.block p hp
      exact ⟨b, (hkeeps.busy b hu).mpr hb, hu, hrest⟩
    | given h' L' c hkeeps hused hfresh hroom =>
      have hne : c.addr + HEADER_SIZE ≠ 0 := by simp only [HEADER_SIZE]; omega
      rw [if_neg hne]
      refine ⟨L', hkeeps.sound, fun p hp => ?_, List.pairwise_cons.mpr ⟨fun p hp heq => ?_, hout.apart⟩⟩
      · rcases List.mem_cons.mp hp with rfl | hp
        · exact ⟨c, (hkeeps.busy c hused).mpr (Or.inr rfl), hused, rfl,
              Nat.pos_of_ne_zero fun h => hne (hzero h), hroom⟩
        · obtain ⟨b, hb, hu, hrest⟩ := hout.block p hp
          exact ⟨b, (hkeeps.busy b hu).mpr (Or.inl hb), hu, hrest⟩
      · obtain ⟨b, hb, hu, hptr, _⟩ := hout.block p hp
        have haddr : b.addr = c.addr := by
          rw [hptr] at heq
          exact (Nat.add_right_cancel heq).symm
        have hsame := hkeeps.sound.spaced.eq_of_addr ((hkeeps.busy b hu).mpr (Or.inl hb))
          ((hkeeps.busy c hused).mpr (Or.inr rfl)) haddr
        exact hfresh (hsame ▸ hb)
  | kfree ptr =>
    obtain ⟨p, hp, rfl⟩ := hproper
    obtain ⟨b, hb, hu, hptr, _⟩ := hout.block p hp
    obtain ⟨L', hkeeps⟩ := kfree_spec hsound hb
    rw [← hptr] at hkeeps
    refine ⟨L', hkeeps.sound, fun q hq => ?_, hout.apart.sublist List.eraseP_sublist⟩
    have hne := BlockList.ne_of_mem_eraseP hout.apart hq
    obtain ⟨c, hc, hcu, hcptr, hrest⟩ := hout.block q (List.mem_of_mem_eraseP hq)
    refine ⟨c, (hkeeps.busy c hcu).mpr ⟨hc, ?_⟩, hcu, hcptr, hrest⟩
    rintro rfl
    exact hne (hcptr.trans hptr.symm)
  | store p off v =>
    obtain ⟨hp, hoff⟩ := hproper
    obtain ⟨b, hb, hu, hptr, _, hroom⟩ := hout.block p hp
    have htheirs : block_header.Theirs L (p.ptr + off) := by
      refine hsound.spaced.theirs hb hu ?_ ?_
      · show b.addr + HEADER_SIZE ≤ _
        omega
      · show _ < b.addr + HEADER_SIZE + b.size
        omega
    refine ⟨L, ⟨hsound.seg.congr fun c hc i hlo hhi => if_neg ?_, hsound.head, hsound.tiles,
        hsound.aligned, hsound.top⟩, hout⟩
    have := htheirs.outside hc
    omega

/-- The blocks tile the mapped heap from `HEAP_START` to `heap_end`, and what is
outstanding has its bytes there: as many as were asked for, in no header and in
nothing else outstanding. -/
def Exclusive (s : Clients) : Prop :=
  ∃ L, (block_header.Seg s.heap.mem L 0 ∧ s.heap.heap_head = BlockList.Block.start L 0 ∧
    block_header.Tiles HEAP_START L s.heap.heap_end) ∧
    (∀ p ∈ s.held, 0 < p.size ∧ HEAP_START ≤ p.ptr ∧ p.ptr + p.size ≤ s.heap.heap_end ∧
      (∃ b ∈ L, b.used = true ∧ p.ptr = b.addr + HEADER_SIZE ∧ p.size ≤ b.size) ∧
      ∀ b ∈ L, p.ptr + p.size ≤ b.addr ∨ b.addr + HEADER_SIZE ≤ p.ptr) ∧
    s.held.Pairwise (fun p q => p.ptr + p.size ≤ q.ptr ∨ q.ptr + q.size ≤ p.ptr)

theorem Inv.exclusive {s : Clients} (hs : Inv s) : Exclusive s := by
  obtain ⟨L, hsound, hout⟩ := hs
  have hapart := hsound.spaced.apart
  have hbound := hsound.spaced.bounds.2
  refine ⟨L, ⟨hsound.seg, hsound.head, hsound.tiles⟩, fun p hp => ?_, ?_⟩
  · obtain ⟨b, hb, hu, hptr, hpos, hroom⟩ := hout.block p hp
    have hlo := (hbound b hb).1
    have hhi := hsound.stop_le hb
    refine ⟨hpos, by omega, by omega, ⟨b, hb, hu, hptr, hroom⟩, fun c hc => ?_⟩
    rcases hapart b hb c hc with rfl | hlt | hlt
    · exact Or.inr (Nat.le_of_eq hptr.symm)
    · refine Or.inl (Nat.le_trans ?_ hlt)
      show p.ptr + p.size ≤ b.addr + HEADER_SIZE + b.size
      omega
    · refine Or.inr ?_
      have : c.addr + HEADER_SIZE + c.size ≤ b.addr := hlt
      omega
  · refine hout.apart.imp_of_mem fun {p q} hp hq hne => ?_
    obtain ⟨b, hb, _, hptr, _, hroom⟩ := hout.block p hp
    obtain ⟨c, hc, _, hcptr, _, hcroom⟩ := hout.block q hq
    rcases hapart b hb c hc with rfl | hlt | hlt
    · exact absurd (hptr.trans hcptr.symm) hne
    · have : b.addr + HEADER_SIZE + b.size ≤ c.addr := hlt
      omega
    · have : c.addr + HEADER_SIZE + c.size ≤ b.addr := hlt
      omega

/-- The kernel after `kheap_init`, with nothing outstanding. -/
def booted (frames : Nat) (m : Mem) : Clients := ⟨kheap_init frames ⟨m, HEAP_START, 0⟩, []⟩

/-- **Whatever the clients do**, as long as no request wraps and the heap got
its first pages. -/
theorem heap_exclusive (frames : Nat) (m : Mem) (hframes : 16 ≤ frames) (as : List Act)
    (has : clients.Guarded (fun s a => a.Proper s ∧ a.Small s) (booted frames m) as) :
    Exclusive (clients.run (booted frames m) as) := by
  have hstart : Inv (booted frames m) := ⟨_, Sound.start hframes, nofun, List.Pairwise.nil⟩
  exact (clients.invariant_of_step (fun s a hs ha => Inv.step hs ha.1 ha.2) as _ hstart has).exclusive

/-- Three frames are too few for the second request; the first block is given
back, and its front handed out again. -/
theorem heap_exclusive_small :
    Exclusive (clients.run (booted 20 fun _ => 0)
      [.kmalloc 0 100, .kmalloc 3 70000, .kfree (HEAP_START + 12), .kmalloc 0 10, .store ⟨HEAP_START + 12, 10⟩ 9 7]) :=
  heap_exclusive 20 (fun _ => 0) (by decide) _ (by decide)

/-- A request of 0xFFFFFFFE bytes is rounded to none at all, and gets a block
of no size. -/
theorem heap_not_exclusive : ¬ ∀ (frames : Nat) (m : Mem) (as : List Act),
    clients.Guarded (fun s a => a.Proper s) (booted frames m) as → Exclusive (clients.run (booted frames m) as) := by
  intro h
  obtain ⟨L, -, hheld, -⟩ := h 16 (fun _ => 0) [.kmalloc 0 0xFFFFFFFE] ⟨show _ < _ by decide, trivial⟩
  have hrun : (clients.run (booted 16 fun _ => 0) [.kmalloc 0 0xFFFFFFFE]).held = [⟨HEAP_START + 12, 0xFFFFFFFE⟩] ∧
      (clients.run (booted 16 fun _ => 0) [.kmalloc 0 0xFFFFFFFE]).heap.heap_end = HEAP_START + HEAP_INITIAL_SIZE := by
    decide
  obtain ⟨-, -, hend, -⟩ := hheld ⟨HEAP_START + 12, 0xFFFFFFFE⟩ (by rw [hrun.1]; simp)
  exact absurd hend (by decide)

end NovarisOS.Kheap32
