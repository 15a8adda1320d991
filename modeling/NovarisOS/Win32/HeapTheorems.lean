/-
NovarisOS.Win32.HeapTheorems — the heap a Win32 program sees hands out no byte
twice.

`heap_disjoint`: in every run whose requests do not wrap, and in which nothing
from `w32_mem_alloc_pages` is given back or made larger, what is outstanding is
pairwise disjoint and inside the arena, no free block overlaps it, and the next
`w32_mem_realloc` keeps the bytes it promises.
-/
import NovarisOS.Win32.Heap
import NovarisOS.Lib.Machine

namespace NovarisOS.Win32

open Mem BlockList BlockList.HeaderFormat

/-- The end of the arena. -/
abbrev HEAP_TOP : Nat := WIN32_HEAP_BASE + WIN32_HEAP_SIZE

/-! ## Growing -/

/-- The arena grew, if at all, by whole pages at its end. -/
structure Grown (h h' : Arena) : Prop where
  head : h'.heap_head = h.heap_head
  le : h.heap_mapped_end ≤ h'.heap_mapped_end
  aligned : h'.heap_mapped_end % PAGE_SIZE = 0
  top : h'.heap_mapped_end ≤ HEAP_TOP
  mem : ∀ i < h.heap_mapped_end, h'.mem i = h.mem i

theorem pageUp_spec {n : Nat} (hn : n + PAGE_SIZE ≤ WORD) :
    pageUp n % PAGE_SIZE = 0 ∧ n ≤ pageUp n ∧ pageUp n < n + PAGE_SIZE := by
  unfold pageUp
  simp only [PAGE_SIZE, WORD] at *
  omega

theorem pageUp_of_aligned {n : Nat} (hn : n + PAGE_SIZE ≤ WORD) (haligned : n % PAGE_SIZE = 0) : pageUp n = n := by
  unfold pageUp
  simp only [PAGE_SIZE, WORD] at *
  omega

section Growing

variable {h h' : Arena} {want : Nat}

theorem arena_map_spec (hwant : want % PAGE_SIZE = 0) (htop : want ≤ HEAP_TOP) (frames : Nat) :
    ∀ {h : Arena}, h.heap_mapped_end % PAGE_SIZE = 0 → h.heap_mapped_end ≤ HEAP_TOP →
      Grown h (arena_map want frames h).1 ∧
        ((arena_map want frames h).2 = true → want ≤ (arena_map want frames h).1.heap_mapped_end) := by
  induction frames with
  | zero => exact fun h ht => ⟨⟨rfl, Nat.le_refl _, h, ht, fun _ _ => rfl⟩, fun hok => of_decide_eq_true hok⟩
  | succ frames ih =>
    intro h haligned hle
    unfold arena_map
    split
    · next hlt =>
      have hnext : (h.heap_mapped_end + PAGE_SIZE) % WORD = h.heap_mapped_end + PAGE_SIZE := by
        simp only [PAGE_SIZE, HEAP_TOP, WIN32_HEAP_BASE, WIN32_HEAP_SIZE, WORD] at *
        omega
      rw [hnext]
      obtain ⟨hgrown, hok⟩ := ih (h := ⟨fillAt h.mem h.heap_mapped_end 0 PAGE_SIZE, h.heap_head,
          h.heap_mapped_end + PAGE_SIZE⟩)
        (by simpa using haligned) (by simp only [PAGE_SIZE] at *; omega)
      refine ⟨⟨hgrown.head, Nat.le_trans (Nat.le_add_right _ _) hgrown.le, hgrown.aligned,
          hgrown.top, fun i hi => ?_⟩, hok⟩
      exact (hgrown.mem i (Nat.lt_of_lt_of_le hi (Nat.le_add_right _ _))).trans (fillAt_outside (Or.inl hi))
    · next hge => exact ⟨⟨rfl, Nat.le_refl _, haligned, hle, fun _ _ => rfl⟩, fun _ => Nat.le_of_not_lt hge⟩

theorem heap_grow_spec (frames : Nat) (haligned : h.heap_mapped_end % PAGE_SIZE = 0)
    (htop : h.heap_mapped_end ≤ HEAP_TOP)
    (hwant : want + PAGE_SIZE ≤ WORD) : Grown h (heap_grow want frames h).1 ∧
      ((heap_grow want frames h).2 = true → want ≤ (heap_grow want frames h).1.heap_mapped_end) := by
  obtain ⟨hmod, hle, -⟩ := pageUp_spec hwant
  unfold heap_grow arena_grow
  split
  · exact ⟨⟨rfl, Nat.le_refl _, haligned, htop, fun _ _ => rfl⟩, nofun⟩
  · next hlimit =>
    obtain ⟨hgrown, hok⟩ := arena_map_spec hmod (Nat.le_of_not_lt hlimit) frames haligned htop
    exact ⟨hgrown, fun h => Nat.le_trans hle (hok h)⟩

end Growing

/-! ## The arena -/

/-- The blocks are in address order, inside the arena. -/
structure Sound (h : Arena) (L : List BlockList.Block) : Prop where
  seg : w32_block.Seg h.mem L 0
  head : h.heap_head = BlockList.Block.start L 0
  spaced : w32_block.Spaced WIN32_HEAP_BASE L h.heap_mapped_end
  aligned : h.heap_mapped_end % PAGE_SIZE = 0
  top : h.heap_mapped_end ≤ HEAP_TOP

/-- The arena `h` with the blocks `L` became `h'` with `L'`, where the blocks
with `taken` are the taken ones. New blocks are made of old ones or of new pages. -/
structure Keeps (h : Arena) (L : List BlockList.Block) (h' : Arena) (L' : List BlockList.Block)
    (taken : BlockList.Block → Prop) : Prop where
  sound : Sound h' L'
  le : h.heap_mapped_end ≤ h'.heap_mapped_end
  busy : ∀ x : BlockList.Block, x.used = true → (x ∈ L' ↔ taken x)
  cover : ∀ i < h.heap_mapped_end, w32_block.Covers L' i → w32_block.Covers L i
  kept : ∀ i < h.heap_mapped_end, w32_block.Theirs L i → h'.mem i = h.mem i

section Heap

variable {h h' : Arena} {L L' : List BlockList.Block} {b c : BlockList.Block} {frames size n : Nat} {r : Arena × Nat}

theorem Sound.length_le (hs : Sound h L) : L.length ≤ WORD := by
  have hlen := hs.spaced.length_le
  have htop := hs.top
  simp only [HEAP_TOP, WIN32_HEAP_BASE, WIN32_HEAP_SIZE, WORD] at *
  omega

theorem Sound.ne_zero (hs : Sound h L) : ∀ b ∈ L, b.addr ≠ 0 := fun b hb => by
  have := (hs.spaced.bounds.2 b hb).1
  simp only [WIN32_HEAP_BASE] at this
  omega

theorem Sound.bounds (hs : Sound h L) (hb : b ∈ L) :
    WIN32_HEAP_BASE ≤ b.addr ∧ b.addr + HEADER_SIZE + b.size ≤ h.heap_mapped_end :=
  hs.spaced.bounds.2 b hb

theorem Sound.lt_word (hs : Sound h L) : h.heap_mapped_end < WORD := Nat.lt_of_le_of_lt hs.top (by decide)

theorem Sound.grown (hs : Sound h L) (hg : Grown h h') : Keeps h L h' L (· ∈ L) := by
  refine ⟨⟨hs.seg.congr fun b hb i hlo hhi => hg.mem i ?_, hg.head.trans hs.head,
    hs.spaced.widen hg.le fun x hx hle => Nat.le_trans hx hle, hg.aligned, hg.top⟩, hg.le, fun _ _ => Iff.rfl,
    fun _ _ => id, fun i hi _ => hg.mem i hi⟩
  have := (hs.bounds hb).2
  have : i < b.addr + HEADER_SIZE := hhi
  omega

theorem Sound.refl (hs : Sound h L) : Keeps h L h L (· ∈ L) :=
  hs.grown ⟨rfl, Nat.le_refl _, hs.aligned, hs.top, fun _ _ => rfl⟩

theorem Sound.payload (hs : Sound h L) (hb : b ∈ L) (hu : b.used = true) {i : Nat} (hlo : b.addr + HEADER_SIZE ≤ i)
    (hhi : i < b.addr + HEADER_SIZE + b.size) : w32_block.Theirs L i := hs.spaced.theirs hb hu hlo hhi

theorem Sound.painted (hs : Sound h L) {m : Mem}
    (hm : ∀ i, ¬ w32_block.Theirs L i → m i = h.mem i) : Sound { h with mem := m } L := by
  refine ⟨hs.seg.congr fun b hb i hlo hhi => hm i fun htheirs => ?_, hs.head, hs.spaced, hs.aligned, hs.top⟩
  have := htheirs.outside hb
  omega

/-! ## The calls -/

/-- What an allocation answers: nothing, or a block nobody had. -/
inductive Answer (h : Arena) (L : List BlockList.Block) (size : Nat) : Arena × Nat → Prop
  | refused (h' : Arena) (L' : List BlockList.Block) (hkeeps : Keeps h L h' L' (· ∈ L)) : Answer h L size (h', 0)
  | given (h' : Arena) (L' : List BlockList.Block) (c : BlockList.Block) (hkeeps : Keeps h L h' L' (fun x => x ∈ L ∨ x = c))
      (hused : c.used = true) (hfresh : c ∉ L) (hroom : size ≤ c.size) (hpos : 0 < c.size)
      (hapart : ∀ i < h.heap_mapped_end, w32_block.Theirs L i → i < c.addr ∨ c.stop w32_block ≤ i) :
      Answer h L size (h', c.addr + HEADER_SIZE)

/-- The bytes of the block for a request, in unbounded integers. -/
def blockSize (size : Nat) : Nat := (max size 1 + 7) / 8 * 8

/-- No sum wraps on the way to a new block for a request. -/
def Arena.HasRoom (h : Arena) (size : Nat) : Prop := h.heap_mapped_end + blockSize size + HEADER_SIZE + PAGE_SIZE ≤ WORD

instance (h : Arena) (size : Nat) : Decidable (h.HasRoom size) := inferInstanceAs (Decidable (_ ≤ _))

theorem blockSize_spec (size : Nat) : size ≤ blockSize size ∧ 0 < blockSize size := by
  unfold blockSize
  omega

theorem Arena.HasRoom.roundSize (hroom : h.HasRoom size) : Win32.roundSize size = blockSize size := by
  unfold Arena.HasRoom blockSize at hroom
  unfold Win32.roundSize blockSize
  simp only [HEADER_SIZE, PAGE_SIZE, WORD] at *
  split <;> omega

theorem Answer.mono (h' : Answer h L n r) (hle : size ≤ n) : Answer h L size r := by
  cases h' with
  | refused h' L' hkeeps => exact Answer.refused h' L' hkeeps
  | given h' L' c hkeeps hused hfresh hroom hpos hapart =>
    exact Answer.given h' L' c hkeeps hused hfresh (Nat.le_trans hle hroom) hpos hapart

theorem heap_new_block_spec (hs : Sound h L)
    (hroom : h.heap_mapped_end + n + HEADER_SIZE + PAGE_SIZE ≤ WORD) (hpos : 0 < n) :
    Answer h L n (heap_new_block frames n h) := by
  have hneed : (h.heap_mapped_end + (n + HEADER_SIZE) % WORD) % WORD = h.heap_mapped_end + n + HEADER_SIZE := by
    simp only [HEADER_SIZE, PAGE_SIZE, WORD] at *
    omega
  obtain ⟨hgrown, hok⟩ := heap_grow_spec frames hs.aligned hs.top hroom
  unfold heap_new_block
  dsimp only
  rw [hneed]
  generalize heap_grow (h.heap_mapped_end + n + HEADER_SIZE) frames h = g at hgrown hok ⊢
  obtain ⟨h₁, ok⟩ := g
  dsimp only at hgrown hok ⊢
  have hs₁ := hs.grown hgrown
  split
  · next htrue =>
    have hend := hok htrue
    have htop := hgrown.top
    have hsize : (h₁.heap_mapped_end + 2 * WORD - h.heap_mapped_end - HEADER_SIZE) % WORD =
        h₁.heap_mapped_end - h.heap_mapped_end - HEADER_SIZE := by
      simp only [HEAP_TOP, WIN32_HEAP_BASE, WIN32_HEAP_SIZE, HEADER_SIZE, WORD] at *
      omega
    have hptr : (h.heap_mapped_end + HEADER_SIZE) % WORD = h.heap_mapped_end + HEADER_SIZE := by
      simp only [HEADER_SIZE, PAGE_SIZE, WORD] at *
      omega
    rw [hsize, hptr]
    have hlast : h.heap_mapped_end + HEADER_SIZE +
        (h₁.heap_mapped_end - h.heap_mapped_end - HEADER_SIZE) = h₁.heap_mapped_end := by
      omega
    generalize h₁.heap_mapped_end - h.heap_mapped_end - HEADER_SIZE = size at hlast ⊢
    have hstop : BlockList.Block.stop w32_block ⟨h.heap_mapped_end, size, true⟩ = h₁.heap_mapped_end := hlast
    unfold Arena.link
    rw [hs₁.sound.head]
    rcases hlink : w32_block.append h₁.mem WORD (BlockList.Block.start L 0) h.heap_mapped_end
        ⟨size, 1, 0⟩ with ⟨m', head'⟩
    -- the list as it was before the pages came, with the bytes there are now
    obtain ⟨hseg, hlaid, hhead, hkept⟩ := append_spec
        (b := ⟨h.heap_mapped_end, size, true⟩) Gap.mono hs₁.sound.seg hs.spaced (by decide)
      hs.length_le (Nat.le_refl _) (by rw [hstop]; exact hs₁.sound.lt_word) hlink
    rw [hstop] at hlaid
    refine Answer.given _ (L ++ [⟨h.heap_mapped_end, size, true⟩]) ⟨h.heap_mapped_end, size, true⟩
      ⟨⟨hseg, hhead, hlaid, hgrown.aligned, htop⟩, hgrown.le, fun x _ => by simp, ?_, ?_⟩ rfl ?_ ?_ ?_ ?_
    · rintro i hi ⟨x, hx, hxlo, hxhi⟩
      rcases List.mem_append.mp hx with hx | hx
      · exact ⟨x, hx, hxlo, hxhi⟩
      · obtain rfl := List.mem_singleton.mp hx
        exact absurd hxlo (Nat.not_le_of_lt hi)
    · intro i hi htheirs
      exact (hkept i (fun c hc => htheirs.outside hc) (Or.inl hi)).trans (hgrown.mem i hi)
    · intro hmem
      have := (hs.bounds hmem).2
      simp only [HEADER_SIZE] at this
      omega
    · dsimp only
      omega
    · dsimp only
      omega
    · exact fun i hi _ => Or.inl hi
  · exact Answer.refused _ _ hs₁

theorem w32_mem_alloc_spec (hs : Sound h L) (hroom : h.HasRoom size) :
    Answer h L size (w32_mem_alloc frames size h) := by
  obtain ⟨hle, hpos⟩ := blockSize_spec size
  have htop := hs.top
  unfold w32_mem_alloc
  rw [hroom.roundSize]
  cases hfind : w32_block.search h.mem (blockSize size) WORD h.heap_head with
  | none => exact (heap_new_block_spec hs hroom hpos).mono hle
  | some a =>
    rw [hs.head] at hfind
    obtain ⟨b, hb, rfl, hfree, hfits⟩ := hs.seg.search_some hs.ne_zero hs.length_le hfind
    obtain ⟨L', c, hcarved⟩ := carve_spec 16 Gap.mono hs.seg hs.spaced
      (Nat.lt_of_le_of_lt (Nat.add_le_add_right htop 16) (by decide)) hb hfree hfits
    have hptr : (b.addr + HEADER_SIZE) % WORD = c.addr + HEADER_SIZE := by
      have := (hs.bounds hb).2
      rw [hcarved.addr]
      simp only [HEAP_TOP, WIN32_HEAP_BASE, WIN32_HEAP_SIZE, HEADER_SIZE, WORD] at *
      omega
    dsimp only
    rw [hptr]
    refine Answer.given _ L' c ⟨⟨hcarved.becomes.seg, hs.head.trans hcarved.becomes.start.symm, hcarved.becomes.laid,
      hs.aligned, htop⟩, Nat.le_refl _, hcarved.becomes.busy, fun i _ => hcarved.becomes.cover i,
        fun i _ hi => hcarved.kept i hi⟩
      hcarved.used ?_ (Nat.le_trans hle hcarved.room) (Nat.lt_of_lt_of_le hpos hcarved.room) fun i _ hi => ?_
    · -- what was free is not what is taken
      intro hmem
      have heq := hs.spaced.eq_of_addr hmem hb hcarved.addr
      have := hcarved.used
      rw [heq, hfree] at this
      cases this
    · have := hi.outside_free hb hfree
      have := hcarved.inside
      rw [hcarved.addr]
      omega

theorem Answer.zeroed (ha : Answer h L size r) (hle : n ≤ size) :
    Answer h L size (if r.2 = 0 then r else ({ r.1 with mem := fillAt r.1.mem r.2 0 n }, r.2)) := by
  cases ha with
  | refused h' L' hkeeps => exact Answer.refused h' L' hkeeps
  | given h' L' c hkeeps hused hfresh hroom hpos hapart =>
    have hc : c ∈ L' := (hkeeps.busy c hused).mpr (Or.inr rfl)
    rw [if_neg (show c.addr + HEADER_SIZE ≠ 0 by simp only [HEADER_SIZE]; omega)]
    refine Answer.given _ L' c
        ⟨hkeeps.sound.painted fun i hi => fillAt_outside ?_, hkeeps.le, hkeeps.busy, hkeeps.cover,
      fun i hi htheirs => ?_⟩ hused hfresh hroom hpos hapart
    · by_contra hin
      exact hi (hkeeps.sound.payload hc hused (by omega) (by omega))
    · refine (fillAt_outside ?_).trans (hkeeps.kept i hi htheirs)
      have := hapart i hi htheirs
      have : i < c.addr ∨ c.addr + HEADER_SIZE + c.size ≤ i := this
      omega

theorem w32_mem_alloc_zeroed_spec (hs : Sound h L) (hroom : h.HasRoom size) :
    Answer h L size (w32_mem_alloc_zeroed frames size h) := (w32_mem_alloc_spec hs hroom).zeroed (Nat.le_refl size)

theorem headerOf_add (hs : Sound h L) (hb : b ∈ L) : headerOf (b.addr + HEADER_SIZE) = b.addr := by
  have hbounds := hs.bounds hb
  have htop := hs.top
  unfold headerOf
  simp only [HEAP_TOP, WIN32_HEAP_BASE, WIN32_HEAP_SIZE, HEADER_SIZE, WORD] at *
  omega

theorem w32_mem_size_spec (hs : Sound h L) (hb : b ∈ L) : w32_mem_size (b.addr + HEADER_SIZE) h = b.size := by
  unfold w32_mem_size
  rw [if_neg (by simp only [HEADER_SIZE]; omega), headerOf_add hs hb]
  obtain ⟨next, hread⟩ := hs.seg.read hb
  rw [hread]
  rfl

theorem w32_mem_free_spec (hs : Sound h L) (hb : b ∈ L) (hpos : 0 < b.size) :
    ∃ L', Keeps h L (w32_mem_free (b.addr + HEADER_SIZE) h) L' (fun x => x ∈ L ∧ x ≠ b) := by
  have hbounds := hs.bounds hb
  obtain ⟨L', hL', hkept⟩ := release_spec WORD Gap.mono (by decide) hs.lt_word hs.seg hs.spaced hb
  refine ⟨L', ?_⟩
  unfold w32_mem_free
  rw [if_neg (by simp only [HEADER_SIZE]; omega), if_neg (by simp only [HEADER_SIZE] at *; omega),
      headerOf_add hs hb, hs.head]
  exact ⟨⟨hL'.seg, hL'.start.symm, hL'.laid, hs.aligned, hs.top⟩, Nat.le_refl _, hL'.busy, fun i _ => hL'.cover i,
    fun i _ hi => hkept i hi⟩

theorem Keeps.theirs {taken : BlockList.Block → Prop} (hk : Keeps h L h' L' taken)
    (hall : ∀ x ∈ L, x.used = true → taken x) {i : Nat}
    (hi : i < h.heap_mapped_end) (htheirs : w32_block.Theirs L i) : w32_block.Theirs L' i := by
  intro b hb hlo hhi
  obtain ⟨c, hc, hclo, hchi⟩ := hk.cover i hi ⟨b, hb, hlo, hhi⟩
  obtain ⟨hu, hpay⟩ := htheirs c hc hclo hchi
  have hc' := (hk.busy c hu).mpr (hall c hc hu)
  rcases hk.sound.spaced.apart b hb c hc' with rfl | hlt | hlt
  · exact ⟨hu, hpay⟩
  · omega
  · omega

/-- What `w32_mem_realloc` answers for the block `b`: it stays, it stays and
there is nothing larger, or its bytes are in another block and it is free. -/
inductive Moved (h : Arena) (L : List BlockList.Block) (b : BlockList.Block) (size : Nat) : Arena × Nat → Prop
  | stayed (hroom : size ≤ b.size) : Moved h L b size (h, b.addr + HEADER_SIZE)
  | refused (h' : Arena) (L' : List BlockList.Block) (hkeeps : Keeps h L h' L' (· ∈ L)) : Moved h L b size (h', 0)
  | moved (h' : Arena) (L' : List BlockList.Block) (c : BlockList.Block) (hkeeps : Keeps h L h' L' (fun x => (x ∈ L ∨ x = c) ∧ x ≠ b))
      (hused : c.used = true) (hfresh : c ∉ L) (hroom : size ≤ c.size) (hpos : 0 < c.size) (hgrew : b.size < size)
      (hbytes : ∀ i < b.size, h'.mem (c.addr + HEADER_SIZE + i) = h.mem (b.addr + HEADER_SIZE + i)) :
      Moved h L b size (h', c.addr + HEADER_SIZE)

theorem w32_mem_realloc_spec (hs : Sound h L) (hb : b ∈ L) (hu : b.used = true) (hpos : 0 < b.size) (hsize : size ≠ 0)
    (hroom : size ≤ b.size ∨ h.HasRoom size) :
    Moved h L b size (w32_mem_realloc frames (b.addr + HEADER_SIZE) size h) := by
  have hbounds := hs.bounds hb
  unfold w32_mem_realloc
  rw [if_neg (by simp only [HEADER_SIZE]; omega), if_neg hsize]
  dsimp only
  rw [w32_mem_size_spec hs hb]
  split
  · next hfits => exact Moved.stayed hfits
  · next hgrow =>
    have hanswer : Answer h L size (w32_mem_alloc frames size h) := w32_mem_alloc_spec hs (hroom.resolve_left hgrow)
    generalize w32_mem_alloc frames size h = r at hanswer ⊢
    cases hanswer with
    | refused h' L' hkeeps => exact Moved.refused h' L' hkeeps
    | given h₁ L₁ c hkeeps hused hfresh hfits hcpos hapart =>
      rw [if_neg (show c.addr + HEADER_SIZE ≠ 0 by simp only [HEADER_SIZE]; omega)]
      have hc : c ∈ L₁ := (hkeeps.busy c hused).mpr (Or.inr rfl)
      have hb₁ : b ∈ L₁ := (hkeeps.busy b hu).mpr (Or.inl hb)
      have hpay : ∀ i < c.size, w32_block.Theirs L₁ (c.addr + HEADER_SIZE + i) := fun i hi =>
        hkeeps.sound.payload hc hused (Nat.le_add_right _ _) (by omega)
      have hs₂ := hkeeps.sound.painted
          (m := copyAt h₁.mem (c.addr + HEADER_SIZE) (shift h₁.mem (b.addr + HEADER_SIZE)) b.size)
        fun i hi => copyAt_outside (by
          by_contra hin
          exact hi (hkeeps.sound.payload hc hused (by omega) (by omega)))
      obtain ⟨L₃, hk₃⟩ := w32_mem_free_spec hs₂ hb₁ hpos
      refine Moved.moved _ L₃ c ⟨hk₃.sound, Nat.le_trans hkeeps.le hk₃.le, fun x hx => ?_,
        fun i hi hcov => hkeeps.cover i hi (hk₃.cover i (Nat.lt_of_lt_of_le hi hkeeps.le) hcov), fun i hi htheirs => ?_⟩
        hused hfresh hfits hcpos (Nat.lt_of_not_le hgrow) fun i hi => ?_
      · rw [hk₃.busy x hx, hkeeps.busy x hx]
      · rw [hk₃.kept i (Nat.lt_of_lt_of_le hi hkeeps.le) (hkeeps.theirs (fun x hx _ => Or.inl hx) hi htheirs)]
        refine (copyAt_outside ?_).trans (hkeeps.kept i hi htheirs)
        have : i < c.addr ∨ c.addr + HEADER_SIZE + c.size ≤ i := hapart i hi htheirs
        omega
      · have hcb := (hkeeps.sound.bounds hc).2
        rw [hk₃.kept _ (by dsimp only; omega) (hpay i (by omega))]
        dsimp only
        rw [copyAt_inside (Nat.le_add_right _ _) (by omega), Nat.add_sub_cancel_left, shift_apply]
        exact hkeeps.kept _ (by omega) (hs.payload hb hu (Nat.le_add_right _ _) (by omega))

/-- The bytes of the pages for a request, in unbounded integers. -/
def pageBytes (size : Nat) : Nat := (max size 1 + (PAGE_SIZE - 1)) / PAGE_SIZE * PAGE_SIZE

/-- No sum wraps on the way to new pages for a request. -/
def Arena.HasPages (h : Arena) (size : Nat) : Prop := h.heap_mapped_end + pageBytes size + PAGE_SIZE ≤ WORD

instance (h : Arena) (size : Nat) : Decidable (h.HasPages size) := inferInstanceAs (Decidable (_ ≤ _))

theorem pageBytes_spec (size : Nat) : size ≤ pageBytes size ∧ 0 < pageBytes size := by
  unfold pageBytes
  simp only [PAGE_SIZE]
  omega

theorem Arena.HasPages.roundPages (hpages : h.HasPages size) : Win32.roundPages size = pageBytes size := by
  unfold Arena.HasPages pageBytes at hpages
  unfold Win32.roundPages pageUp pageBytes
  simp only [PAGE_SIZE, WORD] at *
  split <;> omega

theorem w32_mem_alloc_pages_spec (hs : Sound h L) (hpages : h.HasPages size) {h' : Arena} {p : Nat}
    (hcall : w32_mem_alloc_pages frames size h = (h', p)) : Keeps h L h' L (· ∈ L) ∧
      (p ≠ 0 → p = h.heap_mapped_end ∧ h.heap_mapped_end + pageBytes size ≤ h'.heap_mapped_end) := by
  have hend : pageUp h.heap_mapped_end = h.heap_mapped_end :=
      pageUp_of_aligned (by unfold Arena.HasPages at hpages; omega) hs.aligned
  have hwant : (h.heap_mapped_end + pageBytes size) % WORD = h.heap_mapped_end + pageBytes size :=
    Nat.mod_eq_of_lt (by unfold Arena.HasPages at hpages; simp only [PAGE_SIZE] at hpages; omega)
  obtain ⟨hgrown, hok⟩ := heap_grow_spec frames hs.aligned hs.top hpages
  unfold w32_mem_alloc_pages at hcall
  dsimp only at hcall
  rw [hend, hpages.roundPages, hwant] at hcall
  generalize heap_grow (h.heap_mapped_end + pageBytes size) frames h = g at hgrown hok hcall
  obtain ⟨h₁, ok⟩ := g
  have hs₁ := hs.grown hgrown
  cases ok with
  | false =>
    obtain ⟨rfl, rfl⟩ := Prod.mk.inj hcall
    exact ⟨hs₁, fun h => absurd rfl h⟩
  | true =>
    obtain ⟨rfl, rfl⟩ := Prod.mk.inj hcall
    refine ⟨⟨hs₁.sound.painted fun i hi => fillAt_outside ?_, hs₁.le, hs₁.busy, hs₁.cover, fun i hi htheirs => ?_⟩,
      fun _ => ⟨rfl, hok rfl⟩⟩
    · -- no block reaches the new pages
      by_contra hin
      refine hi fun b hb _ hhi => ?_
      have := (hs.bounds hb).2
      have : i < b.addr + HEADER_SIZE + b.size := hhi
      omega
    · exact (fillAt_outside (Or.inl hi)).trans (hs₁.kept i hi htheirs)

end Heap

/-! ## The program -/

/-- What is outstanding is a taken block each, or pages that no block has. -/
structure Outstanding (h : Arena) (held : List Held) (L : List BlockList.Block) : Prop where
  block : ∀ p ∈ held, p.pages = false → ∃ b ∈ L, b.used = true ∧ p.ptr = b.addr + HEADER_SIZE ∧
    0 < b.size ∧ p.size ≤ b.size
  page : ∀ p ∈ held, p.pages = true → WIN32_HEAP_BASE ≤ p.ptr ∧ p.ptr + pageBytes p.size ≤ h.heap_mapped_end ∧
    ∀ i, p.ptr ≤ i → i < p.ptr + pageBytes p.size → ¬ w32_block.Covers L i
  apart : held.Pairwise (fun p q => p.ptr ≠ q.ptr)
  pages : held.Pairwise (fun p q => p.pages = true → q.pages = true →
    p.ptr + pageBytes p.size ≤ q.ptr ∨ q.ptr + pageBytes q.size ≤ p.ptr)

section Program

variable {h h' : Arena} {L L' : List BlockList.Block} {b c : BlockList.Block}
  {held held' : List Held} {size : Nat} {taken : BlockList.Block → Prop}

theorem Outstanding.keeps (ho : Outstanding h held L) (hk : Keeps h L h' L' taken) (hsub : held'.Sublist held)
    (htaken : ∀ p ∈ held', p.pages = false → ∀ b ∈ L, p.ptr = b.addr + HEADER_SIZE → b.used = true → taken b) :
    Outstanding h' held' L' := by
  refine ⟨fun p hp hblock => ?_, fun p hp hpage => ?_, ho.apart.sublist hsub, ho.pages.sublist hsub⟩
  · obtain ⟨b, hb, hu, hptr, hrest⟩ := ho.block p (hsub.subset hp) hblock
    exact ⟨b, (hk.busy b hu).mpr (htaken p hp hblock b hb hptr hu), hu, hptr, hrest⟩
  · obtain ⟨hlo, hhi, hclear⟩ := ho.page p (hsub.subset hp) hpage
    exact ⟨hlo, Nat.le_trans hhi hk.le, fun i hi hi' hcov => hclear i hi hi' (hk.cover i (by omega) hcov)⟩

theorem Outstanding.fresh (ho : Outstanding h held L) (hk : Keeps h L h' L' taken) (ho' : Outstanding h' held' L')
    (hsub : held'.Sublist held) (htaken : ∀ p ∈ held', p.pages = false → ∀ b ∈ L,
      p.ptr = b.addr + HEADER_SIZE → b.used = true → taken b)
    (hc : c ∈ L') (hfresh : c ∉ L) (hpos : 0 < c.size) : ∀ p ∈ held', p.ptr ≠ c.addr + HEADER_SIZE := by
  intro p hp heq
  cases hkind : p.pages with
  | false =>
    obtain ⟨b, hb, hu, hptr, _⟩ := ho.block p (hsub.subset hp) hkind
    have hb' := (hk.busy b hu).mpr (htaken p hp hkind b hb hptr hu)
    have hsame := hk.sound.spaced.eq_of_addr hb' hc (by omega)
    exact hfresh (hsame ▸ hb)
  | true =>
    refine (ho'.page p hp hkind).2.2 p.ptr (Nat.le_refl _) ?_ ⟨c, hc, by omega, ?_⟩
    · have := (pageBytes_spec p.size).2
      omega
    · rw [heq]
      show _ < c.addr + HEADER_SIZE + c.size
      omega

theorem Outstanding.cons_block (ho : Outstanding h held L) (hc : c ∈ L) (hused : c.used = true) (hpos : 0 < c.size)
    (hroom : size ≤ c.size) (hptr : ∀ p ∈ held, p.ptr ≠ c.addr + HEADER_SIZE) :
    Outstanding h (⟨c.addr + HEADER_SIZE, size, false⟩ :: held) L := by
  refine ⟨fun p hp hblock => ?_, fun p hp hpage => ?_,
      List.pairwise_cons.mpr ⟨fun p hp heq => hptr p hp heq.symm, ho.apart⟩,
    List.pairwise_cons.mpr ⟨fun p _ h => (nomatch h), ho.pages⟩⟩
  · rcases List.mem_cons.mp hp with rfl | hp
    · exact ⟨c, hc, hused, rfl, hpos, hroom⟩
    · exact ho.block p hp hblock
  · rcases List.mem_cons.mp hp with rfl | hp
    · cases hpage
    · exact ho.page p hp hpage

theorem Outstanding.cons_pages (hs : Sound h L) (ho : Outstanding h held L) (hk : Keeps h L h' L (· ∈ L))
    (hend : h.heap_mapped_end + pageBytes size ≤ h'.heap_mapped_end) :
    Outstanding h' (⟨h.heap_mapped_end, size, true⟩ :: held) L := by
  have ho' := ho.keeps hk (List.Sublist.refl _) fun _ _ _ b hb _ _ => hb
  have hbelow : ∀ p ∈ held, p.ptr < h.heap_mapped_end := fun p hp => by
    cases hkind : p.pages with
    | false =>
      obtain ⟨b, hb, _, hptr, hpos, _⟩ := ho.block p hp hkind
      have := (hs.bounds hb).2
      omega
    | true =>
      have := (ho.page p hp hkind).2.1
      have := (pageBytes_spec p.size).2
      omega
  refine ⟨fun p hp hblock => ?_, fun p hp hpage => ?_,
    List.pairwise_cons.mpr ⟨fun p hp heq => ?_, ho.apart⟩, List.pairwise_cons.mpr ⟨fun p hp _ hpage => ?_, ho.pages⟩⟩
  · rcases List.mem_cons.mp hp with rfl | hp
    · cases hblock
    · exact ho'.block p hp hblock
  · rcases List.mem_cons.mp hp with rfl | hp
    · refine ⟨hs.spaced.bounds.1, hend, fun i hi _ => ?_⟩
      rintro ⟨b, hb, _, hhi⟩
      have := (hs.bounds hb).2
      have : i < b.addr + HEADER_SIZE + b.size := hhi
      dsimp only at hi
      omega
    · exact ho'.page p hp hpage
  · have := hbelow p hp
    dsimp only at heq
    omega
  · exact Or.inr (ho.page p hp hpage).2.1

end Program

/-- The invariant of the program. -/
def Inv (s : Program) : Prop := ∃ L, Sound s.arena L ∧ Outstanding s.arena s.held L

/-- A program gives back, makes larger and writes to nothing but what it holds. -/
def Act.Proper (s : Program) : Act → Prop
  | .alloc _ size | .allocZeroed _ size | .allocPages _ size => size < WORD
  | .calloc _ count size => count < WORD ∧ size < WORD
  | .realloc _ addr size => size < WORD ∧ (addr = 0 ∨ ∃ p ∈ s.held, p.ptr = addr)
  | .free addr => addr = 0 ∨ ∃ p ∈ s.held, p.ptr = addr
  | .store p off _ => p ∈ s.held ∧ off < p.size

/-- The address is not one of `w32_mem_alloc_pages`. -/
def Program.IsBlock (s : Program) (addr : Nat) : Prop := ∀ p ∈ s.held, p.ptr = addr → p.pages = false

/-- Nothing wraps, and no page allocation is taken for a block. -/
def Act.Safe (s : Program) : Act → Prop
  | .alloc _ size | .allocZeroed _ size => s.arena.HasRoom size
  | .calloc _ count size => count * size < WORD ∧ s.arena.HasRoom (count * size)
  | .realloc _ addr size => s.arena.HasRoom size ∧ s.IsBlock addr
  | .allocPages _ size => s.arena.HasPages size
  | .free addr => s.IsBlock addr
  | .store .. => True

section Steps

variable {s : Program} {L : List BlockList.Block} {r : Arena × Nat} {size addr : Nat}

theorem Inv.take (ho : Outstanding s.arena s.held L) (ha : Answer s.arena L size r) : Inv (s.take r size false) := by
  unfold Program.take
  cases ha with
  | refused h' L' hkeeps => exact ⟨L', hkeeps.sound, ho.keeps hkeeps (List.Sublist.refl _) fun _ _ _ b hb _ _ => hb⟩
  | given h' L' c hkeeps hused hfresh hroom hpos _ =>
    have htaken : ∀ p ∈ s.held, p.pages = false → ∀ b ∈ L, p.ptr = b.addr + HEADER_SIZE →
        b.used = true → b ∈ L ∨ b = c :=
      fun _ _ _ b hb _ _ => Or.inl hb
    have hc := (hkeeps.busy c hused).mpr (Or.inr rfl)
    have ho' := ho.keeps hkeeps (List.Sublist.refl _) htaken
    rw [if_neg (by simp only [HEADER_SIZE]; omega)]
    exact ⟨L', hkeeps.sound, ho'.cons_block hc hused hpos hroom
      (ho.fresh hkeeps ho' (List.Sublist.refl _) htaken hc hfresh hpos)⟩

theorem Outstanding.without (ho : Outstanding s.arena s.held L) {b : BlockList.Block}
    (hptr : addr = b.addr + HEADER_SIZE) :
    ∀ p ∈ s.without addr, p.pages = false → ∀ c ∈ L, p.ptr = c.addr + HEADER_SIZE → c.used = true → c ∈ L ∧ c ≠ b := by
  intro p hp _ c hc hcptr _
  refine ⟨hc, ?_⟩
  rintro rfl
  exact BlockList.ne_of_mem_eraseP ho.apart hp (hcptr.trans hptr.symm)

theorem Inv.free (hs : Sound s.arena L) (ho : Outstanding s.arena s.held L)
    (haddr : addr = 0 ∨ ∃ p ∈ s.held, p.ptr = addr)
    (hblock : s.IsBlock addr) : Inv ⟨w32_mem_free addr s.arena, s.without addr⟩ := by
  rcases haddr with rfl | ⟨p, hp, hptr⟩
  · have hsub : (s.without 0).Sublist s.held := List.eraseP_sublist
    rw [w32_mem_free, if_pos rfl]
    exact ⟨L, hs, ho.keeps hs.refl hsub fun _ _ _ b hb _ _ => hb⟩
  · obtain ⟨b, hb, hu, hbptr, hpos, _⟩ := ho.block p hp (hblock p hp hptr)
    obtain ⟨L', hkeeps⟩ := w32_mem_free_spec hs hb hpos
    rw [← hbptr, hptr] at hkeeps
    exact ⟨L', hkeeps.sound, ho.keeps hkeeps List.eraseP_sublist (ho.without (hptr.symm.trans hbptr))⟩

theorem Inv.realloc (hs : Sound s.arena L) (ho : Outstanding s.arena s.held L) {frames : Nat}
    (haddr : addr = 0 ∨ ∃ p ∈ s.held, p.ptr = addr) (hroom : s.arena.HasRoom size) (hblock : s.IsBlock addr) :
    Inv (s.step (.realloc frames addr size)) := by
  unfold Program.step
  dsimp only
  split
  · next hzero =>
    subst hzero
    rw [show w32_mem_realloc frames 0 size s.arena = w32_mem_alloc frames size s.arena from if_pos rfl]
    exact Inv.take ho (w32_mem_alloc_spec hs hroom)
  · next hne =>
    split
    · next hsize =>
      rw [show (w32_mem_realloc frames addr size s.arena).1 = w32_mem_free addr s.arena by
        rw [w32_mem_realloc, if_neg hne, if_pos hsize]]
      exact Inv.free hs ho haddr hblock
    · next hsize =>
      obtain ⟨p, hp, rfl⟩ := haddr.resolve_left hne
      obtain ⟨b, hb, hu, hptr, hpos, _⟩ := ho.block p hp (hblock p hp rfl)
      have hmoved : Moved s.arena L b size (w32_mem_realloc frames p.ptr size s.arena) :=
        hptr ▸ w32_mem_realloc_spec hs hb hu hpos hsize (Or.inr hroom)
      generalize w32_mem_realloc frames p.ptr size s.arena = r at hmoved ⊢
      have hsub : (s.without p.ptr).Sublist s.held := List.eraseP_sublist
      cases hmoved with
      | stayed hfits =>
        rw [if_neg (show b.addr + HEADER_SIZE ≠ 0 by simp only [HEADER_SIZE]; omega)]
        exact ⟨L, hs, (ho.keeps hs.refl hsub fun _ _ _ c hc _ _ => hc).cons_block hb hu hpos hfits
          fun q hq heq => BlockList.ne_of_mem_eraseP ho.apart hq (heq.trans hptr.symm)⟩
      | refused h' L' hkeeps =>
        exact ⟨L', hkeeps.sound, ho.keeps hkeeps (List.Sublist.refl _) fun _ _ _ c hc _ _ => hc⟩
      | moved h' L' c hkeeps hused hfresh hfits hcpos _ _ =>
        rw [if_neg (show c.addr + HEADER_SIZE ≠ 0 by simp only [HEADER_SIZE]; omega)]
        have htaken : ∀ q ∈ s.without p.ptr, q.pages = false → ∀ d ∈ L, q.ptr = d.addr + HEADER_SIZE → d.used = true →
            (d ∈ L ∨ d = c) ∧ d ≠ b := fun q hq hkind d hd hdptr hdu =>
          ⟨Or.inl hd, (ho.without hptr q hq hkind d hd hdptr hdu).2⟩
        have hc := (hkeeps.busy c hused).mpr ⟨Or.inr rfl, fun heq => hfresh (heq ▸ hb)⟩
        have ho' := ho.keeps hkeeps hsub htaken
        exact ⟨L', hkeeps.sound, ho'.cons_block hc hused hcpos hfits (ho.fresh hkeeps ho' hsub htaken hc hfresh hcpos)⟩

theorem Inv.step {a : Act} (hs : Inv s) (hproper : a.Proper s) (hsafe : a.Safe s) : Inv (s.step a) := by
  obtain ⟨L, hsound, ho⟩ := hs
  cases a with
  | alloc frames size => exact Inv.take ho (w32_mem_alloc_spec hsound hsafe)
  | allocZeroed frames size => exact Inv.take ho (w32_mem_alloc_zeroed_spec hsound hsafe)
  | calloc frames count size =>
    have hproduct : crt_calloc frames count size s.arena = w32_mem_alloc_zeroed frames (count * size) s.arena := by
      rw [crt_calloc, Nat.mod_eq_of_lt hsafe.1]
    show Inv (s.take (crt_calloc frames count size s.arena) (count * size) false)
    rw [hproduct]
    exact Inv.take ho (w32_mem_alloc_zeroed_spec hsound hsafe.2)
  | realloc frames addr size => exact Inv.realloc hsound ho hproper.2 hsafe.1 hsafe.2
  | allocPages frames size =>
    show Inv (s.take (w32_mem_alloc_pages frames size s.arena) size true)
    rcases hcall : w32_mem_alloc_pages frames size s.arena with ⟨h', p⟩
    obtain ⟨hkeeps, hgiven⟩ := w32_mem_alloc_pages_spec hsound hsafe hcall
    refine ⟨L, hkeeps.sound, ?_⟩
    unfold Program.take
    split
    · exact ho.keeps hkeeps (List.Sublist.refl _) fun _ _ _ b hb _ _ => hb
    · next hne =>
      obtain ⟨rfl, hend⟩ := hgiven hne
      exact ho.cons_pages hsound hkeeps hend
  | free addr => exact Inv.free hsound ho hproper hsafe
  | store p off v =>
    obtain ⟨hp, hoff⟩ := hproper
    refine ⟨L, hsound.painted fun i hi => fillAt_outside ?_, ⟨ho.block, ho.page, ho.apart, ho.pages⟩⟩
    by_contra hin
    obtain rfl : i = p.ptr + off := by omega
    refine hi fun b hb hlo hhi => ?_
    cases hkind : p.pages with
    | false =>
      obtain ⟨c, hc, hu, hptr, _, hroom⟩ := ho.block p hp hkind
      exact hsound.payload hc hu (by omega) (by omega) b hb hlo hhi
    | true =>
      have := (pageBytes_spec p.size).1
      exact absurd ⟨b, hb, hlo, hhi⟩ ((ho.page p hp hkind).2.2 _ (Nat.le_add_right _ _) (by omega))

end Steps

/-- What is outstanding is pairwise disjoint, inside the arena and apart from
every free block, and `w32_mem_realloc` keeps the bytes both sizes have. -/
structure Promises (s : Program) : Prop where
  apart : s.held.Pairwise (fun p q => p.ptr + p.size ≤ q.ptr ∨ q.ptr + q.size ≤ p.ptr)
  inside : ∀ p ∈ s.held, WIN32_HEAP_BASE ≤ p.ptr ∧ p.ptr + p.size ≤ s.arena.heap_mapped_end
  free : ∃ L, w32_block.Seg s.arena.mem L 0 ∧ s.arena.heap_head = BlockList.Block.start L 0 ∧
    ∀ p ∈ s.held, ∀ b ∈ L, b.used = false → p.ptr + p.size ≤ b.addr ∨ b.addr + HEADER_SIZE + b.size ≤ p.ptr
  realloc : ∀ frames, ∀ p ∈ s.held, ∀ size ≠ 0, (Act.realloc frames p.ptr size).Safe s →
    (w32_mem_realloc frames p.ptr size s.arena).2 ≠ 0 → ∀ i < min p.size size,
      (w32_mem_realloc frames p.ptr size s.arena).1.mem ((w32_mem_realloc frames p.ptr size s.arena).2 + i) =
        s.arena.mem (p.ptr + i)

section Promises

variable {s : Program} {L : List BlockList.Block} {p : Held} {b : BlockList.Block}

theorem Outstanding.page_apart (ho : Outstanding s.arena s.held L) (hp : p ∈ s.held)
    (hpage : p.pages = true) (hb : b ∈ L) :
    p.ptr + pageBytes p.size ≤ b.addr ∨ b.addr + HEADER_SIZE + b.size ≤ p.ptr := by
  have hclear := (ho.page p hp hpage).2.2 (max p.ptr b.addr)
  have hpos := (pageBytes_spec p.size).2
  by_contra hboth
  refine hclear (by omega) (by omega) ⟨b, hb, by omega, ?_⟩
  show _ < b.addr + HEADER_SIZE + b.size
  simp only [HEADER_SIZE] at *
  omega

theorem Inv.promises (hs : Inv s) : Promises s := by
  obtain ⟨L, hsound, ho⟩ := hs
  have hapart := hsound.spaced.apart
  refine ⟨?_, fun p hp => ?_, ⟨L, hsound.seg, hsound.head, fun p hp b hb hfree => ?_⟩, ?_⟩
  · refine (ho.apart.and ho.pages).imp_of_mem fun {p q} hp hq hpq => ?_
    obtain ⟨hne, hpages⟩ := hpq
    have hpsize := (pageBytes_spec p.size).1
    have hqsize := (pageBytes_spec q.size).1
    cases hpk : p.pages <;> cases hqk : q.pages
    · obtain ⟨b, hb, _, hbptr, _, hbroom⟩ := ho.block p hp hpk
      obtain ⟨c, hc, _, hcptr, _, hcroom⟩ := ho.block q hq hqk
      rcases hapart b hb c hc with rfl | hlt | hlt
      · exact absurd (hbptr.trans hcptr.symm) hne
      · have : b.addr + HEADER_SIZE + b.size ≤ c.addr := hlt
        omega
      · have : c.addr + HEADER_SIZE + c.size ≤ b.addr := hlt
        omega
    · obtain ⟨b, hb, _, hbptr, _, hbroom⟩ := ho.block p hp hpk
      have := ho.page_apart hq hqk hb
      omega
    · obtain ⟨b, hb, _, hbptr, _, hbroom⟩ := ho.block q hq hqk
      have := ho.page_apart hp hpk hb
      omega
    · have := hpages hpk hqk
      omega
  · cases hkind : p.pages with
    | false =>
      obtain ⟨b, hb, _, hptr, _, hroom⟩ := ho.block p hp hkind
      have := hsound.bounds hb
      omega
    | true =>
      have := ho.page p hp hkind
      have := (pageBytes_spec p.size).1
      omega
  · cases hkind : p.pages with
    | false =>
      obtain ⟨c, hc, hu, hptr, _, hroom⟩ := ho.block p hp hkind
      rcases hapart c hc b hb with rfl | hlt | hlt
      · rw [hfree] at hu
        cases hu
      · have : c.addr + HEADER_SIZE + c.size ≤ b.addr := hlt
        omega
      · have : b.addr + HEADER_SIZE + b.size ≤ c.addr := hlt
        omega
    | true =>
      have := ho.page_apart hp hkind hb
      have := (pageBytes_spec p.size).1
      omega
  · intro frames p hp size hsize hsafe hsome i hi
    obtain ⟨b, hb, hu, hptr, hpos, hroom⟩ := ho.block p hp (hsafe.2 p hp rfl)
    have hmoved : Moved s.arena L b size (w32_mem_realloc frames p.ptr size s.arena) :=
      hptr ▸ w32_mem_realloc_spec hsound hb hu hpos hsize (Or.inr hsafe.1)
    generalize w32_mem_realloc frames p.ptr size s.arena = r at hmoved hsome ⊢
    cases hmoved with
    | stayed hfits => rw [hptr]
    | refused h' L' hkeeps => exact absurd rfl hsome
    | moved h' L' c _ _ _ _ _ _ hbytes =>
      rw [hptr]
      exact hbytes i (by omega)

end Promises

/-! ## Runs -/

/-- The machine of the arena and its program. -/
def programs : Machine Program Act Unit where
  step s a := (s.step a, ())

/-- A program's arena before its first call. -/
def Program.fresh (m : Mem) : Program := ⟨⟨m, 0, WIN32_HEAP_BASE⟩, []⟩

instance (s : Program) (addr : Nat) : Decidable (s.IsBlock addr) :=
  inferInstanceAs (Decidable (∀ p ∈ s.held, p.ptr = addr → p.pages = false))

instance (s : Program) : (a : Act) → Decidable (a.Proper s ∧ a.Safe s)
  | .alloc _ size | .allocZeroed _ size => inferInstanceAs (Decidable (size < WORD ∧ s.arena.HasRoom size))
  | .allocPages _ size => inferInstanceAs (Decidable (size < WORD ∧ s.arena.HasPages size))
  | .calloc _ count size => inferInstanceAs (Decidable ((count < WORD ∧ size < WORD) ∧ count * size < WORD ∧ s.arena.HasRoom (count * size)))
  | .realloc _ addr size => inferInstanceAs (Decidable ((size < WORD ∧ (addr = 0 ∨ ∃ p ∈ s.held, p.ptr = addr)) ∧
      s.arena.HasRoom size ∧ s.IsBlock addr))
  | .free addr => inferInstanceAs (Decidable ((addr = 0 ∨ ∃ p ∈ s.held, p.ptr = addr) ∧ s.IsBlock addr))
  | .store p off _ => inferInstanceAs (Decidable ((p ∈ s.held ∧ off < p.size) ∧ True))

/-- **Whatever the program does**, as long as nothing wraps and no page
allocation is taken for a block. -/
theorem heap_disjoint (m : Mem) (as : List Act)
    (has : programs.Guarded (fun s a => a.Proper s ∧ a.Safe s) (Program.fresh m) as) :
    Promises (programs.run (Program.fresh m) as) := by
  have hstart : Inv (Program.fresh m) :=
      ⟨[], ⟨trivial, rfl, Nat.le_refl _, show WIN32_HEAP_BASE % PAGE_SIZE = 0 from rfl,
    show WIN32_HEAP_BASE ≤ HEAP_TOP by decide⟩, nofun, nofun, List.Pairwise.nil, List.Pairwise.nil⟩
  exact (programs.invariant_of_step (fun s a hs ha => Inv.step hs ha.1 ha.2) as _ hstart has).promises

/-- A request that finds one page of two, a block, pages behind it; the block
moves past them, and its place is given to another. -/
theorem heap_disjoint_small :
    Promises (programs.run (Program.fresh fun _ => 0)
      [.alloc 1 5000, .calloc 4 3 700, .allocPages 2 4096, .store ⟨0x6000100C, 2100, false⟩ 9 7,
        .realloc 3 0x6000100C 9000, .allocZeroed 0 64, .free 0x6000300C]) :=
  heap_disjoint (fun _ => 0) _ (by decide)

/-- The product of `calloc` wraps: a program asks for 0x40000001 elements of four
bytes, and gets four bytes. -/
theorem heap_not_disjoint : ¬ ∀ (m : Mem) (as : List Act),
    programs.Guarded (fun s a => a.Proper s) (Program.fresh m) as → Promises (programs.run (Program.fresh m) as) := by
  intro h
  have hall := (h (fun _ => 0) [.calloc 1 0x40000001 4] ⟨show _ ∧ _ by decide, trivial⟩).inside
  have hrun : (programs.run (Program.fresh fun _ => 0) [.calloc 1 0x40000001 4]).held =
      [⟨WIN32_HEAP_BASE + 12, 0x100000004, false⟩] ∧
      (programs.run (Program.fresh fun _ => 0) [.calloc 1 0x40000001 4]).arena.heap_mapped_end =
        WIN32_HEAP_BASE + 0x1000 := by
    decide
  have hend := (hall ⟨WIN32_HEAP_BASE + 12, 0x100000004, false⟩ (by rw [hrun.1]; simp)).2
  exact absurd hend (by decide)

end NovarisOS.Win32
