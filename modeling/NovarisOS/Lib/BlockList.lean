/-
NovarisOS.Lib.BlockList — a heap as a list of blocks, each with its header in
front of it in the memory it manages.

A `Header` says how long its block is, whether the block is taken and where
the next header is, 0 at the end; a `HeaderFormat` says how that lies in
memory.
-/
import NovarisOS.Lib.Links
import NovarisOS.Lib.Mem

namespace NovarisOS.BlockList

/-- What stands in front of a block. -/
structure Header where
  size : Nat
  used : Nat
  next : Nat
  deriving DecidableEq

/-- How a header lies in memory. -/
structure HeaderFormat where
  length : Nat
  limit : Nat
  read : Mem → Nat → Header
  write : Mem → Nat → Header → Mem
  pos : 0 < length
  read_write : ∀ m a (h : Header), h.size < limit → h.used < 2 → h.next < limit → read (write m a h) a = h
  read_congr : ∀ m m' a, (∀ i, a ≤ i → i < a + length → m' i = m i) → read m' a = read m a
  write_outside : ∀ m a h i, i < a ∨ a + length ≤ i → write m a h i = m i

/-- A block: the address of its header, and how many bytes follow that. -/
structure Block where
  addr : Nat
  size : Nat
  used : Bool
  deriving DecidableEq

namespace Block

/-- The header of a block, with the next one behind it. -/
def header (b : Block) (next : Nat) : Header := ⟨b.size, if b.used then 1 else 0, next⟩

/-- The first address behind a block. -/
def stop (F : HeaderFormat) (b : Block) : Nat := b.addr + F.length + b.size

/-- Where the first header of a list is. -/
def start : List Block → Nat → Nat
  | [], last => last
  | b :: _, _ => b.addr

end Block

namespace HeaderFormat

open Block

variable (F : HeaderFormat)

/-- The headers of `L` are in memory, each with the address of the next, and
the last with `last`. -/
def Seg (m : Mem) : List Block → Nat → Prop
  | [], _ => True
  | b :: rest, last => F.read m b.addr = b.header (start rest last) ∧ Seg m rest last

/-- The blocks lie one after the other between `lo` and `hi`. -/
def Laid (R : Nat → Nat → Prop) : Nat → List Block → Nat → Prop
  | lo, [], hi => R lo hi
  | lo, b :: rest, hi => R lo b.addr ∧ Laid R (b.stop F) rest hi

/-- Without gaps. -/
abbrev Tiles : Nat → List Block → Nat → Prop := F.Laid (· = ·)

/-- Perhaps with gaps. -/
abbrev Spaced : Nat → List Block → Nat → Prop := F.Laid (· ≤ ·)

/-! ## The list -/

section Lists

variable {F} {R : Nat → Nat → Prop} {m m' : Mem} {L rest : List Block} {b c : Block} {lo hi last : Nat}

theorem seg_append : ∀ (pre : List Block), F.Seg m (pre ++ b :: rest) last ↔
    F.Seg m pre b.addr ∧ F.read m b.addr = b.header (start rest last) ∧ F.Seg m rest last := by
  intro pre
  induction pre with
  | nil => simp [Seg]
  | cons c pre ih =>
    have hstart : start (pre ++ b :: rest) last = start pre b.addr := by
      cases pre <;> rfl
    simp only [List.cons_append, Seg, ih, hstart]
    exact and_assoc.symm

theorem laid_append : ∀ (pre : List Block) (lo : Nat), F.Laid R lo (pre ++ b :: rest) hi ↔
    F.Laid R lo pre b.addr ∧ F.Laid R (b.stop F) rest hi := by
  intro pre
  induction pre with
  | nil => exact fun lo => Iff.rfl
  | cons c pre ih =>
    intro lo
    simp only [List.cons_append, Laid, ih]
    exact and_assoc.symm

theorem Seg.congr (h : F.Seg m L last)
    (hsame : ∀ b ∈ L, ∀ i, b.addr ≤ i → i < b.addr + F.length → m' i = m i) : F.Seg m' L last := by
  induction L with
  | nil => trivial
  | cons b rest ih =>
    refine ⟨?_, ih h.2 fun c hc => hsame c (List.mem_cons_of_mem _ hc)⟩
    rw [F.read_congr m m' b.addr (hsame b (List.mem_cons_self ..))]
    exact h.1

theorem Seg.write {a : Nat} {x : Header} (h : F.Seg m L last)
    (hapart : ∀ b ∈ L, b.addr + F.length ≤ a ∨ a + F.length ≤ b.addr) : F.Seg (F.write m a x) L last :=
  h.congr fun b hb i hlo hhi => F.write_outside m a x i (by have := hapart b hb; omega)

theorem Laid.spaced (hR : ∀ a b, R a b → a ≤ b) : ∀ {L : List Block} {lo : Nat}, F.Laid R lo L hi → F.Spaced lo L hi
  | [], _, h => hR _ _ h
  | _ :: _, _, h => ⟨hR _ _ h.1, h.2.spaced hR⟩

theorem Spaced.bounds : ∀ {L : List Block} {lo : Nat}, F.Spaced lo L hi → lo ≤ hi ∧
    ∀ b ∈ L, lo ≤ b.addr ∧ b.stop F ≤ hi
  | [], _, h => ⟨h, by simp⟩
  | c :: rest, lo, h => by
    obtain ⟨hle, hall⟩ := Spaced.bounds h.2
    have hfirst := h.1
    have hstop : c.addr ≤ c.stop F := by unfold Block.stop; omega
    refine ⟨by omega, fun b hb => ?_⟩
    cases hb with
    | head => exact ⟨hfirst, hle⟩
    | tail _ hb =>
      have := hall b hb
      omega

theorem Spaced.apart : ∀ {L : List Block} {lo : Nat}, F.Spaced lo L hi → ∀ b ∈ L, ∀ c ∈ L,
    b = c ∨ b.stop F ≤ c.addr ∨ c.stop F ≤ b.addr
  | d :: rest, _, h, b, hb, c, hc => by
    have hall := (Spaced.bounds h.2).2
    rcases List.mem_cons.mp hb with rfl | hb' <;> rcases List.mem_cons.mp hc with rfl | hc'
    · exact Or.inl rfl
    · exact Or.inr (Or.inl (hall c hc').1)
    · exact Or.inr (Or.inr (hall b hb').1)
    · exact Spaced.apart h.2 b hb' c hc'

theorem Spaced.eq_of_addr (h : F.Spaced lo L hi) (hb : b ∈ L) (hc : c ∈ L) (haddr : b.addr = c.addr) : b = c := by
  have hpos := F.pos
  rcases h.apart b hb c hc with heq | hlt | hlt
  · exact heq
  · unfold Block.stop at hlt
    omega
  · unfold Block.stop at hlt
    omega

theorem Spaced.around {pre : List Block} (h : F.Spaced lo (pre ++ b :: rest) hi) :
    (∀ c ∈ pre, c.stop F ≤ b.addr) ∧ ∀ c ∈ rest, b.stop F ≤ c.addr := by
  obtain ⟨hpre, hrest⟩ := (laid_append pre lo).mp h
  exact ⟨fun c hc => ((Spaced.bounds hpre).2 c hc).2, fun c hc => ((Spaced.bounds hrest).2 c hc).1⟩

theorem Spaced.length_le : ∀ {L : List Block} {lo : Nat}, F.Spaced lo L hi → L.length ≤ hi - lo
  | [], _, _ => Nat.zero_le _
  | b :: rest, lo, h => by
    have hrest := Spaced.length_le h.2
    have hfirst := h.1
    have hpos := F.pos
    have hle := (Spaced.bounds h.2).1
    unfold Block.stop at hrest hle
    simp only [List.length_cons]
    omega

theorem Laid.widen {a : Nat} (hR : R hi a) (htrans : ∀ x, R x hi → R hi a → R x a) :
    ∀ {L : List Block} {lo : Nat}, F.Laid R lo L hi → F.Laid R lo L a
  | [], lo, h => htrans lo h hR
  | _ :: _, _, h => ⟨h.1, h.2.widen hR htrans⟩

theorem Laid.extend (hlaid : F.Laid R lo L hi) {a n : Nat} {u : Bool} (hR : R hi a)
    (hrefl : R (a + F.length + n) (a + F.length + n))
    (htrans : ∀ x, R x hi → R hi a → R x a) : F.Laid R lo (L ++ [⟨a, n, u⟩]) (a + F.length + n) :=
  (laid_append L lo).mpr ⟨hlaid.widen hR htrans, hrefl⟩

end Lists

/-! ## Walking -/

/-- A pointer, where 0 is none. -/
def ptr (a : Nat) : Option Nat := if a = 0 then none else some a

/-- `block->next`. -/
def next (m : Mem) (a : Nat) : Option Nat := ptr (F.read m a).next

variable {F} in
theorem Seg.links {m : Mem} : ∀ {L : List Block}, F.Seg m L 0 → (∀ b ∈ L, b.addr ≠ 0) →
    Links (F.next m) (ptr (start L 0)) (L.map Block.addr)
  | [], _, _ => rfl
  | b :: rest, h, hne => by
    refine ⟨if_neg (hne b (List.mem_cons_self ..)), ?_⟩
    have hnext : F.next m b.addr = ptr (start rest 0) := by
      unfold HeaderFormat.next
      rw [h.1]
      rfl
    rw [hnext]
    exact h.2.links fun c hc => hne c (List.mem_cons_of_mem _ hc)

/-- The first free block with room for `n` bytes. -/
def search (m : Mem) (n fuel head : Nat) : Option Nat :=
  seek (F.next m) (fun a => decide ((F.read m a).used = 0) && decide (n ≤ (F.read m a).size)) fuel (ptr head)

/-- The last block. -/
def tail (m : Mem) (fuel head : Nat) : Option Nat :=
  seek (F.next m) (fun a => decide ((F.read m a).next = 0)) fuel (ptr head)

section Walking

variable {F} {m : Mem} {L : List Block} {n fuel : Nat}

theorem Seg.read (h : F.Seg m L 0) {b : Block} (hb : b ∈ L) : ∃ next, F.read m b.addr = b.header next := by
  obtain ⟨pre, rest, rfl⟩ := List.append_of_mem hb
  exact ⟨_, ((seg_append pre).mp h).2.1⟩

theorem Seg.search_some (h : F.Seg m L 0) (hne : ∀ b ∈ L, b.addr ≠ 0) (hfuel : L.length ≤ fuel) {a : Nat}
    (hfind : F.search m n fuel (start L 0) = some a) : ∃ b ∈ L, b.addr = a ∧ b.used = false ∧ n ≤ b.size := by
  rw [search, seek_eq_find? _ (h.links hne) (by simpa using hfuel)] at hfind
  obtain ⟨b, hb, rfl⟩ := List.mem_map.mp (List.mem_of_find?_eq_some hfind)
  have hfits := List.find?_some hfind
  obtain ⟨next, hread⟩ := h.read hb
  rw [hread] at hfits
  refine ⟨b, hb, rfl, ?_, ?_⟩
  · cases hu : b.used with
    | false => rfl
    | true => simp [Block.header, hu] at hfits
  · exact of_decide_eq_true (Bool.and_eq_true _ _ ▸ hfits : _ ∧ _).2

theorem Seg.tail (h : F.Seg m (L ++ [b]) 0) (hne : ∀ c ∈ L ++ [b], c.addr ≠ 0) (hfuel : L.length < fuel) :
    F.tail m fuel (start (L ++ [b]) 0) = some b.addr := by
  rw [HeaderFormat.tail, seek_eq_find? _ (h.links hne) (by simp; omega)]
  clear hfuel
  induction L with
  | nil =>
    have hread : F.read m b.addr = b.header 0 := h.1
    simp [hread, Block.header]
  | cons c L ih =>
    obtain ⟨hc, hrest⟩ := h
    have hnext : start (L ++ [b]) 0 ≠ 0 := by
      cases L with
      | nil => exact hne b (by simp)
      | cons d L => exact hne d (by simp)
    have hno : decide ((F.read m c.addr).next = 0) = false := by
      rw [hc]
      exact decide_eq_false hnext
    rw [List.cons_append, List.map_cons, List.find?_cons, hno]
    exact ih hrest fun d hd => hne d (List.mem_cons_of_mem _ hd)

end Walking

/-! ## What every edit keeps -/

section Edits

variable {F} {R : Nat → Nat → Prop} {m m' m'' : Mem} {L L' L'' : List Block} {b x : Block} {lo hi : Nat}

/-- What may lie between two blocks. -/
structure Gap (R : Nat → Nat → Prop) : Prop where
  refl : ∀ a, R a a
  trans : ∀ a b c, R a b → R b c → R a c
  le : ∀ a b, R a b → a ≤ b

theorem Gap.eq : Gap (· = ·) := ⟨fun _ => rfl, fun _ _ _ => Eq.trans, fun _ _ => Nat.le_of_eq⟩

theorem Gap.mono : Gap (· ≤ ·) := ⟨Nat.le_refl, fun _ _ _ => Nat.le_trans, fun _ _ => id⟩

variable (F) in
/-- Some block of the list has byte `i`, in its header or behind it. -/
def Covers (L : List Block) (i : Nat) : Prop := ∃ b ∈ L, b.addr ≤ i ∧ i < b.stop F

variable (F) in
/-- Byte `i` belongs to whoever took its block, or to none. -/
def Theirs (L : List Block) (i : Nat) : Prop :=
  ∀ b ∈ L, b.addr ≤ i → i < b.stop F → b.used = true ∧ b.addr + F.length ≤ i

variable (F) in
/-- The list `L` became `L'`, where the blocks with `taken` are the taken ones. -/
structure Becomes (R : Nat → Nat → Prop) (lo hi : Nat) (L L' : List Block) (m' : Mem)
    (taken : Block → Prop) : Prop where
  seg : F.Seg m' L' 0
  laid : F.Laid R lo L' hi
  start : start L' 0 = start L 0
  cover : ∀ i, F.Covers L' i → F.Covers L i
  busy : ∀ x : Block, x.used = true → (x ∈ L' ↔ taken x)

theorem Spaced.theirs (h : F.Spaced lo L hi) (hx : x ∈ L) (hu : x.used = true) {i : Nat} (hlo : x.addr + F.length ≤ i)
    (hhi : i < x.stop F) : F.Theirs L i := by
  intro b hb hblo hbhi
  rcases h.apart b hb x hx with rfl | hlt | hlt
  · exact ⟨hu, hlo⟩
  · omega
  · omega

theorem Theirs.outside {i : Nat} (h : F.Theirs L i) (hb : b ∈ L) : i < b.addr ∨ b.addr + F.length ≤ i := by
  by_contra hin
  have := (h b hb (by omega) (by unfold Block.stop; omega)).2
  omega

theorem Theirs.outside_free {i : Nat} (h : F.Theirs L i) (hb : b ∈ L) (hu : b.used = false) :
    i < b.addr ∨ b.stop F ≤ i := by
  by_contra hin
  have := (h b hb (by omega) (by omega)).1
  rw [hu] at this
  cases this

end Edits

/-! ## Taking -/

/-- The block at `a` is taken. If there would be `slack` bytes or more in a
block behind the first `n` of it, that much is cut off. -/
def carve (slack : Nat) (m : Mem) (a n : Nat) : Mem :=
  let b := F.read m a
  if (n + F.length + slack) % F.limit ≤ b.size then
    let rest := (a + F.length + n) % F.limit
    F.write (F.write m rest ⟨(b.size + 2 * F.limit - n - F.length) % F.limit, 0, b.next⟩) a ⟨n, 1, rest⟩
  else F.write m a { b with used := 1 }

section Taking

variable {F} {R : Nat → Nat → Prop} {m : Mem} {L pre rest : List Block} {b c : Block} {a n lo hi slack : Nat}

theorem Seg.put (hpre : F.Seg m pre a) (hrest : F.Seg m rest 0) (hbefore : ∀ d ∈ pre, d.addr + F.length ≤ a)
    (hbehind : ∀ d ∈ rest, a + F.length ≤ d.addr) (haddr : c.addr = a) (hsize : c.size < F.limit)
    (hstart : start rest 0 < F.limit) : F.Seg (F.write m a (c.header (start rest 0))) (pre ++ c :: rest) 0 := by
  subst haddr
  refine (seg_append pre).mpr ⟨hpre.write fun d hd => Or.inl (hbefore d hd), ?_,
    hrest.write fun d hd => Or.inr (hbehind d hd)⟩
  refine F.read_write _ _ _ hsize ?_ hstart
  show (if c.used then 1 else 0) < 2
  split <;> decide

theorem Spaced.start_lt (hsp : F.Spaced lo L hi) (hhi : hi < F.limit) : start L 0 < F.limit := by
  cases L with
  | nil => exact Nat.zero_lt_of_lt hhi
  | cons d rest =>
    have hd := ((Spaced.bounds hsp).2 d (by simp)).2
    unfold Block.stop at hd
    show d.addr < F.limit
    omega

theorem start_append (d : Block) (hd : d.addr = b.addr) : ∀ pre :
    List Block, start (pre ++ d :: rest) 0 = start (pre ++ b :: L) 0
  | [] => hd
  | _ :: _ => rfl

/-- What a block put in the place of another one, with perhaps a free one
behind it, makes of the list. -/
theorem carve_split (hR : Gap R) (hseg : F.Seg m (pre ++ b :: rest) 0) (hlaid : F.Laid R lo (pre ++ b :: rest) hi)
    (hhi : hi < F.limit) (hfree : b.used = false) (hroom : n + F.length ≤ b.size) :
    F.Becomes R lo hi (pre ++ b :: rest)
      (pre ++ ⟨b.addr, n, true⟩ :: ⟨b.addr + F.length + n, b.size - n - F.length, false⟩ :: rest)
      (F.write (F.write m (b.addr + F.length + n) ⟨b.size - n - F.length, 0, start rest 0⟩) b.addr
        ⟨n, 1, b.addr + F.length + n⟩) (fun x => x ∈ pre ++ b :: rest ∨ x = ⟨b.addr, n, true⟩) := by
  obtain ⟨hpre, hread, hrest⟩ := (seg_append pre).mp hseg
  obtain ⟨hlpre, hlrest⟩ := (laid_append pre lo).mp hlaid
  obtain ⟨hbefore, hbehind⟩ := (hlaid.spaced hR.le).around
  have hstop := ((Spaced.bounds (hlaid.spaced hR.le)).2 b (by simp)).2
  have hstart := (hlrest.spaced hR.le).start_lt hhi
  unfold Block.stop at hstop hbefore hbehind hlrest
  have hnil : F.Seg m [] (b.addr + F.length + n) := trivial
  -- the free block first, in front of the rest
  have hrest' : F.Seg (F.write m (b.addr + F.length + n) ⟨b.size - n - F.length, 0, start rest 0⟩)
      (⟨b.addr + F.length + n, b.size - n - F.length, false⟩ :: rest) 0 := by
    refine hnil.put (c := ⟨b.addr + F.length + n, b.size - n - F.length, false⟩) hrest nofun
        (fun e he => ?_) rfl ?_ hstart
    · have := hbehind e he
      omega
    · show b.size - n - F.length < F.limit
      omega
  have hpre' : F.Seg (F.write m (b.addr + F.length + n) ⟨b.size - n - F.length, 0, start rest 0⟩) pre b.addr :=
    hpre.write fun e he => by
      have := hbefore e he
      omega
  refine ⟨hpre'.put (c := ⟨b.addr, n, true⟩) hrest' (fun e he => ?_) (fun e he => ?_) rfl ?_ ?_, ?_, ?_, ?_, ?_⟩
  · have := hbefore e he
    omega
  · rcases List.mem_cons.mp he with rfl | he
    · show b.addr + F.length ≤ b.addr + F.length + n
      omega
    · have := hbehind e he
      omega
  · show n < F.limit
    omega
  · show b.addr + F.length + n < F.limit
    omega
  · refine (laid_append pre lo).mpr ⟨hlpre, hR.refl _, ?_⟩
    unfold Block.stop
    rw [show b.addr + F.length + n + F.length + (b.size - n - F.length) = b.addr + F.length + b.size by omega]
    exact hlrest
  · exact start_append (b := b) ⟨b.addr, n, true⟩ rfl pre
  · rintro i ⟨x, hx, hxlo, hxhi⟩
    simp only [List.mem_append, List.mem_cons] at hx
    rcases hx with hx | rfl | rfl | hx
    · exact ⟨x, by simp [hx], hxlo, hxhi⟩
    · refine ⟨b, by simp, hxlo, ?_⟩
      unfold Block.stop at hxhi ⊢
      dsimp only at hxhi
      omega
    · refine ⟨b, by simp, ?_, ?_⟩
      · dsimp only at hxlo
        omega
      · unfold Block.stop at hxhi ⊢
        dsimp only at hxhi
        omega
    · exact ⟨x, by simp [hx], hxlo, hxhi⟩
  · intro x hx
    have hxb : x ≠ b := by
      rintro rfl
      rw [hfree] at hx
      cases hx
    have hxd : x ≠ ⟨b.addr + F.length + n, b.size - n - F.length, false⟩ := by
      rintro rfl
      cases hx
    simp only [List.mem_append, List.mem_cons, hxb, hxd, false_or]
    tauto

theorem mark_spec (hR : Gap R) (hseg : F.Seg m (pre ++ b :: rest) 0) (hlaid : F.Laid R lo (pre ++ b :: rest) hi)
    (hhi : hi < F.limit) (u : Bool) : F.Becomes R lo hi (pre ++ b :: rest) (pre ++ { b with used := u } :: rest)
      (F.write m b.addr ⟨b.size, if u then 1 else 0, start rest 0⟩)
      (fun x => x ∈ pre ∨ x ∈ rest ∨ u = true ∧ x = { b with used := u }) := by
  obtain ⟨hpre, hread, hrest⟩ := (seg_append pre).mp hseg
  obtain ⟨hlpre, hlrest⟩ := (laid_append pre lo).mp hlaid
  obtain ⟨hbefore, hbehind⟩ := (hlaid.spaced hR.le).around
  have hstop := ((Spaced.bounds (hlaid.spaced hR.le)).2 b (by simp)).2
  unfold Block.stop at hstop hbefore hbehind
  refine ⟨hpre.put (c := { b with used := u }) hrest (fun e he => ?_) (fun e he => ?_) rfl ?_
    ((hlrest.spaced hR.le).start_lt hhi), (laid_append pre lo).mpr ⟨hlpre, hlrest⟩,
    start_append (b := b) { b with used := u } rfl pre, ?_, ?_⟩
  · have := hbefore e he
    omega
  · have := hbehind e he
    omega
  · show b.size < F.limit
    omega
  · rintro i ⟨x, hx, hxlo, hxhi⟩
    simp only [List.mem_append, List.mem_cons] at hx
    rcases hx with hx | rfl | hx
    · exact ⟨x, by simp [hx], hxlo, hxhi⟩
    · exact ⟨b, by simp, hxlo, hxhi⟩
    · exact ⟨x, by simp [hx], hxlo, hxhi⟩
  · intro x hx
    simp only [List.mem_append, List.mem_cons]
    constructor
    · rintro (hmem | rfl | hmem)
      · exact Or.inl hmem
      · exact Or.inr (Or.inr ⟨hx, rfl⟩)
      · exact Or.inr (Or.inl hmem)
    · rintro (hmem | hmem | ⟨-, rfl⟩)
      · exact Or.inl hmem
      · exact Or.inr (Or.inr hmem)
      · exact Or.inr (Or.inl rfl)

/-- What taking the block `b` leaves behind: `c` is what is taken now. -/
structure Carved (R : Nat → Nat → Prop) (lo hi n : Nat) (m m' : Mem) (L L' : List Block) (b c : Block) : Prop where
  becomes : F.Becomes R lo hi L L' m' (fun x => x ∈ L ∨ x = c)
  addr : c.addr = b.addr
  used : c.used = true
  room : n ≤ c.size
  inside : c.stop F ≤ b.stop F
  kept : ∀ i, F.Theirs L i → m' i = m i

theorem carve_spec (slack : Nat) (hR : Gap R) (hseg : F.Seg m L 0) (hlaid : F.Laid R lo L hi)
    (hhi : hi + slack < F.limit)
    (hb : b ∈ L) (hfree : b.used = false) (hroom : n ≤ b.size) :
    ∃ L' c, Carved (F := F) R lo hi n m (F.carve slack m b.addr n) L L' b c := by
  have hout : ∀ i, F.Theirs L i → i < b.addr ∨ b.stop F ≤ i := fun i hi => hi.outside_free hb hfree
  have hstop := ((Spaced.bounds (hlaid.spaced hR.le)).2 b hb).2
  obtain ⟨pre, rest, rfl⟩ := List.append_of_mem hb
  have hread := ((seg_append pre).mp hseg).2.1
  unfold Block.stop at hout hstop
  unfold carve
  rw [hread]
  dsimp only [Block.header]
  rw [Nat.mod_eq_of_lt (show n + F.length + slack < F.limit by omega),
    Nat.mod_eq_of_lt (show b.addr + F.length + n < F.limit by omega)]
  by_cases hsplit : n + F.length + slack ≤ b.size
  · have hsize : (b.size + 2 * F.limit - n - F.length) % F.limit = b.size - n - F.length := by
      rw [show b.size + 2 * F.limit - n - F.length = b.size - n - F.length + F.limit * 2 by omega,
        Nat.add_mul_mod_self_left, Nat.mod_eq_of_lt (by omega)]
    rw [if_pos hsplit, hsize]
    refine ⟨_, ⟨b.addr, n, true⟩, carve_split hR hseg hlaid (by omega) hfree (by omega), rfl, rfl,
        Nat.le_refl n, ?_, ?_⟩
    · unfold Block.stop
      dsimp only
      omega
    · intro i hi
      have := hout i hi
      rw [F.write_outside _ _ _ _ (by omega), F.write_outside _ _ _ _ (by omega)]
  · rw [if_neg hsplit]
    have hmark := mark_spec hR hseg hlaid (by omega) true
    refine ⟨_, { b with used := true },
        ⟨hmark.seg, hmark.laid, hmark.start, hmark.cover, fun x hx => ?_⟩, rfl, rfl, hroom,
      Nat.le_refl _, ?_⟩
    · have hxb : x ≠ b := by
        rintro rfl
        rw [hfree] at hx
        cases hx
      rw [hmark.busy x hx]
      simp only [List.mem_append, List.mem_cons, hxb, false_or]
      tauto
    · intro i hi
      have := hout i hi
      rw [F.write_outside _ _ _ _ (by omega)]

end Taking

/-! ## Adding at the end -/

/-- A new block behind the last one; `head` is 0 if there is none yet. -/
def append (m : Mem) (fuel head a : Nat) (h : Header) : Mem × Nat :=
  let m := F.write m a { h with next := 0 }
  if head = 0 then (m, a)
  else
    match F.tail m fuel head with
    | none => (m, head)
    | some t => (F.write m t { F.read m t with next := a }, head)

section Adding

variable {F} {R : Nat → Nat → Prop} {m : Mem} {L : List Block} {b c : Block} {lo hi hi' fuel : Nat}

theorem append_spec (hR : Gap R) (hseg : F.Seg m L 0) (hlaid : F.Laid R lo L hi) (hlo : 0 < lo)
    (hfuel : L.length ≤ fuel)
    (hgap : R hi b.addr) (hlimit : b.stop F < F.limit) {m' : Mem} {head : Nat}
    (happend : F.append m fuel (start L 0) b.addr (b.header 0) = (m', head)) :
    F.Seg m' (L ++ [b]) 0 ∧ F.Laid R lo (L ++ [b]) (b.stop F) ∧ head = start (L ++ [b]) 0 ∧
      ∀ i, (∀ c ∈ L, i < c.addr ∨ c.addr + F.length ≤ i) → i < b.addr ∨ b.addr + F.length ≤ i → m' i = m i := by
  have hsp := hlaid.spaced hR.le
  obtain ⟨hle, hbound⟩ := Spaced.bounds hsp
  have hgap' := hR.le _ _ hgap
  have hnew : F.Laid R lo (L ++ [b]) (b.stop F) :=
    hlaid.extend hgap (hR.refl _) fun x hx hxb => hR.trans _ _ _ hx hxb
  have hsize : b.size < F.limit := by
    unfold Block.stop at hlimit
    omega
  have hnil : F.Seg m [] b.addr := trivial
  have hend : F.Seg m [] 0 := trivial
  have hone : F.Seg (F.write m b.addr (b.header 0)) [b] 0 :=
    hnil.put hend nofun nofun rfl hsize (Nat.zero_lt_of_lt hsize)
  unfold Block.stop at hbound hlimit
  unfold HeaderFormat.append at happend
  rcases List.eq_nil_or_concat' L with rfl | ⟨pre, t, rfl⟩
  · obtain ⟨rfl, rfl⟩ := Prod.mk.inj happend
    exact ⟨hone, hnew, rfl, fun i _ hi => F.write_outside _ _ _ _ hi⟩
  · have hne : ∀ c ∈ pre ++ [t], c.addr ≠ 0 := fun c hc => by
      have := (hbound c hc).1
      omega
    have hhead : start (pre ++ [t]) 0 ≠ 0 := by
      cases pre with
      | nil => exact hne t (by simp)
      | cons d pre => exact hne d (by simp)
    have hseg' : F.Seg (F.write m b.addr (b.header 0)) (pre ++ [t]) 0 := hseg.write fun c hc => by
      have := (hbound c hc).2
      omega
    obtain ⟨hpre, ht, -⟩ := (seg_append pre).mp hseg'
    rw [if_neg hhead, show F.write m b.addr { b.header 0 with next := 0 } = F.write m b.addr (b.header 0) from rfl,
      hseg'.tail hne (by rwa [List.length_append] at hfuel)] at happend
    dsimp only at happend
    rw [ht] at happend
    obtain ⟨rfl, rfl⟩ := Prod.mk.inj happend
    have hbefore := hsp.around.1
    have htb := hbound t (by simp)
    unfold Block.stop at hbefore
    refine ⟨?_, hnew, ?_, fun i hL hb => ?_⟩
    · rw [List.append_assoc]
      refine hpre.put (c := t) hone (fun c hc => ?_) (fun c hc => ?_) rfl ?_ ?_
      · have := hbefore c hc
        omega
      · obtain rfl := List.mem_singleton.mp hc
        omega
      · omega
      · show b.addr < F.limit
        omega
    · cases pre <;> rfl
    · rw [F.write_outside _ _ _ _ (hL t (by simp)), F.write_outside _ _ _ _ hb]

end Adding

/-! ## Giving back -/

/-- Free neighbours become one block, from the block at `cur` on. -/
def coalesce : Nat → Mem → Nat → Mem
  | 0, m, _ => m
  | fuel + 1, m, cur =>
    if cur = 0 then m
    else
      let c := F.read m cur
      if c.next = 0 then m
      else
        let d := F.read m c.next
        if c.used = 0 ∧ d.used = 0 ∧ c.next = (cur + F.length + c.size) % F.limit then
          coalesce fuel (F.write m cur { c with size := (c.size + F.length + d.size) % F.limit, next := d.next }) cur
        else coalesce fuel m c.next

section Giving

variable {F} {R : Nat → Nat → Prop} {m m' m'' : Mem} {L L' L'' pre rest : List Block}
  {b c d : Block} {lo hi fuel : Nat}
  {p q : Block → Prop}

theorem Becomes.refl (hseg : F.Seg m L 0) (hlaid : F.Laid R lo L hi) : F.Becomes R lo hi L L m (· ∈ L) :=
  ⟨hseg, hlaid, rfl, fun _ => id, fun _ _ => Iff.rfl⟩

theorem Becomes.trans (h : F.Becomes R lo hi L L' m' p) (h' : F.Becomes R lo hi L' L'' m'' (· ∈ L')) :
    F.Becomes R lo hi L L'' m'' p :=
  ⟨h'.seg, h'.laid, h'.start.trans h.start, fun i hi => h.cover i (h'.cover i hi),
    fun x hx => (h'.busy x hx).trans (h.busy x hx)⟩

theorem merge_spec (hR : Gap R) (hseg : F.Seg m (pre ++ c :: d :: rest) 0)
    (hlaid : F.Laid R lo (pre ++ c :: d :: rest) hi)
    (hhi : hi < F.limit) (hc : c.used = false) (hd : d.used = false) (hadj : d.addr = c.stop F) :
    F.Becomes R lo hi (pre ++ c :: d :: rest) (pre ++ { c with size := c.size + F.length + d.size } :: rest)
      (F.write m c.addr ⟨c.size + F.length + d.size, 0, start rest 0⟩) (· ∈ pre ++ c :: d :: rest) := by
  obtain ⟨hpre, -, -, hrest⟩ := (seg_append pre).mp hseg
  obtain ⟨hlpre, -, hlrest⟩ := (laid_append pre lo).mp hlaid
  obtain ⟨hbefore, hbehind⟩ := (hlaid.spaced hR.le).around
  have hstop := ((Spaced.bounds (hlaid.spaced hR.le)).2 d (by simp)).2
  have hmerged : Block.stop F { c with size := c.size + F.length + d.size } = d.stop F := by
    unfold Block.stop at hadj ⊢
    dsimp only
    omega
  have hput := hpre.put (c := { c with size := c.size + F.length + d.size }) (a := c.addr) hrest (fun e he => ?_)
    (fun e he => ?_) rfl ?_ ((hlrest.spaced hR.le).start_lt hhi)
  · rw [show (Block.header { c with size := c.size + F.length + d.size } (start rest 0)) =
      ⟨c.size + F.length + d.size, 0, start rest 0⟩ by simp [Block.header, hc]] at hput
    refine ⟨hput, (laid_append pre lo).mpr ⟨hlpre, hmerged ▸ hlrest⟩,
      start_append (b := c) { c with size := c.size + F.length + d.size } rfl pre, ?_, ?_⟩
    · rintro i ⟨x, hx, hxlo, hxhi⟩
      simp only [List.mem_append, List.mem_cons] at hx
      rcases hx with hx | rfl | hx
      · exact ⟨x, by simp [hx], hxlo, hxhi⟩
      · rw [hmerged] at hxhi
        by_cases hic : i < c.stop F
        · exact ⟨c, by simp, hxlo, hic⟩
        · exact ⟨d, by simp, by omega, hxhi⟩
      · exact ⟨x, by simp [hx], hxlo, hxhi⟩
    · intro x hx
      have hfree : ∀ y : Block, y.used = false → x ≠ y := by
        rintro y hy rfl
        rw [hx] at hy
        cases hy
      have hxm : x ≠ { c with size := c.size + F.length + d.size } := hfree _ hc
      simp only [List.mem_append, List.mem_cons, hfree c hc, hfree d hd, hxm, false_or]
  · have := hbefore e he
    unfold Block.stop at this
    omega
  · have := hbehind e (by simp [he])
    unfold Block.stop at this
    omega
  · show c.size + F.length + d.size < F.limit
    unfold Block.stop at hadj hstop
    omega

theorem header_used (b : Block) (a : Nat) : (b.header a).used = 0 ↔ b.used = false := by
  unfold Block.header
  cases b.used <;> simp

theorem coalesce_step {a : Nat} (hc : F.read m c.addr = c.header d.addr) (hd : F.read m d.addr = d.header a)
    (hc0 : c.addr ≠ 0) (hd0 : d.addr ≠ 0) (hcd : c.stop F ≤ d.addr) (hlimit : d.stop F < F.limit) :
    F.coalesce (fuel + 1) m c.addr =
      if c.used = false ∧ d.used = false ∧ d.addr = c.stop F then
        F.coalesce fuel (F.write m c.addr ⟨c.size + F.length + d.size, 0, a⟩) c.addr
      else F.coalesce fuel m d.addr := by
  have hstop : (c.addr + F.length + c.size) % F.limit = c.stop F := Nat.mod_eq_of_lt (by unfold Block.stop at *; omega)
  have hcond : ((c.header d.addr).used = 0 ∧ (d.header a).used = 0 ∧
      d.addr = (c.addr + F.length + (c.header d.addr).size) % F.limit) ↔
      c.used = false ∧ d.used = false ∧ d.addr = c.stop F := by
    rw [header_used, header_used]
    show _ ∧ _ ∧ d.addr = (c.addr + F.length + c.size) % F.limit ↔ _
    rw [hstop]
  rw [coalesce, if_neg hc0, hc]
  rw [if_neg (show (c.header d.addr).next ≠ 0 from hd0), show (c.header d.addr).next = d.addr from rfl, hd]
  by_cases hmerge : c.used = false ∧ d.used = false ∧ d.addr = c.stop F
  · have hsize : (c.size + F.length + d.size) % F.limit = c.size + F.length + d.size :=
      Nat.mod_eq_of_lt (by unfold Block.stop at *; omega)
    rw [if_pos (hcond.mpr hmerge), if_pos hmerge]
    show F.coalesce fuel (F.write m c.addr
        ⟨(c.size + F.length + d.size) % F.limit, (c.header d.addr).used, a⟩) c.addr = _
    rw [hsize, (header_used c d.addr).mpr hmerge.1]
  · rw [if_neg (mt hcond.mp hmerge), if_neg hmerge]

theorem coalesce_from (hR : Gap R) (hlo : 0 < lo) (hhi : hi < F.limit) (hseg : F.Seg m (pre ++ rest) 0)
    (hlaid : F.Laid R lo (pre ++ rest) hi) :
    ∃ L', F.Becomes R lo hi (pre ++ rest) L' (F.coalesce fuel m (start rest 0)) (· ∈ pre ++ rest) ∧
      ∀ i, (∀ b ∈ pre ++ rest, i < b.addr ∨ b.addr + F.length ≤ i) → F.coalesce fuel m (start rest 0) i = m i := by
  induction fuel generalizing m pre rest with
  | zero => exact ⟨_, Becomes.refl hseg hlaid, fun _ _ => rfl⟩
  | succ fuel ih =>
    have hbound := (Spaced.bounds (hlaid.spaced hR.le)).2
    match rest with
    | [] => exact ⟨_, Becomes.refl hseg hlaid, fun _ _ => rfl⟩
    | [c] =>
      have hstay : F.coalesce (fuel + 1) m (start [c] 0) = m := by
        have hc := (hbound c (by simp)).1
        show F.coalesce (fuel + 1) m c.addr = m
        rw [coalesce, if_neg (by omega), ((seg_append pre).mp hseg).2.1]
        rfl
      rw [hstay]
      exact ⟨_, Becomes.refl hseg hlaid, fun _ _ => rfl⟩
    | c :: d :: rest =>
      have hc := hbound c (by simp)
      have hd := hbound d (by simp)
      obtain ⟨-, hreadc, hreadd, -⟩ := (seg_append pre).mp hseg
      have hstep : F.coalesce (fuel + 1) m c.addr = _ := coalesce_step hreadc hreadd (by omega) (by omega)
        ((hlaid.spaced hR.le).around.2 d (by simp)) (by omega)
      show ∃ L', F.Becomes R lo hi _ L' (F.coalesce (fuel + 1) m c.addr) _ ∧ ∀ i, _ →
          F.coalesce (fuel + 1) m c.addr i = m i
      rw [hstep]
      split
      · next hcond =>
        obtain ⟨hcf, hdf, hadj⟩ := hcond
        have hmerge := merge_spec hR hseg hlaid hhi hcf hdf hadj
        obtain ⟨L', hL', hkept⟩ := ih hmerge.seg hmerge.laid
        refine ⟨L', hmerge.trans hL', fun i hi => ?_⟩
        rw [show F.coalesce fuel _ c.addr i = _ from hkept i fun b hb => ?_]
        · exact F.write_outside _ _ _ _ (hi c (by simp))
        · simp only [List.mem_append, List.mem_cons] at hb
          rcases hb with hb | rfl | hb
          · exact hi b (by simp [hb])
          · exact hi c (by simp)
          · exact hi b (by simp [hb])
      · have hsame : pre ++ c :: d :: rest = (pre ++ [c]) ++ d :: rest := by simp
        rw [hsame] at hseg hlaid ⊢
        exact ih hseg hlaid

theorem coalesce_spec (hR : Gap R) (hlo : 0 < lo) (hhi : hi < F.limit) (hseg : F.Seg m L 0)
    (hlaid : F.Laid R lo L hi) :
    ∃ L', F.Becomes R lo hi L L' (F.coalesce fuel m (start L 0)) (· ∈ L) ∧
      ∀ i, (∀ b ∈ L, i < b.addr ∨ b.addr + F.length ≤ i) → F.coalesce fuel m (start L 0) i = m i := by
  have hnil : F.Seg m ([] ++ L) 0 := hseg
  exact coalesce_from hR hlo hhi hnil hlaid

/-- The block at `a` is given back. -/
def release (m : Mem) (fuel head a : Nat) : Mem :=
  F.coalesce fuel (F.write m a { F.read m a with used := 0 }) head

theorem release_spec (fuel : Nat) (hR : Gap R) (hlo : 0 < lo) (hhi : hi < F.limit)
    (hseg : F.Seg m L 0) (hlaid : F.Laid R lo L hi)
    (hb : b ∈ L) : ∃ L', F.Becomes R lo hi L L' (F.release m fuel (start L 0) b.addr) (fun x => x ∈ L ∧ x ≠ b) ∧
      ∀ i, F.Theirs L i → F.release m fuel (start L 0) b.addr i = m i := by
  have hsp := hlaid.spaced hR.le
  have hpos := F.pos
  have hself : ∀ c : Block, c.stop F ≤ c.addr → False := fun c hc => by
    unfold Block.stop at hc
    omega
  obtain ⟨pre, rest, rfl⟩ := List.append_of_mem hb
  obtain ⟨hbefore, hbehind⟩ := hsp.around
  have hread := ((seg_append pre).mp hseg).2.1
  have hmark := mark_spec hR hseg hlaid hhi false
  obtain ⟨L', hL', hkept⟩ := coalesce_spec (F := F) hR hlo hhi hmark.seg hmark.laid
  rw [hmark.start] at hL' hkept
  have hfree : F.release m fuel (start (pre ++ b :: rest) 0) b.addr =
      F.coalesce fuel (F.write m b.addr ⟨b.size, 0, start rest 0⟩) (start (pre ++ b :: rest) 0) := by
    rw [release, hread]
    rfl
  rw [hfree]
  refine ⟨L', ⟨hL'.seg, hL'.laid, hL'.start.trans hmark.start, fun i hi => hmark.cover i (hL'.cover i hi),
    fun x hx => ?_⟩, fun i hi => ?_⟩
  · rw [hL'.busy x hx, hmark.busy x hx]
    simp only [List.mem_append, List.mem_cons, Bool.false_eq_true, false_and, or_false]
    constructor
    · rintro (hmem | hmem)
      · exact ⟨Or.inl hmem, fun heq => hself x (heq ▸ hbefore x hmem)⟩
      · exact ⟨Or.inr (Or.inr hmem), fun heq => hself x (heq ▸ hbehind x hmem)⟩
    · rintro ⟨hmem | hmem | hmem, hne⟩
      · exact Or.inl hmem
      · exact absurd hmem hne
      · exact Or.inr hmem
  · refine (hkept i fun c hc => ?_).trans (F.write_outside _ _ _ _ (hi.outside hb))
    simp only [List.mem_append, List.mem_cons] at hc
    rcases hc with hc | rfl | hc
    · exact hi.outside (by simp [hc])
    · exact (hi.outside hb : i < b.addr ∨ b.addr + F.length ≤ i)
    · exact hi.outside (by simp [hc])

end Giving

end HeaderFormat

/-- With its entry erased, no other has the key. -/
theorem ne_of_mem_eraseP {α β : Type*} [DecidableEq β] {f : α → β} {k : β} {q : α} :
    ∀ {l : List α}, l.Pairwise (fun p q => f p ≠ f q) → q ∈ l.eraseP (f · = k) → f q ≠ k
  | [], _, hq => by simp at hq
  | p :: l, hpair, hq => by
    obtain ⟨hp, hrest⟩ := List.pairwise_cons.mp hpair
    by_cases hk : f p = k
    · rw [List.eraseP_cons_of_pos (by simpa using hk)] at hq
      exact fun heq => hp q hq (hk.trans heq.symm)
    · rw [List.eraseP_cons_of_neg (by simpa using hk)] at hq
      rcases List.mem_cons.mp hq with rfl | hq
      · exact hk
      · exact ne_of_mem_eraseP hrest hq

end NovarisOS.BlockList
