/-
NovarisOS.Fat32.Reread — what `populate` makes of a directory.

Slot by slot: the long name in front of slot `n` (`lfnAt`) and the entry that
slot `n` is (`readAt`). `populate` leaves the disk alone and makes a child of
every such entry, at the place of its slot, as long as the pool of nodes lasts
(`Stock`).

* `populate_keeps`
* `populate_children`
-/
import NovarisOS.Fat32.Slots
import NovarisOS.Fat32.Walks

namespace NovarisOS.Fat32

open Function (update_apply update_of_ne update_self)

variable {v : Vol} {fs fs' : Fs} {f f' : Nat → Nat} {d d' : Nat → Mem} {c n i k dir head : Nat}
  {l l' new : List Nat} {slot : Nat → Mem} {s s' : State} {lfn : Lfn}

/-! ## Entries -/

/-- The long name before slot `n`. -/
def lfnAt (slot : Nat → Mem) : Nat → Lfn
  | 0 => noLfn
  | n + 1 => (entryStep (lfnAt slot n) (slot n)).1

/-- The entry that `populate` finds in slot `n`. -/
def readAt (slot : Nat → Mem) (n : Nat) : Option DirEntry :=
  if Used slot n then (entryStep (lfnAt slot n) (slot n)).2 else none

theorem lfnAt_congr {slot' : Nat → Mem} (h : ∀ m < n, slot' m = slot m) :
    lfnAt slot' n = lfnAt slot n := by
  induction n with
  | zero => rfl
  | succ n ih => rw [lfnAt, lfnAt, ih fun m hm => h m (by omega), h n (by omega)]

theorem scan_append_zeros (lfn : Lfn) (xs ys : List Mem) (h : ∀ ent ∈ ys, ent 0 = ENTRY_END) :
    scan lfn (xs ++ ys) = scan lfn xs := by
  induction xs generalizing lfn with
  | nil =>
    cases ys with
    | nil => rfl
    | cons ent rest => simp [scan, h ent List.mem_cons_self]
  | cons ent rest ih => simp only [List.cons_append, scan, ih]

theorem Extended.entries (h : Extended v f f' d d' l new) (hcb : 0 < v.clusterBytes) :
    entries v d' (l ++ new) = entries v d l := by
  have hslots : Fat32.slots v d' (l ++ new) = Fat32.slots v d l ++
      (List.range' (slotCount v l) (slotCount v new)).map (slotAt v d l) := by
    rw [Fat32.slots, Fat32.slots, slotCount_append, List.range_add, List.map_append, List.range'_eq_map_range,
      funext h.slots]
  rw [Fat32.entries, Fat32.entries, hslots]
  refine scan_append_zeros noLfn _ _ fun ent hent => ?_
  obtain ⟨i, hi, rfl⟩ := List.mem_map.mp hent
  exact slotAt_end hcb (List.mem_range'_1.mp hi).1

/-! ## The pool -/

/-- What the pool of nodes has: so many free ones, and for more so many blocks
and the answers of `kmalloc`. -/
structure Stock where
  free : Nat
  blocks : Nat
  grants : List Bool

def State.stock (s : State) : Stock := ⟨s.freeList.length, s.blocks, s.grants⟩

/-- A node is taken, if there is one. -/
def Stock.take (p : Stock) : Bool × Stock :=
  if p.free = 0 then
    if p.blocks ≥ VFS_MAX_BLOCKS then (false, p)
    else
      match p.grants with
      | [] => (false, p)
      | false :: grants => (false, { p with grants := grants })
      | true :: grants => (true, ⟨VFS_NODES_PER_BLOCK - 1, p.blocks + 1, grants⟩)
  else (true, { p with free := p.free - 1 })

/-- Up to so many nodes are taken, until there is none. -/
def Stock.drain : Nat → Stock → Stock
  | 0, p => p
  | n + 1, p =>
      match p.take with
      | (false, p) => p
      | (true, p) => Stock.drain n p

theorem nodeAlloc_stock (s : State) :
    ((nodeAlloc s).1.isSome, (nodeAlloc s).2.stock) = s.stock.take := by
  rw [Stock.take]
  rcases nodeAlloc_cases s with ⟨m, rest, hl, heq⟩ | ⟨m, rest, grants, hl, hmax, hg, hb, heq⟩ |
    ⟨grants, hl, heq, hwhy⟩
  · rw [heq]
    simp [State.stock, State.set, hl]
  · have hlen : rest.length = VFS_NODES_PER_BLOCK - 1 := by
      have := congrArg List.length hb
      simp only [newBlock, List.length_reverse, List.length_map, List.length_range, List.length_cons] at this
      omega
    rw [heq]
    simp [State.stock, State.set, hl, hg, hlen, Nat.not_le.mpr hmax]
  · rw [heq]
    rcases hwhy with ⟨hmax, rfl⟩ | ⟨hmax, ⟨hg, rfl⟩ | hg⟩
    · simp [State.stock, hl, hmax]
    · simp [State.stock, hl, hg]
    · simp [State.stock, hl, hg, Nat.not_le.mpr hmax]

theorem nodeAlloc_refused (h : nodeAlloc s = (none, s')) : ∃ grants, s' = { s with grants := grants } := by
  rcases nodeAlloc_cases s with ⟨m, rest, _, heq⟩ | ⟨m, rest, grants, _, _, _, _, heq⟩ | ⟨grants, _, heq, _⟩
  · exact absurd (heq.symm.trans h) (by simp)
  · exact absurd (heq.symm.trans h) (by simp)
  · exact ⟨grants, (Prod.mk.inj (h.symm.trans heq)).2⟩

/-! ## `populate` -/

theorem slots_drop (h : i < slotCount v l) :
    (slots v d l).drop i = slotAt v d l i :: (slots v d l).drop (i + 1) := by
  have hlen : (slots v d l).length = slotCount v l := by simp [slots]
  rw [List.drop_eq_getElem_cons (by omega)]
  simp [slots]

theorem populateFrom_keeps (g : v.Geometry) (hl : Chain v f head l) (left i : Nat) (lfn : Lfn)
    (s : State) (h : Reads v s.fs f d) (hhead : (s.nodes dir).fsCluster = head)
    (hpool : OutOfPool s dir) (hleft : slotCount v l < i + left) :
    Reads v (populateFrom v dir left i lfn s).fs f d ∧
    OutOfPool (populateFrom v dir left i lfn s) dir ∧
    (populateFrom v dir left i lfn s).stock =
      Stock.drain (scan lfn ((slots v d l).drop i)).length s.stock ∧
    ∃ ch, (populateFrom v dir left i lfn s).nodes dir = { s.nodes dir with children := ch } := by
  induction left generalizing i lfn s with
  | zero =>
    have hnone : (slots v d l).drop i = [] := List.drop_eq_nil_of_le (by simp [slots]; omega)
    rw [hnone]
    exact ⟨h, hpool, rfl, _, rfl⟩
  | succ left ih =>
    obtain ⟨fs₁, hat, h₁⟩ := dirEntryAt_spec g h hl i
    rw [populateFrom, hhead, hat]
    by_cases hi : i < slotCount v l
    · rw [if_pos hi, slots_drop hi, scan]
      simp only
      by_cases hend : slotAt v d l i 0 = ENTRY_END
      · rw [if_pos hend, if_pos hend]
        exact ⟨h₁, ⟨hpool.free, hpool.old⟩, rfl, _, rfl⟩
      · rw [if_neg hend, if_neg hend]
        rcases hstep : entryStep lfn (slotAt v d l i) with ⟨lfn', _ | e⟩
        · exact ih (i + 1) lfn' (s.onDisk fs₁) h₁ hhead ⟨hpool.free, hpool.old⟩ (by omega)
        · have hfs := entryKind_reads h₁ e
          rcases hk : entryKind v e fs₁ with ⟨kind, size, fs₂⟩
          rw [hk] at hfs
          subst hfs
          simp only [hk, List.length_cons, Stock.drain]
          have hstock := nodeAlloc_stock (s.onDisk fs₂)
          rw [show (s.onDisk fs₂).stock = s.stock from rfl] at hstock
          rw [← hstock]
          rcases ha : nodeAlloc (s.onDisk fs₂) with ⟨_ | m, s₁⟩
          · obtain ⟨grants, rfl⟩ := nodeAlloc_refused ha
            exact ⟨h₁, ⟨hpool.free, hpool.old⟩, rfl, _, rfl⟩
          · obtain ⟨-, hfs₁, hout₁, hne, hnode⟩ :=
              nodeAlloc_some ha (show OutOfPool (s.onDisk fs₂) dir from ⟨hpool.free, hpool.old⟩)
            have hdir : (dirAppend dir m (s₁.set m (entryNode e kind size (posOf v l i)))).nodes dir =
                { s.nodes dir with children := (s.nodes dir).children ++ [m] } := by
              simp only [dirAppend, State.set, update_self, update_of_ne hne, hnode]
              rfl
            obtain ⟨hr, hout, hstock, ch, hch⟩ := ih (i + 1) lfn'
              (dirAppend dir m (s₁.set m (entryNode e kind size (posOf v l i))))
              (show Reads v s₁.fs f d by rw [hfs₁]; exact h₁)
              (by rw [hdir]; exact hhead) ⟨hout₁.free, hout₁.old⟩ (by omega)
            refine ⟨hr, hout, hstock, ch, ?_⟩
            rw [hch, hdir]
    · have hnone : (slots v d l).drop i = [] := List.drop_eq_nil_of_le (by simp [slots]; omega)
      rw [if_neg hi, hnone]
      exact ⟨h₁, ⟨hpool.free, hpool.old⟩, rfl, _, rfl⟩

theorem populate_keeps (g : v.Geometry) (h : Reads v s.fs f d)
    (hl : Chain v f (s.nodes dir).fsCluster l) (hpool : OutOfPool s dir) :
    Reads v (populate v dir s).fs f d ∧ OutOfPool (populate v dir s) dir ∧
    (populate v dir s).stock = Stock.drain
      (if (s.nodes dir).populated then 0 else (entries v d l).length) s.stock ∧
    ∃ ch pop, (populate v dir s).nodes dir = { s.nodes dir with children := ch, populated := pop } := by
  rw [populate]
  by_cases hpop : (s.nodes dir).populated = true
  · rw [if_pos hpop, if_pos hpop]
    exact ⟨h, hpool, rfl, _, _, rfl⟩
  · rw [if_neg hpop, if_neg hpop]
    have hself : (s.set dir { s.nodes dir with populated := true }).nodes dir =
        { s.nodes dir with populated := true } := update_self ..
    obtain ⟨hr, hout, hstock, ch, hch⟩ := @populateFrom_keeps v f d dir _ l g hl v.slotRounds 0 noLfn
      (s.set dir { s.nodes dir with populated := true }) h (by rw [hself])
      ⟨hpool.free, hpool.old⟩ (by simpa using hl.slotCount_le)
    refine ⟨hr, hout, hstock, ch, true, ?_⟩
    rw [hself] at hch
    exact hch

/-- The names and the places of the children of a directory. -/
def State.kids (s : State) (dir : Nat) : List (List UInt8 × Pos) :=
  (s.nodes dir).children.map fun c =>
    ((s.nodes c).name, ⟨(s.nodes c).fsDirentLba, (s.nodes c).fsDirentOff⟩)

theorem mem_newBlock {blocks m : Nat} (h : m ∈ newBlock blocks) :
    m < (blocks + 1) * VFS_NODES_PER_BLOCK := by
  simp only [newBlock, List.mem_reverse, List.mem_map, List.mem_range] at h
  simp only [VFS_NODES_PER_BLOCK] at *
  omega

theorem newBlock_nodup (blocks : Nat) : (newBlock blocks).Nodup := by
  rw [newBlock, List.nodup_reverse]
  exact List.Nodup.map (fun a b hab => by simpa using hab) List.nodup_range

theorem nodeAlloc_given (h : nodeAlloc s = (some n, s')) :
    ∃ free rest blocks, free = n :: rest ∧ s'.freeList = rest ∧ s'.blocks = blocks ∧
      ((free = s.freeList ∧ blocks = s.blocks) ∨ (free = newBlock s.blocks ∧ blocks = s.blocks + 1)) := by
  rcases nodeAlloc_cases s with ⟨m, rest, hl, heq⟩ | ⟨m, rest, grants, hl, _, _, hb, heq⟩ | ⟨_, _, heq, _⟩
  · obtain ⟨rfl, rfl⟩ : m = n ∧ _ = s' := by simpa [heq] using h
    exact ⟨m :: rest, rest, _, rfl, rfl, rfl, .inl ⟨hl.symm, rfl⟩⟩
  · obtain ⟨rfl, rfl⟩ : m = n ∧ _ = s' := by simpa [heq] using h
    exact ⟨m :: rest, rest, _, rfl, rfl, rfl, .inr ⟨hb.symm, rfl⟩⟩
  · exact absurd (heq.symm.trans h) (by simp)

/-- The pool is a list without repetitions, and neither a directory nor its
children are in it. -/
structure Supply (s : State) (dir : Nat) : Prop where
  nodup : s.freeList.Nodup
  old : ∀ n ∈ s.freeList, n < s.blocks * VFS_NODES_PER_BLOCK
  own : OutOfPool s dir
  kids : ∀ c ∈ (s.nodes dir).children, OutOfPool s c

theorem nodeAlloc_supply (h : nodeAlloc s = (some n, s')) (hsup : Supply s dir) :
    Supply s' dir ∧ OutOfPool s' n := by
  have hkeep := fun c (hc : OutOfPool s c) => (nodeAlloc_some h hc).2.2.1
  have hnodes := (nodeAlloc_some h hsup.own).2.2.2.2
  obtain ⟨free, rest, blocks, hfree, hrest, hblocks, hcase⟩ := nodeAlloc_given h
  have hpool : free.Nodup ∧ ∀ m ∈ free, m < blocks * VFS_NODES_PER_BLOCK := by
    rcases hcase with ⟨rfl, rfl⟩ | ⟨rfl, rfl⟩
    · exact ⟨hsup.nodup, hsup.old⟩
    · exact ⟨newBlock_nodup s.blocks, fun m => mem_newBlock⟩
  rw [hfree, ← hrest, ← hblocks] at hpool
  obtain ⟨hout, hnodup⟩ := List.nodup_cons.mp hpool.1
  refine ⟨⟨hnodup, fun m hm => hpool.2 m (List.mem_cons_of_mem n hm), hkeep dir hsup.own,
    fun c hc => ?_⟩, hout, hpool.2 n List.mem_cons_self⟩
  rw [hnodes] at hc
  exact hkeep c (hsup.kids c hc)

theorem readAt_none_of_end {m : Nat} (hm : m ≤ k) (hend : slot m 0 = ENTRY_END) :
    readAt slot k = none := if_neg fun hused => hused m hm hend

theorem kids_append {e : DirEntry} {kind : Kind} {size : Nat} {pos : Pos} {s₁ : State}
    (ha : nodeAlloc s = (some n, s₁)) (hsup : Supply s dir) :
    Supply (dirAppend dir n (s₁.set n (entryNode e kind size pos))) dir ∧
    (dirAppend dir n (s₁.set n (entryNode e kind size pos))).kids dir =
      s.kids dir ++ [(e.name, pos)] := by
  obtain ⟨hsup₁, hout⟩ := nodeAlloc_supply ha hsup
  obtain ⟨-, -, -, hne, hnode⟩ := nodeAlloc_some ha hsup.own
  have hnodes : ∀ c, (dirAppend dir n (s₁.set n (entryNode e kind size pos))).nodes c =
      if c = dir then { s₁.nodes dir with children := (s₁.nodes dir).children ++ [n] }
      else if c = n then entryNode e kind size pos else s₁.nodes c := by
    intro c
    simp only [dirAppend, State.set, update_apply, if_neg hne]
  have hchildren : ((dirAppend dir n (s₁.set n (entryNode e kind size pos))).nodes dir).children =
      (s.nodes dir).children ++ [n] := by
    rw [hnodes, if_pos rfl, hnode]
  refine ⟨⟨hsup₁.nodup, hsup₁.old, ⟨hsup₁.own.free, hsup₁.own.old⟩, fun c hc => ?_⟩, ?_⟩
  · rw [hchildren] at hc
    rcases List.mem_append.mp hc with hc | hc
    · have := hsup₁.kids c (by rwa [hnode])
      exact ⟨this.free, this.old⟩
    · rw [List.mem_singleton.mp hc]
      exact ⟨hout.free, hout.old⟩
  · rw [State.kids, hchildren, List.map_append, State.kids]
    congr 1
    · refine List.map_congr_left fun c hc => ?_
      obtain ⟨-, -, -, hcn, hcnode⟩ := nodeAlloc_some ha (hsup.kids c hc)
      rw [hnodes, if_neg hcn, hcnode]
      split
      · rename_i hcd
        rw [hcd, hnode]
      · rfl
    · rw [List.map_singleton, hnodes, if_neg (Ne.symm hne), if_pos rfl]
      rfl

/-- With enough nodes in the pool, the loop of `populate` makes a child of
every entry from slot `i` on. -/
theorem populateFrom_children (g : v.Geometry) (hl : Chain v f head l) (left i : Nat) (s : State)
    (h : Reads v s.fs f d) (hhead : (s.nodes dir).fsCluster = head) (hsup : Supply s dir)
    (hleft : slotCount v l < i + left) (hbefore : ∀ m < i, slotAt v d l m 0 ≠ ENTRY_END)
    (hroom : (scan (lfnAt (slotAt v d l) i) ((slots v d l).drop i)).length ≤ s.room)
    (p : List UInt8 × Pos) :
    p ∈ (populateFrom v dir left i (lfnAt (slotAt v d l) i) s).kids dir ↔
      p ∈ s.kids dir ∨ ∃ j e, i ≤ j ∧ readAt (slotAt v d l) j = some e ∧ p = (e.name, posOf v l j) := by
  -- nothing is read behind an end mark
  have hstop : ∀ i, slotAt v d l i 0 = ENTRY_END →
      ¬ ∃ j e, i ≤ j ∧ readAt (slotAt v d l) j = some e ∧ p = (e.name, posOf v l j) := by
    rintro i hend ⟨j, e, hj, he, -⟩
    rw [readAt_none_of_end hj hend] at he
    exact absurd he (by simp)
  -- slot `i` and those behind it
  have hsplit : ∀ i, (∃ j e, i ≤ j ∧ readAt (slotAt v d l) j = some e ∧ p = (e.name, posOf v l j)) ↔
      (∃ e, readAt (slotAt v d l) i = some e ∧ p = (e.name, posOf v l i)) ∨
        ∃ j e, i + 1 ≤ j ∧ readAt (slotAt v d l) j = some e ∧ p = (e.name, posOf v l j) := by
    intro i
    constructor
    · rintro ⟨j, e, hj, hrest⟩
      rcases Nat.eq_or_lt_of_le hj with rfl | hj
      · exact .inl ⟨e, hrest⟩
      · exact .inr ⟨j, e, hj, hrest⟩
    · rintro (⟨e, hrest⟩ | ⟨j, e, hj, hrest⟩)
      · exact ⟨i, e, Nat.le_refl i, hrest⟩
      · exact ⟨j, e, by omega, hrest⟩
  induction left generalizing i s with
  | zero => exact absurd (slotAt_end g.cb_pos (Nat.le_refl _)) (hbefore (slotCount v l) (by omega))
  | succ left ih =>
    obtain ⟨fs₁, hat, h₁⟩ := dirEntryAt_spec g h hl i
    rw [populateFrom, hhead, hat]
    by_cases hi : i < slotCount v l
    · rw [slots_drop hi, scan] at hroom
      rw [if_pos hi]
      simp only
      by_cases hend : slotAt v d l i 0 = ENTRY_END
      · rw [if_pos hend]
        exact ⟨.inl, fun hp => hp.resolve_right (hstop i hend)⟩
      · rw [if_neg hend] at hroom ⊢
        have hbefore' : ∀ m < i + 1, slotAt v d l m 0 ≠ ENTRY_END := by
          intro m hm
          rcases Nat.lt_or_eq_of_le (Nat.le_of_lt_succ hm) with hm | rfl
          · exact hbefore m hm
          · exact hend
        have hread : readAt (slotAt v d l) i =
            (entryStep (lfnAt (slotAt v d l) i) (slotAt v d l i)).2 :=
          if_pos fun m hm => hbefore' m (Nat.lt_succ_of_le hm)
        have hnext : lfnAt (slotAt v d l) (i + 1) =
            (entryStep (lfnAt (slotAt v d l) i) (slotAt v d l i)).1 := rfl
        have hsup₁ : Supply (s.onDisk fs₁) dir :=
          ⟨hsup.nodup, hsup.old, ⟨hsup.own.free, hsup.own.old⟩,
            fun c hc => ⟨(hsup.kids c hc).free, (hsup.kids c hc).old⟩⟩
        rw [hsplit]
        rcases hstep : entryStep (lfnAt (slotAt v d l) i) (slotAt v d l i) with ⟨lfn', _ | e⟩
        · rw [hstep] at hroom hread hnext
          simp only at hroom hread hnext ⊢
          rw [← hnext] at hroom ⊢
          refine (ih (i + 1) (s.onDisk fs₁) h₁ hhead hsup₁ (by omega) hbefore' hroom).trans ?_
          rw [hread]
          simp only [reduceCtorEq, false_and, exists_false, false_or]
          rfl
        · have hfs := entryKind_reads h₁ e
          rcases hk : entryKind v e fs₁ with ⟨kind, size, fs₂⟩
          rw [hk] at hfs
          subst hfs
          rw [hstep] at hroom hread hnext
          simp only [hk] at hroom hread hnext ⊢
          rw [← hnext] at hroom ⊢
          rcases ha : nodeAlloc (s.onDisk fs₂) with ⟨_ | m, s₁⟩
          · have hnone := nodeAlloc_none ha
            rw [show (s.onDisk fs₂).room = s.room from rfl] at hnone
            simp [hnone] at hroom
          · obtain ⟨hroom₁, hfs₁, -, hne, hnode⟩ := nodeAlloc_some ha hsup₁.own
            obtain ⟨hsup₂, hkids⟩ := @kids_append m dir _ e kind size (posOf v l i) _ ha
              hsup₁
            have hhead' : ((dirAppend dir m (s₁.set m (entryNode e kind size (posOf v l i)))).nodes
                dir).fsCluster = head := by
              simp only [dirAppend, State.set, update_self, update_of_ne hne, hnode]
              exact hhead
            rw [show (s.onDisk fs₂).room = s.room from rfl] at hroom₁
            refine (ih (i + 1) (dirAppend dir m (s₁.set m (entryNode e kind size (posOf v l i))))
              (show Reads v s₁.fs f d by rw [hfs₁]; exact h₁) hhead' hsup₂ (by omega) hbefore'
              ?_).trans ?_
            · rw [List.length_cons] at hroom
              show _ ≤ s₁.room
              omega
            rw [hkids, hread]
            simp only [List.mem_append, List.mem_singleton, Option.some.injEq, exists_eq_left',
              or_assoc]
            rfl
    · rw [if_neg hi]
      exact ⟨.inl, fun hp => hp.resolve_right (hstop i (slotAt_end g.cb_pos (by omega)))⟩

theorem populate_children (g : v.Geometry) (h : Reads v s.fs f d)
    (hl : Chain v f (s.nodes dir).fsCluster l) (hunread : (s.nodes dir).populated = false)
    (hempty : (s.nodes dir).children = []) (hsup : Supply s dir)
    (hroom : (entries v d l).length ≤ s.room) (p : List UInt8 × Pos) :
    p ∈ (populate v dir s).kids dir ↔
      ∃ j e, readAt (slotAt v d l) j = some e ∧ p = (e.name, posOf v l j) := by
  have hself : (s.set dir { s.nodes dir with populated := true }).nodes dir =
      { s.nodes dir with populated := true } := update_self ..
  have hsup' : Supply (s.set dir { s.nodes dir with populated := true }) dir := by
    refine ⟨hsup.nodup, hsup.old, ⟨hsup.own.free, hsup.own.old⟩, fun c hc => ?_⟩
    rw [hself] at hc
    exact ⟨(hsup.kids c hc).free, (hsup.kids c hc).old⟩
  have hkids : (s.set dir { s.nodes dir with populated := true }).kids dir = [] := by
    rw [State.kids, hself]
    simp only [hempty, List.map_nil]
  rw [populate, if_neg (by simp [hunread])]
  refine (populateFrom_children g hl v.slotRounds 0
    (s.set dir { s.nodes dir with populated := true }) h (by rw [hself]) hsup'
    (by simpa using hl.slotCount_le) (by simp) hroom p).trans ?_
  simp only [hkids, List.not_mem_nil, false_or, Nat.zero_le, true_and]

end NovarisOS.Fat32
