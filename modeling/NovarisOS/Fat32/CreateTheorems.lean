/-
NovarisOS.Fat32.CreateTheorems — `fat_create`: the entries it writes, and what
it leaves behind when it fails.

With every request served there are two ways through `fat_create`. Either it
gives up before it has written anything but zeros to clusters that were free
(`Untouched`), or the name is in the directory (`Entered`), also when no node
or no cluster for a link's header is left afterwards.
-/
import NovarisOS.Fat32.Reread
import NovarisOS.Fat32.Covers

namespace NovarisOS.Fat32

open Function (update update_of_ne update_self)

variable {v : Vol} {fs fs' : Fs} {f f' : Nat → Nat} {d d' : Nat → Mem} {c n i k dir head : Nat}
  {l l' new : List Nat} {slot : Nat → Mem} {s s' : State} {node node' : Node}
  {name short11 : List UInt8} {ntflags sum : UInt8} {lfnCount : Nat} {short : Mem}

/-! ## A name in a directory -/

/-- The short entry of a file, a directory or a link. -/
structure ShortAt (short : Mem) (short11 : List UInt8) (ntflags : UInt8) : Prop where
  form : ShortForm short11
  name : short.bytes 0 11 = short11
  lfn : isLfn short = false
  label : short 11 &&& ATTR_VOLUME_ID = 0
  flags : short 12 = ntflags

theorem ShortAt.byte (h : ShortAt short short11 ntflags) : EntryByte (short 0) := by
  have hfirst := h.form.first
  rw [← h.name] at hfirst
  simpa [Mem.bytes] using hfirst

theorem shortEntry_at (h : ShortForm short11) (kind : Kind) (ntflags : UInt8)
    (cluster size date time : Nat) :
    ShortAt (entryOf (shortEntry short11 (attrOf kind) ntflags cluster size date time)) short11
      ntflags := by
  have hbyte : ∀ b, b < 13 → entryOf (shortEntry short11 (attrOf kind) ntflags cluster size date time) b =
      if b = 11 then attrOf kind else if b = 12 then ntflags else putBytes (fun _ => 0) short11 b := by
    intro b hb
    rw [entryOf, if_pos (by simp only [DIRENT_SIZE]; omega), shortEntry, stamp]
    rw [Mem.wr16_outside (by omega), Mem.wr16_outside (by omega), Mem.wr16_outside (by omega),
      Mem.wr16_outside (by omega), Mem.wr16_outside (by omega), Mem.wr32_outside (by omega),
      Mem.wr16_outside (by omega), Mem.wr16_outside (by omega)]
  refine ⟨h, ?_, ?_, ?_, ?_⟩
  · refine List.ext_getElem (by simp [Mem.bytes, h.length]) fun b h₁ h₂ => ?_
    simp only [Mem.bytes, List.length_map, List.length_range] at h₁
    simp only [Mem.bytes, List.getElem_map, List.getElem_range, Nat.zero_add]
    rw [hbyte b (by omega), if_neg (by omega), if_neg (by omega), putBytes, if_pos h₂,
      List.getD_eq_getElem _ _ h₂]
  · rw [isLfn, hbyte 11 (by omega), if_pos rfl]
    cases kind <;> rfl
  · rw [hbyte 11 (by omega), if_pos rfl]
    cases kind <;> rfl
  · rw [hbyte 12 (by omega), if_neg (by omega), if_pos rfl]

theorem ShortAt.congr {short' : Mem} (h : ShortAt short short11 ntflags)
    (hsame : ∀ b < 18, short' b = short b) : ShortAt short' short11 ntflags := by
  refine ⟨h.form, ?_, ?_, ?_, ?_⟩
  · rw [← h.name, Mem.bytes, Mem.bytes]
    refine List.map_congr_left fun b hb => hsame _ ?_
    have := List.mem_range.mp hb
    omega
  · rw [isLfn, hsame 11 (by omega)]
    exact h.lfn
  · rw [hsame 11 (by omega)]
    exact h.label
  · rw [hsame 12 (by omega)]
    exact h.flags

/-! ## What it reads back as -/

theorem lfnEntry_byte {ord : Nat} (h₁ : 1 ≤ ord) (h₂ : ord ≤ lfnCount) (hcount : lfnCount ≤ 10) :
    EntryByte (entryOf (lfnEntry name sum lfnCount ord) 0) := by
  rw [(@lfnEntry_head name sum lfnCount ord).1]
  have : ord = 1 ∨ ord = 2 ∨ ord = 3 ∨ ord = 4 ∨ ord = 5 ∨ ord = 6 ∨ ord = 7 ∨ ord = 8 ∨ ord = 9 ∨
    ord = 10 := by omega
  split
  · rcases this with rfl | rfl | rfl | rfl | rfl | rfl | rfl | rfl | rfl | rfl <;> decide
  · rcases this with rfl | rfl | rfl | rfl | rfl | rfl | rfl | rfl | rfl | rfl <;> decide

theorem withName_used (hbefore : ∀ m < k, slot m 0 ≠ ENTRY_END) (hcount : lfnCount ≤ 10)
    (hshort : EntryByte (short 0)) : Used (withName slot k lfnCount name sum short) (k + lfnCount) := by
  intro m hm
  rw [withName]
  split
  · exact (lfnEntry_byte (by omega) (by omega) hcount).1
  · split
    · exact hshort.1
    · exact hbefore m (by omega)

theorem withName_short : withName slot k lfnCount name sum short (k + lfnCount) = short := by
  rw [withName, if_neg (by omega), if_pos rfl]

theorem lfnAt_withName_before :
    lfnAt (withName slot k lfnCount name sum short) k = lfnAt slot k := by
  refine lfnAt_congr fun m hm => ?_
  rw [withName, if_neg (by omega), if_neg (by omega)]

theorem lfnAt_withName (hname : Plain name) (j : Nat) (hj : 1 ≤ j)
    (hle : j ≤ lfnSlotsFor name.length) :
    Pieces name sum (lfnSlotsFor name.length - j)
      (lfnAt (withName slot k (lfnSlotsFor name.length) name sum short) (k + j)) := by
  obtain ⟨-, hten, -, -⟩ := lfnSlotsFor_bounds hname
  have hentry : ∀ i, i < lfnSlotsFor name.length →
      lfnAt (withName slot k (lfnSlotsFor name.length) name sum short) (k + i + 1) =
        lfnStep (lfnAt (withName slot k (lfnSlotsFor name.length) name sum short) (k + i))
          (entryOf (lfnEntry name sum (lfnSlotsFor name.length) (lfnSlotsFor name.length - i))) := by
    intro i hi
    have hslot : withName slot k (lfnSlotsFor name.length) name sum short (k + i) =
        entryOf (lfnEntry name sum (lfnSlotsFor name.length) (lfnSlotsFor name.length - i)) := by
      rw [withName, if_pos (by omega), Nat.add_sub_cancel_left]
    have hfirst := @lfnEntry_byte name sum (lfnSlotsFor name.length)
      (lfnSlotsFor name.length - i) (by omega) (by omega) hten
    rw [lfnAt, hslot, entryStep, if_neg hfirst.2, if_pos]
    rw [isLfn, lfnEntry_head.2.1]
    rfl
  induction j with
  | zero => omega
  | succ j ih =>
    rw [← Nat.add_assoc, hentry j (by omega)]
    by_cases h0 : j = 0
    · subst h0
      rw [Nat.sub_zero]
      exact pieces_first hname sum _
    · have hp := ih (by omega) (by omega)
      rw [show lfnSlotsFor name.length - (j + 1) = lfnSlotsFor name.length - j - 1 by omega]
      exact pieces_next hname (by omega) (by omega) hp

/-- The long name in front of an entry, where `populate` takes it for the
entry's own. -/
def strayName (lfn : Lfn) (short11 : List UInt8) : Option (List UInt8) :=
  if lfn.count ≠ 0 ∧ lfn.len < VFS_NAME_MAX ∧ shortChecksum short11 = lfn.sum then
    some (cstr (lfn.text.bytes 0 lfn.len))
  else none

theorem entryName_at (lfn : Lfn) (h : ShortAt short short11 ntflags) :
    (entryName lfn short).1 = (strayName lfn short11).getD (shortToName short11 ntflags) := by
  rw [entryName, strayName, h.name, h.flags]
  split
  · rfl
  · rfl

/-- A name that is one of a file. -/
structure Proper (name : List UInt8) : Prop extends Plain name where
  noDot : name ≠ [DOT]
  noDots : name ≠ [DOT, DOT]

theorem readAt_name (hname : Proper name) (hused : Used slot n)
    (h : ShortAt (slot n) short11 ntflags) :
    (∃ e, readAt slot n = some e ∧ e.name = name) ↔
      (strayName (lfnAt slot n) short11).getD (shortToName short11 ntflags) = name := by
  rw [readAt, if_pos hused, entryStep, if_neg h.byte.2, h.lfn, if_neg (by simp), h.label,
    if_neg (by simp), ← entryName_at (lfnAt slot n) h]
  rcases hn : entryName (lfnAt slot n) (slot n) with ⟨nm, slots⟩
  simp only
  constructor
  · rintro ⟨e, he, rfl⟩
    split at he
    · simp at he
    · simp only [Option.some.injEq] at he
      rw [← he]
  · rintro rfl
    rw [if_neg (by simp [hname.ne, hname.noDot, hname.noDots])]
    exact ⟨_, rfl, rfl⟩

theorem long_name_back (hname : Plain name) :
    strayName (lfnAt (withName slot k (lfnSlotsFor name.length) name (shortChecksum short11) short)
      (k + lfnSlotsFor name.length)) short11 = some name := by
  obtain ⟨hone, -, -, -⟩ := lfnSlotsFor_bounds hname
  have hp := @lfnAt_withName k slot name (shortChecksum short11) short hname
    (lfnSlotsFor name.length) hone (Nat.le_refl _)
  rw [Nat.sub_self] at hp
  rw [strayName, if_pos ⟨by rw [hp.count]; omega, by rw [hp.len]; exact hname.short, hp.sum.symm⟩,
    hp.whole hname]

/-! ## The steps of `fat_create` -/

theorem Extended.freeClusters (h : Extended v f f' d d' l new) (hnodup : new.Nodup)
    (hhas : ∀ x ∈ new, v.has x = true) :
    freeClusters v f = freeClusters v f' + new.length := by
  have hperm : ((List.range v.totalClusters).filter fun i => decide (f (i + 2) = 0)).Perm
      (((List.range v.totalClusters).filter fun i => decide (f' (i + 2) = 0)) ++
        new.map (· - 2)) := by
    have htwo : ∀ x ∈ new, 2 ≤ x ∧ x < v.totalClusters + 2 := fun x hx => Vol.has_iff.mp (hhas x hx)
    refine (List.perm_ext_iff_of_nodup (List.nodup_range.filter _) ?_).mpr fun i => ?_
    · refine List.nodup_append.mpr ⟨List.nodup_range.filter _, ?_, ?_⟩
      · refine List.Nodup.map_on (fun x hx y hy hxy => ?_) hnodup
        have := htwo x hx
        have := htwo y hy
        omega
      · rintro i hi j hj rfl
        obtain ⟨x, hx, rfl⟩ := List.mem_map.mp hj
        have h2 := (htwo x hx).1
        simp only [List.mem_filter, decide_eq_true_eq] at hi
        rw [show x - 2 + 2 = x by omega] at hi
        exact ((h.free x).mp hi.2).2 hx
    · simp only [List.mem_filter, List.mem_append, List.mem_map, decide_eq_true_eq, List.mem_range]
      constructor
      · rintro ⟨hi, h0⟩
        by_cases hn : i + 2 ∈ new
        · exact .inr ⟨i + 2, hn, by omega⟩
        · exact .inl ⟨hi, (h.free _).mpr ⟨h0, hn⟩⟩
      · rintro (⟨hi, h0⟩ | ⟨x, hx, rfl⟩)
        · exact ⟨hi, ((h.free _).mp h0).1⟩
        · have := htwo x hx
          rw [show x - 2 + 2 = x by omega]
          exact ⟨by omega, h.fresh x hx⟩
  rw [Fat32.freeClusters, Fat32.freeClusters, List.countP_eq_length_filter, hperm.length_eq,
    List.length_append, List.length_map, List.countP_eq_length_filter]

theorem fatWriteRaw_fails (g : v.Geometry) (h : Reads v fs f d) (hl : Chain v f node.fsCluster l)
    (offset size : Nat) (buffer : Mem) :
    (∃ e, (fatWriteRaw v node offset size buffer fs).1 = .error e) ↔
      freeClusters v f < clustersFor v (u32 (offset + size)) - l.length := by
  have hok := ensureChain_ok g h hl (clustersFor v (u32 (offset + size)))
  rw [← Nat.not_le, ← hok, fatWriteRaw]
  rcases ensureChain v node (clustersFor v (u32 (offset + size))) fs with ⟨e | u, node', fs'⟩
  · simp
  · simp

/-- The name is in the directory of the clusters `l'`, at slot `k`. -/
structure Entered (v : Vol) (slot : Nat → Mem) (name short11 : List UInt8) (ntflags : UInt8)
    (k lfnCount : Nat) (fs : Fs) (head : Nat) (l' : List Nat) : Prop where
  ok : fs.Ok v
  chain : Chain v (fs.fat v) head l'
  room : k + lfnCount < slotCount v l'
  slots : ∃ short, ShortAt short short11 ntflags ∧ slotAt v (fs.data v) l' =
    withName slot k lfnCount name (shortChecksum short11) short

theorem Entered.keep (h : Entered v slot name short11 ntflags k lfnCount fs head l')
    (hr : Reads v fs' f' d') (hfat : ∀ x ∈ l', f' x = fs.fat v x)
    (hdata : ∀ x ∈ l', d' x = fs.data v x) :
    Entered v slot name short11 ntflags k lfnCount fs' head l' := by
  obtain ⟨short, hshort, hslots⟩ := h.slots
  refine ⟨hr.ok, ?_, h.room, short, hshort, ?_⟩
  · rw [hr.fat]
    exact h.chain.congr hfat
  · rw [hr.data, ← hslots]
    exact funext (slotAt_congr hdata)

theorem Entered.reads (h : Entered v slot name short11 ntflags k lfnCount fs head l') :
    Reads v fs (fs.fat v) (fs.data v) := h.ok.reads

theorem Entered.flush (g : v.Geometry)
    (h : Entered v slot name short11 ntflags k lfnCount fs head l') :
    Entered v slot name short11 ntflags k lfnCount (fatCacheFlush v fs).2 head l' :=
  h.keep (flush_spec g h.reads).2.1 (fun _ _ => rfl) fun _ _ => rfl

theorem Entered.dots (g : v.Geometry)
    (h : Entered v slot name short11 ntflags k lfnCount fs head l') {x : Nat}
    (hx : Chain v (fs.fat v) x [x]) (hout : x ∉ l') (up : Nat) :
    Entered v slot name short11 ntflags k lfnCount (writeDots v x up fs) head l' := by
  rw [writeDots]
  obtain ⟨res₁, fs₁, d₁, heq₁, h₁, hfr₁, -⟩ := putSlot_frame g (h.reads.ticks (fs.ticks + 1)) hx 0
    (dotEntry [DOT] x (fdate (v.clock fs.ticks)) (ftime (v.clock fs.ticks)))
  obtain ⟨res₂, fs₂, d₂, heq₂, h₂, hfr₂, -⟩ := putSlot_frame g h₁ hx 1
    (dotEntry [DOT, DOT] up (fdate (v.clock fs.ticks)) (ftime (v.clock fs.ticks)))
  simp only [heq₁, heq₂]
  refine h.keep h₂ (fun _ _ => rfl) fun y hy => ?_
  have hyx : y ∉ [x] := fun hm => hout (List.mem_singleton.mp hm ▸ hy)
  exact (hfr₁.trans hfr₂).data y hyx (by simp) (h.chain.used y hy)

/-- A link's header is in a cluster of its own, and its entry then has the
cluster and the size. -/
theorem Entered.header (g : v.Geometry) (hspc : v.sectorsPerCluster ≤ 128)
    (h : Entered v slot name short11 ntflags k lfnCount fs head l') (buffer : Mem)
    (hnode : node.fsCluster = 0) (hlba : node.fsDirentLba = (posOf v l' (k + lfnCount)).lba)
    (hoff : node.fsDirentOff = (posOf v l' (k + lfnCount)).off) :
    match fatWriteRaw v node 0 SYMLINK_MAGIC_LEN buffer fs with
    | (.error _, _, fs') => freeClusters v (fs.fat v) = 0 ∧
        Entered v slot name short11 ntflags k lfnCount fs' head l'
    | (.ok _, node', fs') => 0 < freeClusters v (fs.fat v) ∧
        node'.fsDirentLba = node.fsDirentLba ∧ node'.fsDirentOff = node.fsDirentOff ∧
        Entered v slot name short11 ntflags k lfnCount (direntUpdate v node' fs').2.2 head l' ∧
        (direntUpdate v node' fs').2.1.fsDirentLba = node.fsDirentLba ∧
        (direntUpdate v node' fs').2.1.fsDirentOff = node.fsDirentOff := by
  have hcb : 512 ≤ v.clusterBytes ∧ v.clusterBytes ≤ 65536 := by
    have := g.spc_pos
    simp only [Vol.clusterBytes, BLOCK_SECTOR_SIZE]
    omega
  have hempty : Chain v (fs.fat v) node.fsCluster [] := Chain.of_empty (by omega)
  have hone : clustersFor v (u32 (0 + SYMLINK_MAGIC_LEN)) = 1 := by
    rw [u32_of_lt (by decide), clustersFor_eq (by simp only [SYMLINK_MAGIC_LEN]; omega)]
    refine Nat.div_eq_of_lt_le ?_ ?_ <;> simp only [SYMLINK_MAGIC_LEN] <;> omega
  have hfails := fatWriteRaw_fails g h.reads hempty 0 SYMLINK_MAGIC_LEN buffer
  rw [hone, List.length_nil, Nat.sub_zero] at hfails
  have hsmall : 0 + SYMLINK_MAGIC_LEN + v.clusterBytes - 1 < 4294967296 := by
    simp only [SYMLINK_MAGIC_LEN]
    omega
  obtain ⟨res, node', fs₁, f₁, d₁, d₂, new, heq, h₁, hg, hre, hres⟩ := fatWriteRaw_spec g h.reads
    hempty hsmall buffer
  -- the new cluster was free, so it is not one of the directory
  have hfar : ∀ x ∈ l', x ∉ new := fun x hx hn => h.chain.used x hx (hg.fresh x hn)
  have hfat : ∀ x ∈ l', f₁ x = fs.fat v x := fun x hx => hg.outside x (by simp) (hfar x hx)
  rw [heq] at hfails ⊢
  rcases hres with ⟨rfl, -, -, hwrote⟩ | ⟨rfl, rfl, rfl, -⟩
  · have hdata : ∀ x ∈ l', d₂ x = fs.data v x := fun x hx => by
      rw [hwrote.others x (by simpa using hfar x hx), hg.kept x (h.chain.used x hx)]
    have hent := h.keep h₁ hfat hdata
    have hfree : ¬ freeClusters v (fs.fat v) < 1 := fun hlt => by
      obtain ⟨e, he⟩ := hfails.mpr hlt
      exact absurd he (by simp)
    have hl₁ : node'.fsDirentLba = node.fsDirentLba := hre.lba
    have ho₁ : node'.fsDirentOff = node.fsDirentOff := hre.off
    obtain ⟨fs₂, d₃, heq₂, h₂, hothers, hrest, hbytes⟩ := direntUpdate_slot g hent.reads hent.chain
      hent.room (hl₁.trans hlba) (ho₁.trans hoff)
    obtain ⟨short, hshort, hslots⟩ := hent.slots
    have hat : slotAt v (fs₁.data v) l' (k + lfnCount) = short := by
      rw [hslots, withName_short]
    rw [hat] at hbytes
    refine ⟨by omega, hl₁, ho₁, ?_, ?_, ?_⟩
    · rw [heq₂]
      refine ⟨h₂.ok, ?_, hent.room, slotAt v d₃ l' (k + lfnCount), hshort.congr hbytes, ?_⟩
      · rw [h₂.fat]
        exact hent.chain
      · funext j
        rw [h₂.data]
        by_cases hj : j = k + lfnCount
        · rw [hj, withName_short]
        · rw [hrest j hj, hslots, withName, withName, if_neg hj, if_neg hj]
    · rw [heq₂]
      exact hl₁
    · rw [heq₂]
      exact ho₁
  · have hdata : ∀ x ∈ l', d₂ x = fs.data v x := fun x hx => hg.kept x (h.chain.used x hx)
    exact ⟨by have := hfails.mp ⟨_, rfl⟩; omega, h.keep h₁ hfat hdata⟩

/-- The part of `fat_create` behind the new node: only the header of a link
can fail, and the name stays. -/
theorem finishCreate_spec (g : v.Geometry) (hspc : v.sectorsPerCluster ≤ 128) (kind : Kind)
    (h : Entered v slot name short11 ntflags k lfnCount s.fs head l')
    (hhead : (s.nodes dir).fsCluster = head) (hne : dir ≠ n)
    (hlba : (s.nodes n).fsDirentLba = (posOf v l' (k + lfnCount)).lba)
    (hoff : (s.nodes n).fsDirentOff = (posOf v l' (k + lfnCount)).off)
    (hown : kind = .directory → Chain v (s.fs.fat v) (s.nodes n).fsCluster [(s.nodes n).fsCluster] ∧
      (s.nodes n).fsCluster ∉ l')
    (hlink : kind = .symlink → (s.nodes n).fsCluster = 0) :
    ∃ r s', finishCreate v dir n kind s = (r, s') ∧
      Entered v slot name short11 ntflags k lfnCount s'.fs (s'.nodes dir).fsCluster l' ∧
      ((r = some n ∧ (kind = .symlink → 0 < freeClusters v (s.fs.fat v)) ∧
          (s'.nodes n).fsDirentLba = (posOf v l' (k + lfnCount)).lba ∧
          (s'.nodes n).fsDirentOff = (posOf v l' (k + lfnCount)).off) ∨
        (r = none ∧ kind = .symlink ∧ freeClusters v (s.fs.fat v) = 0)) := by
  subst hhead
  cases kind with
  | file => exact ⟨_, _, rfl, h.flush g, .inl ⟨rfl, by simp, hlba, hoff⟩⟩
  | socket => exact ⟨_, _, rfl, h.flush g, .inl ⟨rfl, by simp, hlba, hoff⟩⟩
  | directory =>
    obtain ⟨hchain, hout⟩ := hown rfl
    exact ⟨_, _, rfl, (h.dots g hchain hout _).flush g, .inl ⟨rfl, by simp, hlba, hoff⟩⟩
  | symlink =>
    have hheader := h.header g hspc (fun i => SYMLINK_MAGIC.getD i 0) (hlink rfl) hlba hoff
    rw [finishCreate]
    rcases hw : fatWriteRaw v (s.nodes n) 0 SYMLINK_MAGIC_LEN (fun i => SYMLINK_MAGIC.getD i 0) s.fs
      with ⟨e | done, node', fs₁⟩
    · rw [hw] at hheader
      obtain ⟨hfree, hent⟩ := hheader
      refine ⟨none, _, rfl, ?_, .inr ⟨rfl, rfl, hfree⟩⟩
      have hnodes : ((nodeRelease n (dirRemove dir n ((s.set n node').onDisk fs₁))).nodes dir).fsCluster =
          (s.nodes dir).fsCluster := by
        rw [nodeRelease]
        split <;> simp [dirRemove, State.set, State.onDisk, update_of_ne hne]
      have hfs : (nodeRelease n (dirRemove dir n ((s.set n node').onDisk fs₁))).fs = fs₁ := by
        rw [nodeRelease]
        split <;> rfl
      rw [hnodes, hfs]
      exact hent
    · rw [hw] at hheader
      obtain ⟨hfree, -, -, hent, hl₁, ho₁⟩ := hheader
      rcases hd : direntUpdate v node' fs₁ with ⟨ok, node₂, fs₂⟩
      rw [hd] at hent hl₁ ho₁
      simp only [hd]
      refine ⟨_, _, rfl, ?_, .inl ⟨rfl, fun _ => hfree, ?_, ?_⟩⟩
      · have hnodes : ((s.set n node₂).nodes dir).fsCluster = (s.nodes dir).fsCluster := by
          simp [State.set, update_of_ne hne]
        show Entered _ _ _ _ _ _ _ (fatCacheFlush v fs₂).2 ((s.set n node₂).nodes dir).fsCluster _
        rw [hnodes]
        exact hent.flush g
      · simpa [State.set, State.onDisk] using hl₁.trans hlba
      · simpa [State.set, State.onDisk] using ho₁.trans hoff

/-! ## `fat_create` -/

/-- The directory `dir` of a volume whose device serves every request: its
clusters, its own entry in another directory, and a node that is not in the
pool. -/
structure DirOn (v : Vol) (s : State) (dir : Nat) (l : List Nat) : Prop where
  ok : s.fs.Ok v
  chain : Chain v (s.fs.fat v) (s.nodes dir).fsCluster l
  anchor : Anchored v (s.fs.fat v) l (s.nodes dir)
  pool : OutOfPool s dir

/-- There is a place for `count` slots in the directory, and as many clusters
as that takes, with one for a new directory itself. -/
def Fits (v : Vol) (fs : Fs) (l : List Nat) (kind : Kind) (count : Nat) : Prop :=
  roomFor v (fs.data v) l count < 2147483648 ∧
  spareFor v (fs.data v) l count + (if kind = .directory then 1 else 0) ≤ freeClusters v (fs.fat v)

/-- Once the directory is read, the pool has a node left. -/
def NodeLeft (v : Vol) (s : State) (dir : Nat) (l : List Nat) : Prop :=
  (s.stock.drain (if (s.nodes dir).populated then 0 else (entries v (s.fs.data v) l).length)).take.1 =
    true

/-- Behind the entry there is a node for it, and a cluster for the header of a
link. -/
def Completes (v : Vol) (s : State) (dir : Nat) (l : List Nat) (kind : Kind) (count : Nat) : Prop :=
  NodeLeft v s dir l ∧
  (kind = .symlink → spareFor v (s.fs.data v) l count < freeClusters v (s.fs.fat v))

/-- An entry of the directory, as it is stored: the slot and its bytes. -/
def Stands (slot : Nat → Mem) (n : Nat) (ent : Mem) : Prop :=
  Used slot n ∧ slot n 0 ≠ ENTRY_FREE ∧ slot n = ent

/-- Nothing can be seen of a call: the directory has the same entries, as they
are stored and as `populate` reads them, none of which names a cluster that
was given back, and the free clusters are those there were, but for empty ones
that the directory grew by. -/
def Traceless (v : Vol) (s s' : State) (dir : Nat) : Prop :=
  ∃ l new, Chain v (s.fs.fat v) (s.nodes dir).fsCluster l ∧
    Chain v (s'.fs.fat v) (s'.nodes dir).fsCluster (l ++ new) ∧
    (∀ n ent, Stands (slotAt v (s'.fs.data v) (l ++ new)) n ent ↔
      Stands (slotAt v (s.fs.data v) l) n ent) ∧
    entries v (s'.fs.data v) (l ++ new) = entries v (s.fs.data v) l ∧
    (∀ e ∈ entries v (s'.fs.data v) (l ++ new), s'.fs.fat v e.cluster = 0 →
      s.fs.fat v e.cluster = 0) ∧
    (∀ x, s'.fs.fat v x = 0 ↔ s.fs.fat v x = 0 ∧ x ∉ new) ∧
    ∀ x ∈ new, s.fs.fat v x = 0 ∧ s'.fs.data v x = fun _ => 0

theorem Extended.traceless (g : v.Geometry) (hdir : DirOn v s dir l)
    (h : Extended v (s.fs.fat v) f' (s.fs.data v) d' l new) (hr : Reads v s'.fs f' d')
    (hl : Chain v f' (s'.nodes dir).fsCluster (l ++ new)) : Traceless v s s' dir := by
  refine ⟨l, new, hdir.chain, ?_, ?_, ?_, ?_, ?_, ?_⟩
  · rw [hr.fat]
    exact hl
  · intro n ent
    rw [hr.data, funext h.slots]
  · rw [hr.data, h.entries g.cb_pos]
  · intro e _ h0
    rw [hr.fat] at h0
    exact ((h.free _).mp h0).1
  · rw [hr.fat]
    exact h.free
  · rw [hr.data]
    exact fun x hx => ⟨h.fresh x hx, h.zeroed x hx⟩

theorem Entered.not_traceless (hdir : DirOn v s dir l)
    (h : Entered v (slotAt v (s.fs.data v) l) name short11 ntflags k lfnCount s'.fs
      (s'.nodes dir).fsCluster l')
    (hbefore : ∀ m < k, slotAt v (s.fs.data v) l m 0 ≠ ENTRY_END) (hcount : lfnCount ≤ 10)
    (hfresh : ¬ Taken (slotAt v (s.fs.data v) l) short11) : ¬ Traceless v s s' dir := by
  rintro ⟨l₀, new, hl₀, hl', hstands, -⟩
  obtain rfl := hl₀.unique hdir.chain
  obtain rfl := hl'.unique h.chain
  obtain ⟨short, hshort, hslots⟩ := h.slots
  have hused := @withName_used _ _ name (shortChecksum short11) _ _ hbefore hcount hshort.byte
  have hstand := (hstands (k + lfnCount) short).mp (by
    rw [hslots]
    exact ⟨hused, by rw [withName_short]; exact hshort.byte.2, withName_short⟩)
  obtain ⟨hused', hne, heq⟩ := hstand
  exact hfresh ⟨k + lfnCount, hused', hne, by rw [heq]; exact hshort.lfn, by rw [heq]; exact hshort.name⟩

/-- The part of `fat_create` behind its checks: the name is entered, and a node
for it may be missing. -/
theorem enterName_spec (name : List UInt8) (ntflags : UInt8) (lfnCount : Nat) (g : v.Geometry)
    (hspc : v.sectorsPerCluster ≤ 128) (kind : Kind)
    (h : Reads v fs f d) (hl : Chain v f (s.nodes dir).fsCluster l') (hslots : slotAt v d l' = slot)
    (hfits : k + lfnCount < slotCount v l') (hsmall : k + lfnCount < 4294967296)
    (hform : ShortForm short11) (hpool : OutOfPool s dir) {cluster : Nat}
    (hown : kind = .directory → Chain v f cluster [cluster] ∧ cluster ∉ l')
    (hnone : kind ≠ .directory → cluster = 0) :
    ∃ r s', (match dirWriteEntries v (s.nodes dir).fsCluster k name short11 ntflags (attrOf kind)
          cluster 0 lfnCount fs with
        | (none, fs) => (none, s.onDisk (dropCluster v cluster fs))
        | (some pos, fs) =>
          match nodeAlloc (s.onDisk fs) with
          | (none, s) => (none, s.onDisk (dropCluster v cluster s.fs))
          | (some n, s) =>
            finishCreate v dir n kind
              (dirAppend dir n (s.set n (createdNode name kind cluster lfnCount pos)))) = (r, s') ∧
      Entered v slot name short11 ntflags k lfnCount s'.fs (s'.nodes dir).fsCluster l' ∧
      (r = none ↔ ¬ (s.stock.take.1 = true ∧ (kind = .symlink → 0 < freeClusters v f))) ∧
      ∀ n, r = some n →
        (⟨(s'.nodes n).fsDirentLba, (s'.nodes n).fsDirentOff⟩ : Pos) = posOf v l' (k + lfnCount) := by
  subst hslots
  obtain ⟨fs₁, d₁, date, time, hwrite, hr₁, hothers, hslots₁⟩ := dirWriteEntries_spec name g h
    hl hfits hsmall short11 ntflags (attrOf kind) cluster 0
  have hent : Entered v (slotAt v d l') name short11 ntflags k lfnCount fs₁ (s.nodes dir).fsCluster
      l' := by
    refine ⟨hr₁.ok, by rw [hr₁.fat]; exact hl, hfits, _, shortEntry_at hform kind ntflags cluster 0
      date time, ?_⟩
    rw [hr₁.data, hslots₁]
  have hstock := nodeAlloc_stock (s.onDisk fs₁)
  rw [show (s.onDisk fs₁).stock = s.stock from rfl] at hstock
  rw [hwrite]
  simp only
  rcases ha : nodeAlloc (s.onDisk fs₁) with ⟨_ | n, s₂⟩
  · rw [ha] at hstock
    obtain ⟨grants, rfl⟩ := nodeAlloc_refused ha
    refine ⟨_, _, rfl, ?_, ?_, by simp⟩
    · show Entered _ _ _ _ _ _ _ (dropCluster v cluster fs₁) (s.nodes dir).fsCluster _
      rw [dropCluster]
      split
      · -- the cluster of the new directory is given back
        rename_i hc
        have hkind : kind = .directory := Classical.not_not.mp fun hk => hc (hnone hk)
        obtain ⟨hchain, hout⟩ := hown hkind
        refine hent.keep (freeChain_spec g hr₁ hchain) (fun x hx => ?_) fun x _ => by rw [hr₁.data]
        rw [if_neg (by rw [List.mem_singleton]; exact ne_of_mem_of_not_mem hx hout), hr₁.fat]
      · exact hent
    · simp [← hstock]
  · rw [ha] at hstock
    simp only
    obtain ⟨-, hfs₂, -, hne, hnode₂⟩ := nodeAlloc_some ha (show OutOfPool (s.onDisk fs₁) dir from
      ⟨hpool.free, hpool.old⟩)
    have hself : (dirAppend dir n (s₂.set n (createdNode name kind cluster lfnCount
        (posOf v l' (k + lfnCount))))).nodes n =
        createdNode name kind cluster lfnCount (posOf v l' (k + lfnCount)) := by
      simp [dirAppend, State.set, update_of_ne (Ne.symm hne)]
    have hdir : ((dirAppend dir n (s₂.set n (createdNode name kind cluster lfnCount
        (posOf v l' (k + lfnCount))))).nodes dir).fsCluster = (s.nodes dir).fsCluster := by
      simp only [dirAppend, State.set, update_self, update_of_ne hne, hnode₂]
      rfl
    have hfs : (dirAppend dir n (s₂.set n (createdNode name kind cluster lfnCount
        (posOf v l' (k + lfnCount))))).fs = fs₁ := hfs₂
    generalize dirAppend dir n (s₂.set n (createdNode name kind cluster lfnCount
      (posOf v l' (k + lfnCount)))) = s₃ at *
    subst hfs
    have hfat : s₃.fs.fat v = f := hr₁.fat
    obtain ⟨r, s', heq, hent', hcase⟩ := finishCreate_spec (n := n) g hspc kind hent hdir hne
      (by rw [hself]; rfl) (by rw [hself]; rfl)
      (fun hk => by rw [hself, hfat]; exact hown hk)
      (fun hk => by rw [hself]; exact hnone (by rw [hk]; simp))
    refine ⟨r, s', heq, hent', ?_, ?_⟩
    · rw [← hstock, ← hfat]
      rcases hcase with ⟨rfl, hlink, -⟩ | ⟨rfl, hkind, hzero⟩
      · simpa [Nat.pos_iff_ne_zero] using hlink
      · simp [hkind, hzero]
    · rintro m rfl
      rcases hcase with ⟨hm, -, hlba, hoff⟩ | ⟨hm, -⟩
      · obtain rfl := Option.some.inj hm
        rw [hlba, hoff]
      · exact absurd hm (by simp)

/-- Both ways through `fat_create`. -/
theorem fatCreate_spec (g : v.Geometry) (hspc : v.sectorsPerCluster ≤ 128) (hdir : DirOn v s dir l)
    (hname : name.length < VFS_NAME_MAX) (kind : Kind) :
    (∃ s', fatCreate v dir name kind s = (none, s') ∧ Traceless v s s' dir ∧
      ∀ short11 ntflags lfnCount, Encoding (slotAt v (s.fs.data v) l) name short11 ntflags lfnCount →
        ¬ Fits v s.fs l kind (lfnCount + 1)) ∨
    (∃ r s' short11 ntflags lfnCount l', fatCreate v dir name kind s = (r, s') ∧
      Encoding (slotAt v (s.fs.data v) l) name short11 ntflags lfnCount ∧
      Fits v s.fs l kind (lfnCount + 1) ∧
      Entered v (slotAt v (s.fs.data v) l) name short11 ntflags
        (roomFor v (s.fs.data v) l (lfnCount + 1)) lfnCount s'.fs (s'.nodes dir).fsCluster l' ∧
      (r = none ↔ ¬ Completes v s dir l kind (lfnCount + 1)) ∧
      ∀ n, r = some n → (⟨(s'.nodes n).fsDirentLba, (s'.nodes n).fsDirentOff⟩ : Pos) =
        posOf v l' (roomFor v (s.fs.data v) l (lfnCount + 1) + lfnCount)) := by
  obtain ⟨hr₁, hpool₁, hstock₁, ch, pop, hnode₁⟩ := populate_keeps g hdir.ok.reads hdir.chain hdir.pool
  rw [fatCreate, if_neg (by omega)]
  dsimp only
  generalize hs₁ : populate v dir s = s₁ at *
  have hl₁ : Chain v (s.fs.fat v) (s₁.nodes dir).fsCluster l := by
    rw [hnode₁]
    exact hdir.chain
  have ha₁ : Anchored v (s.fs.fat v) l (s₁.nodes dir) :=
    hdir.anchor.frame (.refl _ (s.fs.data v) l []) (by rw [hnode₁]) (by rw [hnode₁])
  have hchoose := chooseShort_spec g hl₁ hr₁ name
  have hr₂ := chooseShort_reads g hl₁ name hr₁
  rcases hc : chooseShort v (s₁.nodes dir).fsCluster name s₁.fs with ⟨_ | ⟨short11, ntflags, lfnCount⟩, fs₂⟩
  · rw [hc] at hchoose hr₂
    refine .inl ⟨_, rfl, ?_, fun s fl k henc => absurd henc (hchoose s fl k)⟩
    exact (Extended.refl v _ _ l).traceless g hdir hr₂ (by simpa [State.onDisk] using hl₁)
  rw [hc] at hchoose hr₂
  simp only at hchoose hr₂ ⊢
  have hcount : lfnCount ≤ 10 := by
    rcases hchoose with ⟨-, -, rfl⟩ | ⟨-, -, rfl, -⟩
    · omega
    · simp only [lfnSlotsFor, VFS_NAME_MAX] at *
      omega
  obtain ⟨res, node₂, fs₃, f₃, d₃, new, hfind, hr₃, hl₃, hext, hre, hcase⟩ :=
    dirFindSlots_spec g hr₂ hl₁ ha₁ (show 0 < lfnCount + 1 by omega) (by omega)
  rw [hfind]
  have hnone : ∀ (s' : State) {f' d'}, Reads v s'.fs f' d' →
      Chain v f' (s'.nodes dir).fsCluster (l ++ new) →
      Extended v (s.fs.fat v) f' (s.fs.data v) d' l new →
      ¬ Fits v s.fs l kind (lfnCount + 1) → Traceless v s s' dir ∧
      ∀ s₀ fl k, Encoding (slotAt v (s.fs.data v) l) name s₀ fl k → ¬ Fits v s.fs l kind (k + 1) := by
    intro s' f' d' hr hl hext hfits
    refine ⟨hext.traceless g hdir hr hl, fun s₀ fl k henc => ?_⟩
    obtain ⟨-, -, rfl⟩ := henc.unique hchoose
    exact hfits
  have hset : ∀ s₀ : State, ((s₀.set dir node₂).nodes dir) = node₂ := fun s₀ => update_self ..
  cases res with
  | none =>
    obtain ⟨htrace, hno⟩ := hnone ((s₁.set dir node₂).onDisk fs₃) hr₃
      (by rw [State.onDisk, hset]; exact hl₃) hext (by
        rintro ⟨hroom, hfree⟩
        rcases hcase with ⟨-, -, -, hslot⟩ | ⟨hlt, -⟩
        · rw [slotNumber, if_pos hroom] at hslot
          exact absurd hslot (by simp)
        · omega)
    exact .inl ⟨_, rfl, htrace, hno⟩
  | some slot =>
    obtain ⟨hspare, hlen, hcover, hslot⟩ := hcase.resolve_right (by simp)
    have hroom : roomFor v (s.fs.data v) l (lfnCount + 1) < 2147483648 ∧
        slot = roomFor v (s.fs.data v) l (lfnCount + 1) := by
      rw [slotNumber] at hslot
      split at hslot
      · rename_i hlt
        exact ⟨hlt, Option.some.inj hslot⟩
      · exact absurd hslot (by simp)
    obtain ⟨hsmall, rfl⟩ := hroom
    have hleft : freeClusters v (s.fs.fat v) = freeClusters v f₃ +
        spareFor v (s.fs.data v) l (lfnCount + 1) := by
      rw [← hlen]
      exact hext.freeClusters (List.nodup_append.mp hl₃.nodup).2.1
        fun x hx => hl₃.has x (List.mem_append_right l hx)
    have hl₃' : Chain v f₃ ((s₁.set dir node₂).nodes dir).fsCluster (l ++ new) := by
      rw [hset]
      exact hl₃
    have hpool₃ : OutOfPool (s₁.set dir node₂) dir := ⟨hpool₁.free, hpool₁.old⟩
    have hform := hchoose.fresh.1
    -- the clusters that are left decide about a link's header
    have hdone : ∀ f₄, (kind = .symlink → f₄ = f₃) →
        ((s₁.set dir node₂).stock.take.1 = true ∧ (kind = .symlink → 0 < freeClusters v f₄) ↔
          Completes v s dir l kind (lfnCount + 1)) := by
      intro f₄ hf₄
      rw [Completes, NodeLeft, ← hstock₁]
      refine and_congr Iff.rfl (forall_congr' fun hk => ?_)
      rw [hf₄ hk]
      omega
    dsimp only
    rw [show node₂.fsCluster = ((s₁.set dir node₂).nodes dir).fsCluster by rw [hset]]
    rcases newCluster_spec g hr₃ kind with ⟨hkind, heq⟩ | ⟨hkind, hzero, fs₄, heq, hr₄⟩ |
      ⟨hkind, hpos, x, fs₄, heq, hx, hhas, hr₄⟩
    · rw [heq]
      obtain ⟨r, s', hrun, hent, hres, hplace⟩ := enterName_spec name ntflags
        lfnCount (s := s₁.set dir node₂) (k := roomFor v (s.fs.data v) l (lfnCount + 1))
        g hspc kind hr₃ hl₃' (funext hext.slots) (by omega) (by omega) hform
        hpool₃ (fun hk => absurd hk hkind) fun _ => rfl
      refine .inr ⟨r, s', short11, ntflags, lfnCount, l ++ new, hrun, hchoose,
        ⟨hsmall, by rw [if_neg hkind]; omega⟩, hent, ?_, hplace⟩
      rw [hres, hdone f₃ fun _ => rfl]
    · rw [heq]
      obtain ⟨htrace, hno⟩ := hnone ((s₁.set dir node₂).onDisk fs₄) hr₄ hl₃' hext (by
        rintro ⟨-, hfree⟩
        rw [if_pos hkind] at hfree
        omega)
      exact .inl ⟨_, rfl, htrace, hno⟩
    · rw [heq]
      have hout : x ∉ l ++ new := fun hm => hl₃.used x hm hx
      have hfirst := (Grown.first (d := d₃) g hx hhas).chain
      have hlink : ∀ y ∈ l ++ new, link f₃ 0 x y = f₃ y := fun y hy => by
        rw [link, if_pos rfl, update_of_ne (ne_of_mem_of_not_mem hy hout)]
      have hslots₄ : slotAt v (update d₃ x fun _ => 0) (l ++ new) =
          slotAt v (s.fs.data v) l := by
        rw [← funext hext.slots]
        exact funext (slotAt_congr fun y hy =>
          update_of_ne (ne_of_mem_of_not_mem hy hout) _ _)
      obtain ⟨r, s', hrun, hent, hres, hplace⟩ := enterName_spec name ntflags
        lfnCount (s := s₁.set dir node₂) (k := roomFor v (s.fs.data v) l (lfnCount + 1))
        g hspc kind hr₄ (hl₃'.congr hlink) hslots₄ (by omega) (by omega) hform
        hpool₃ (fun _ => ⟨by simpa using hfirst, hout⟩) fun hk => absurd hkind hk
      refine .inr ⟨r, s', short11, ntflags, lfnCount, l ++ new, hrun, hchoose,
        ⟨hsmall, by rw [if_pos hkind]; omega⟩, hent, ?_, hplace⟩
      rw [hres, hdone (link f₃ 0 x) fun hk => absurd (hk.symm.trans hkind) (by simp)]

theorem Encoding.count_le (h : Encoding slot name short11 ntflags lfnCount)
    (hname : name.length < VFS_NAME_MAX) : lfnCount ≤ 10 := by
  rcases h with ⟨-, -, rfl⟩ | ⟨-, -, rfl, -⟩
  · omega
  · simp only [lfnSlotsFor, VFS_NAME_MAX] at *
    omega

/-- A `fat_create` that fails leaves no trace exactly when it gives up before
it writes: unless the name is one that it enters, and then the pool has no
node, or the volume no cluster for a link's header. -/
theorem failed_create_traceless (g : v.Geometry) (hspc : v.sectorsPerCluster ≤ 128)
    (hdir : DirOn v s dir l) (name : List UInt8) (kind : Kind) :
    ((fatCreate v dir name kind s).1 = none → Traceless v s (fatCreate v dir name kind s).2 dir) ↔
      VFS_NAME_MAX ≤ name.length ∨
      ∀ short11 ntflags lfnCount,
        Encoding (slotAt v (s.fs.data v) l) name short11 ntflags lfnCount →
        Fits v s.fs l kind (lfnCount + 1) → Completes v s dir l kind (lfnCount + 1) := by
  by_cases hlong : VFS_NAME_MAX ≤ name.length
  · rw [fatCreate, if_pos hlong]
    refine ⟨fun _ => .inl hlong, fun _ _ => ?_⟩
    exact (Extended.refl v _ _ l).traceless g hdir hdir.ok.reads (by simpa using hdir.chain)
  · have hname : name.length < VFS_NAME_MAX := Nat.lt_of_not_le hlong
    rcases fatCreate_spec g hspc hdir hname kind with ⟨s', heq, htrace, hno⟩ |
      ⟨r, s', short11, ntflags, lfnCount, l', heq, henc, hfits, hent, hres, -⟩
    · rw [heq]
      exact ⟨fun _ => .inr fun s fl k henc hfits => absurd hfits (hno s fl k henc), fun _ _ => htrace⟩
    · rw [heq]
      constructor
      · intro h
        refine .inr fun s₀ fl k henc' _ => ?_
        obtain ⟨-, -, rfl⟩ := henc'.unique henc
        refine Classical.byContradiction fun hfail => ?_
        exact hent.not_traceless hdir firstRoom_used (henc.count_le hname) henc.fresh.2
          (h (hres.mpr hfail))
      · intro h hr
        exact absurd ((h.resolve_left hlong) short11 ntflags lfnCount henc hfits) (hres.mp hr)

/-- The small volume with its root directory in node 0. -/
def rootState (populated : Bool) (free : List Nat) (fs : Fs) : State where
  nodes n :=
    if n = 0 then
      { blank with inUse := true, kind := .directory, fsCluster := 2, populated := populated }
    else blank
  freeList := free
  blocks := 1
  grants := []
  root := 0
  fs := fs

theorem rootState_on {fs : Fs} (free : List Nat) (hok : fs.Ok smallVol)
    (hl : Chain smallVol (fs.fat smallVol) 2 [2]) (hfree : 0 ∉ free) :
    DirOn smallVol (rootState true free fs) 0 [2] :=
  ⟨hok, hl, .inl rfl, hfree, show 0 < 1 * VFS_NODES_PER_BLOCK by decide⟩

/-- It with no cluster left. -/
def fullFs : Fs :=
  { smallFs with disk := fun lba => if lba = 1 then fun _ => 0xFF else fun _ => 0 }

theorem fullFs_ok : fullFs.Ok smallVol :=
  ⟨rfl, .inl rfl, fun _ h => absurd rfl h, fun h => absurd h (by decide)⟩

theorem fullFs_chain : Chain smallVol (fullFs.fat smallVol) 2 [2] :=
  ⟨⟨by decide, show follow (fullFs.fat smallVol) 2 = none by decide⟩, by decide, by decide,
    by decide⟩

/-- A directory is asked for on a full volume. -/
theorem failed_create_traceless_full :
    (fatCreate smallVol 0 [100] .directory (rootState true [1, 2] fullFs)).1 = none ∧
    Traceless smallVol (rootState true [1, 2] fullFs)
      (fatCreate smallVol 0 [100] .directory (rootState true [1, 2] fullFs)).2 0 := by
  have hnone : (fatCreate smallVol 0 [100] .directory (rootState true [1, 2] fullFs)).1 = none := by
    decide
  have hfree : freeClusters smallVol (fullFs.fat smallVol) = 0 := by decide
  refine ⟨hnone, (failed_create_traceless smallVol_geometry (by decide)
    (rootState_on [1, 2] fullFs_ok fullFs_chain (by decide)) [100] .directory).mpr
    (.inr fun _ _ _ _ hfits => ?_) hnone⟩
  have := hfits.2
  rw [show (rootState true [1, 2] fullFs).fs = fullFs from rfl, hfree, if_pos rfl] at this
  omega

/-- Without a node the cluster of a new directory is given back, and the
entry that names it stays. -/
theorem failed_create_leaves_entry :
    ¬ ∀ (v : Vol) (s : State) (dir : Nat) (l : List Nat), v.Geometry → v.sectorsPerCluster ≤ 128 →
      DirOn v s dir l → ∀ (name : List UInt8) (kind : Kind),
        (fatCreate v dir name kind s).1 = none → Traceless v s (fatCreate v dir name kind s).2 dir := by
  intro h
  obtain ⟨l, new, hl, hl', -, hentries, -⟩ := h smallVol (rootState true [] smallFs) 0 [2]
    smallVol_geometry (by decide) (rootState_on [] smallFs_ok smallRoot_chain (by decide)) [100]
    .directory (by decide)
  obtain rfl : l = [2] := hl.unique smallRoot_chain
  have hafter : Chain smallVol ((fatCreate smallVol 0 [100] .directory
      (rootState true [] smallFs)).2.fs.fat smallVol) 2 [2] :=
    ⟨⟨by decide, show follow _ 2 = none by decide⟩, by decide, by decide, by decide⟩
  have hnew := hl'.unique (show Chain smallVol _ ((fatCreate smallVol 0 [100] .directory
    (rootState true [] smallFs)).2.nodes 0).fsCluster [2] from hafter)
  rw [hnew] at hentries
  exact absurd (congrArg List.length hentries) (by decide)

/-! ## Reading the name back -/

theorem posOf_inj (g : v.Geometry) (hl : Chain v f c l) {i j : Nat} (hi : i < slotCount v l)
    (hj : j < slotCount v l) (h : posOf v l i = posOf v l j) : i = j := by
  have hpos := g.perCluster_pos
  obtain ⟨x, hx⟩ := slot_index hi
  obtain ⟨y, hy⟩ := slot_index hj
  have hxl := List.mem_of_getElem? hx
  have hyl := List.mem_of_getElem? hy
  simp only [posOf, List.getD_eq_getElem?_getD, hx, hy, Option.getD_some, Pos.mk.injEq] at h
  obtain ⟨rfl, hsec⟩ := g.clusterLba_inj _ _ (hl.has x hxl) (hl.has y hyl) (slot_sector i hpos)
    (slot_sector j hpos) h.1
  have hdiv : i / v.perCluster = j / v.perCluster :=
    (List.getElem?_inj (List.getElem?_eq_some_iff.mp hx).1 hl.nodup).mp (hx.trans hy.symm)
  have h₁ := Nat.div_add_mod i v.perCluster
  have h₂ := Nat.div_add_mod j v.perCluster
  have hoff := h.2
  rw [hdiv] at h₁
  simp only [PER_SECTOR, BLOCK_SECTOR_SIZE, DIRENT_SIZE] at hsec hoff
  omega

/-- The volume of `s` in a state `t` in which its directory `dir` is the node
`m` and was not read yet, with nodes enough in the pool. -/
structure Rereads (v : Vol) (s : State) (dir : Nat) (t : State) (m : Nat) : Prop where
  ok : t.fs.Ok v
  fat : t.fs.fat v = s.fs.fat v
  data : t.fs.data v = s.fs.data v
  cluster : (t.nodes m).fsCluster = (s.nodes dir).fsCluster
  unread : (t.nodes m).populated = false
  empty : (t.nodes m).children = []
  supply : Supply t m
  room : ∀ l, Chain v (s.fs.fat v) (s.nodes dir).fsCluster l →
    (entries v (s.fs.data v) l).length ≤ t.room

/-- The child with that name is at the place of the node `n`. -/
def ReadBack (v : Vol) (s : State) (n : Nat) (name : List UInt8) (t : State) (m : Nat) : Prop :=
  (name, ⟨(s.nodes n).fsDirentLba, (s.nodes n).fsDirentOff⟩) ∈ (populate v m t).kids m

/-- A name that `fat_create` stored reads back as it was exactly when it has
long entries, or the short form that stands for it has no dot to lose, and no
long entries in front of its place that fit it by chance. -/
theorem created_name_reads_back (g : v.Geometry) (hspc : v.sectorsPerCluster ≤ 128)
    (hdir : DirOn v s dir l) (hname : Proper name) (kind : Kind)
    (h : (fatCreate v dir name kind s).1 = some n) {t : State} {m : Nat}
    (ht : Rereads v (fatCreate v dir name kind s).2 dir t m) :
    ReadBack v (fatCreate v dir name kind s).2 n name t m ↔
      ∀ short11 ntflags, makeShort name = some (short11, ntflags) →
        ¬ Taken (slotAt v (s.fs.data v) l) short11 →
        match strayName (lfnAt (slotAt v (s.fs.data v) l) (roomFor v (s.fs.data v) l 1)) short11 with
        | some stray => stray = name
        | none => name.getLast? ≠ some DOT := by
  rcases fatCreate_spec g hspc hdir hname.short kind with ⟨s', heq, -⟩ |
    ⟨r, s', short11, ntflags, lfnCount, l', heq, henc, -, hent, -, hplace⟩
  · rw [heq] at h
    exact absurd h (by simp)
  rw [heq] at h ht ⊢
  obtain rfl : r = some n := h
  obtain ⟨short, hshort, hslots⟩ := hent.slots
  have hbefore : ∀ m < roomFor v (s.fs.data v) l (lfnCount + 1),
      slotAt v (s.fs.data v) l m 0 ≠ ENTRY_END := firstRoom_used
  generalize hk : roomFor v (s.fs.data v) l (lfnCount + 1) = k at *
  have hused := @withName_used _ _ name (shortChecksum short11) _ _ hbefore
    (henc.count_le hname.short) hshort.byte
  have hr : Reads v t.fs (s'.fs.fat v) (s'.fs.data v) := ⟨ht.ok, ht.fat, ht.data⟩
  have hl : Chain v (s'.fs.fat v) (t.nodes m).fsCluster l' := by
    rw [ht.cluster]
    exact hent.chain
  -- the child at that place is what slot `k + lfnCount` reads as
  have hback : ReadBack v s' n name t m ↔
      ∃ e, readAt (slotAt v (s'.fs.data v) l') (k + lfnCount) = some e ∧ e.name = name := by
    rw [ReadBack, populate_children g hr hl ht.unread ht.empty ht.supply (ht.room l' hent.chain),
      hplace n rfl]
    constructor
    · rintro ⟨j, e, he, hp⟩
      obtain ⟨hnm, hpos⟩ := Prod.mk.inj hp
      have hj : j < slotCount v l' := by
        refine Used.lt (d := s'.fs.data v) g.cb_pos ?_
        rw [readAt] at he
        split at he
        · assumption
        · exact absurd he (by simp)
      obtain rfl := posOf_inj g hent.chain hent.room hj hpos
      exact ⟨e, he, hnm.symm⟩
    · rintro ⟨e, he, rfl⟩
      exact ⟨_, e, he, rfl⟩
  rw [hback, hslots, readAt_name hname hused (by rw [withName_short]; exact hshort)]
  rcases henc with ⟨hmake, hfree, rfl⟩ | ⟨htaken, -, rfl, -⟩
  · simp only [Nat.add_zero, Nat.zero_add] at *
    rw [lfnAt_withName_before]
    -- a short form loses nothing but a dot at the end
    have hdot : shortToName short11 ntflags = name ↔ name.getLast? ≠ some DOT := by
      rw [shortToName_makeShort hmake, shortBack]
      constructor
      · intro hsame hlast
        rw [if_pos hlast] at hsame
        have hlen := congrArg List.length hsame
        have := List.length_pos_of_ne_nil hname.ne
        rw [List.length_dropLast] at hlen
        omega
      · exact fun hlast => if_neg hlast
    have hcase : (strayName (lfnAt (slotAt v (s.fs.data v) l) k) short11).getD
        (shortToName short11 ntflags) = name ↔
        match strayName (lfnAt (slotAt v (s.fs.data v) l) k) short11 with
        | some stray => stray = name
        | none => name.getLast? ≠ some DOT := by
      cases strayName (lfnAt (slotAt v (s.fs.data v) l) k) short11 with
      | some stray => rfl
      | none => exact hdot
    rw [hcase]
    subst hk
    constructor
    · intro hone s₀ fl hs₀ _
      obtain ⟨rfl, rfl⟩ := Prod.mk.inj (Option.some.inj (hmake.symm.trans hs₀))
      exact hone
    · exact fun hall => hall short11 ntflags hmake hfree
  · rw [long_name_back hname.toPlain]
    refine ⟨fun _ s₀ fl hs₀ hfree => absurd (htaken s₀ fl hs₀) hfree, fun _ => rfl⟩

theorem created_ok (g : v.Geometry) (hspc : v.sectorsPerCluster ≤ 128) (hdir : DirOn v s dir l)
    (hname : name.length < VFS_NAME_MAX) (kind : Kind)
    (h : (fatCreate v dir name kind s).1 = some n) : (fatCreate v dir name kind s).2.fs.Ok v := by
  rcases fatCreate_spec g hspc hdir hname kind with ⟨s', heq, -⟩ |
    ⟨r, s', short11, ntflags, lfnCount, l', heq, -, -, hent, -⟩
  · rw [heq] at h
    exact absurd h (by simp)
  · rw [heq]
    exact hent.ok

theorem rootState_rereads {fs : Fs} {name : List UInt8} (hname : Proper name)
    (hok : (fatCreate smallVol 0 name .file (rootState true [1, 2] smallFs)).2.fs = fs)
    (h : (fatCreate smallVol 0 name .file (rootState true [1, 2] smallFs)).1 = some 1)
    (hcluster : ((fatCreate smallVol 0 name .file (rootState true [1, 2] smallFs)).2.nodes
      0).fsCluster = 2)
    (hlast : follow (fs.fat smallVol) 2 = none) (hused : fs.fat smallVol 2 ≠ 0)
    (hroom : (entries smallVol (fs.data smallVol) [2]).length ≤ 2) :
    Rereads smallVol (fatCreate smallVol 0 name .file (rootState true [1, 2] smallFs)).2 0
      (rootState false [1, 2] fs) 0 := by
  have hok' := created_ok smallVol_geometry (by decide)
    (rootState_on [1, 2] smallFs_ok smallRoot_chain (by decide)) hname.short .file h
  refine ⟨hok ▸ hok', by rw [hok]; rfl, by rw [hok]; rfl, hcluster.symm, rfl, rfl, ?_, fun l hl => ?_⟩
  · have hold : ∀ n ∈ [1, 2], n < 1 * VFS_NODES_PER_BLOCK := by decide
    exact ⟨show [1, 2].Nodup by decide, hold, ⟨show 0 ∉ [1, 2] by decide,
      show 0 < 1 * VFS_NODES_PER_BLOCK by decide⟩, fun c hc => absurd hc List.not_mem_nil⟩
  · rw [hok, hcluster] at hl
    have hchain : Chain smallVol (fs.fat smallVol) 2 [2] :=
      ⟨⟨by decide, hlast⟩, by decide, by decide, by simpa using hused⟩
    rw [hl.unique hchain, hok]
    exact hroom

/-- `Novaris.text` -/
def longName : List UInt8 := [78, 111, 118, 97, 114, 105, 115, 46, 116, 101, 120, 116]

/-- `foo.` -/
def dottedName : List UInt8 := [102, 111, 111, 46]

set_option maxRecDepth 20000

theorem longName_proper : Proper longName :=
  ⟨⟨by decide, by decide, by decide⟩, by decide, by decide⟩

theorem dottedName_proper : Proper dottedName :=
  ⟨⟨by decide, by decide, by decide⟩, by decide, by decide⟩

/-- A long name is read back from a volume with two clusters to spare. -/
theorem created_name_reads_back_long :
    ReadBack smallVol (fatCreate smallVol 0 longName .file (rootState true [1, 2] smallFs)).2 1 longName
      (rootState false [1, 2]
        (fatCreate smallVol 0 longName .file (rootState true [1, 2] smallFs)).2.fs) 0 := by
  have hmade : (fatCreate smallVol 0 longName .file (rootState true [1, 2] smallFs)).1 = some 1 := by
    decide
  refine (created_name_reads_back smallVol_geometry (by decide)
    (rootState_on [1, 2] smallFs_ok smallRoot_chain (by decide)) longName_proper .file hmade
    (rootState_rereads longName_proper rfl hmade (by decide) (by decide)
      (by decide +kernel) (by decide +kernel))).mpr fun s fl hs => ?_
  exact absurd (show makeShort longName = none by decide) (by simp [hs])

/-- `foo.` has a short form, and reads back as `foo`. -/
theorem created_name_loses_dot :
    ¬ ∀ (v : Vol) (s : State) (dir : Nat) (l : List Nat), v.Geometry → v.sectorsPerCluster ≤ 128 →
      DirOn v s dir l → ∀ (name : List UInt8) (kind : Kind) (n : Nat), Proper name →
        (∀ j e, readAt (slotAt v (s.fs.data v) l) j = some e → e.name ≠ name) →
        (fatCreate v dir name kind s).1 = some n → ∀ (t : State) (m : Nat),
        Rereads v (fatCreate v dir name kind s).2 dir t m →
        ReadBack v (fatCreate v dir name kind s).2 n name t m := by
  intro h
  have hmade : (fatCreate smallVol 0 dottedName .file (rootState true [1, 2] smallFs)).1 = some 1 := by
    decide
  have hback := h smallVol (rootState true [1, 2] smallFs) 0 [2] smallVol_geometry (by decide)
    (rootState_on [1, 2] smallFs_ok smallRoot_chain (by decide)) dottedName .file 1 dottedName_proper
    (fun j e he => by
      rw [readAt_none_of_end (Nat.zero_le j) (by decide)] at he
      exact absurd he (by simp)) hmade _ 0
    (rootState_rereads dottedName_proper rfl hmade (by decide) (by decide)
      (by decide) (by decide))
  have hnot : (dottedName, (⟨2, 0⟩ : Pos)) ∉ (populate smallVol 0 (rootState false [1, 2]
      (fatCreate smallVol 0 dottedName .file (rootState true [1, 2] smallFs)).2.fs)).kids 0 := by
    decide
  exact hnot hback

end NovarisOS.Fat32
