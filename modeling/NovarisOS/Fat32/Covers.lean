/-
NovarisOS.Fat32.Covers — whether a file's chain covers its length.

A node whose chain is long enough before a call has one that is long enough
after it, except where a sum or a rounding leaves 32 bits. For `fat_truncate`
that is a length so close to 2^32 that rounding it up to a cluster wraps: then
"need four billion bytes" has become "need nothing".
-/
import NovarisOS.Fat32.FileTheorems

namespace NovarisOS.Fat32

variable {v : Vol} {fs fs' : Fs} {f f' : Nat → Nat} {d d' : Nat → Mem} {c : Nat}
  {l l' new : List Nat} {node node' : Node} {o : Open}

/-! ## Writing at any offset -/

theorem writeLoop_out (g : v.Geometry) (hl : Chain v f c l) {offset done : Nat} (size : Nat) (buffer : Mem)
    (fuel : Nat) (h : Reads v fs f d) (hout : l.length * v.clusterBytes ≤ u32 (offset + done)) :
    ∃ fs', writeLoop v c offset size buffer (fuel + 1) done fs = (done, fs') ∧ Reads v fs' f d := by
  rw [writeLoop]
  split
  · obtain ⟨hnth, h₁⟩ := chainNth_chain g h hl (u32 (offset + done) / v.clusterBytes)
    rw [List.getElem?_eq_none ((Nat.le_div_iff_mul_le g.cb_pos).mpr hout)] at hnth
    exact ⟨_, if_pos hnth, h₁⟩
  · exact ⟨fs, rfl, h⟩

/-- The loop goes on until everything is written or a position is not in the
chain, and every position it wrote was. -/
theorem writeLoop_any (g : v.Geometry) (hl : Chain v f c l) (offset size : Nat) (buffer : Mem)
    (fuel done : Nat) (h : Reads v fs f d) (hdone : done ≤ size) (hfuel : size - done ≤ fuel) :
    ∃ r fs' d', writeLoop v c offset size buffer fuel done fs = (r, fs') ∧ Reads v fs' f d' ∧
      done ≤ r ∧ r ≤ size ∧ (r = size ∨ l.length * v.clusterBytes ≤ u32 (offset + r)) ∧
      ∀ i, done ≤ i → i < r → u32 (offset + i) < l.length * v.clusterBytes := by
  induction fuel generalizing done fs d with
  | zero =>
    obtain rfl : done = size := by omega
    exact ⟨done, fs, d, rfl, h, Nat.le_refl _, Nat.le_refl _, .inl rfl, fun _ _ _ => by omega⟩
  | succ fuel ih =>
    by_cases hlt : done < size
    · by_cases hin : u32 (offset + done) < l.length * v.clusterBytes
      · obtain ⟨n, y, fs₁, hn, hle, hwn, hy, heq, h₁⟩ :=
          writeLoop_round g hl offset size buffer fuel h hlt hin
        obtain ⟨r, fs', d', heq', h', hr, hr', hend, hall⟩ := ih (done + n) h₁ hle (by omega)
        refine ⟨r, fs', d', heq.trans heq', h', by omega, hr', hend, fun i hi hi' => ?_⟩
        by_cases hn' : i < done + n
        -- the bytes of one cluster are all in the chain
        · have hfull : u32 (offset + done) / v.clusterBytes * v.clusterBytes + v.clusterBytes ≤
              l.length * v.clusterBytes := by
            rw [← Nat.succ_mul]
            exact Nat.mul_le_mul_right _ (List.getElem?_eq_some_iff.mp hy).1
          have hdiv := Nat.div_add_mod (u32 (offset + done)) v.clusterBytes
          rw [Nat.mul_comm] at hdiv
          have hrun : u32 (offset + i) ≤ u32 (offset + done) + (i - done) := by
            simp only [u32]
            omega
          omega
        · exact hall i (by omega) hi'
      · obtain ⟨fs₁, heq, h₁⟩ := writeLoop_out g hl size buffer fuel h (Nat.le_of_not_lt hin)
        exact ⟨done, fs₁, d, heq, h₁, Nat.le_refl _, hdone, .inr (by omega), fun _ _ _ => by omega⟩
    · rw [writeLoop, if_neg hlt]
      exact ⟨done, fs, d, rfl, h, Nat.le_refl _, hdone, .inl (by omega), fun _ _ _ => by omega⟩

/-! ## The files there are -/

/-- A file or a link whose chain covers its length. -/
structure Stored (v : Vol) (o : Open) (f : Nat → Nat) (d : Nat → Mem) (l : List Nat) : Prop where
  reads : Reads v o.fs f d
  chain : Chain v f o.node.fsCluster l
  kind : o.node.kind ≠ .directory
  length : o.node.length < 4294967296
  cover : o.node.length + linkOff o.node ≤ l.length * v.clusterBytes
  anchored : Anchored v f l o.node

/-- The chain covers the length, and in a link what is before the target. -/
def Covers (v : Vol) (o : Open) : Prop :=
  o.node.length + linkOff o.node ≤ (chainLength v o.node.fsCluster o.fs).1 * v.clusterBytes

/-- A call did not fail. -/
def Served (r : Except Int Nat) : Prop := ∃ n, r = .ok n

theorem linkOff_le (node : Node) : linkOff node ≤ 8 := by
  rw [linkOff]
  split <;> simp

theorem Stored.one_le (h : Stored v o f d l) (hlink : linkOff o.node ≠ 0) : 1 ≤ l.length := by
  have hcover := h.cover
  cases hl : l with
  | nil =>
    rw [hl] at hcover
    simp only [List.length_nil, Nat.zero_mul] at hcover
    omega
  | cons x r => simp

theorem covers_iff (g : v.Geometry) (h : Reads v o.fs f d) (hl : Chain v f o.node.fsCluster l) :
    Covers v o ↔ o.node.length + linkOff o.node ≤ l.length * v.clusterBytes := by
  rw [Covers, (chainLength_chain g h hl).1]

theorem commit_covers (g : v.Geometry) (h : Reads v fs f d) (hl : Chain v f node.fsCluster l)
    (ha : Anchored v f l node) (r : Nat) :
    (commit v r node fs).1 = .ok r ∧
    (Covers v ⟨(commit v r node fs).2.1, (commit v r node fs).2.2⟩ ↔
      node.length + linkOff node ≤ l.length * v.clusterBytes) := by
  obtain ⟨node', fs', d', heq, h', -, hnode⟩ := commit_spec g h ha r
  have hl' : Chain v f node'.fsCluster l := by rw [hnode]; exact hl
  have hlen : node'.length = node.length := by rw [hnode]
  have hkind : node'.kind = node.kind := by rw [hnode]
  rw [heq]
  refine ⟨rfl, ?_⟩
  rw [covers_iff (o := ⟨node', fs'⟩) g h' hl', hlen, linkOff_congr hkind]

/-! ## `fat_truncate` -/

theorem clustersFor_wrap (g : v.Geometry) (hspc : v.sectorsPerCluster ≤ 128) {length off : Nat}
    (hlength : length < 4294967296) (hoff : off ≤ 8)
    (hwrap : 4294967296 < length + off + v.clusterBytes) :
    clustersFor v (u32 (length + off)) * v.clusterBytes < length + off ∧
    clustersFor v (u32 (length + off)) ≤ if off = 0 then 0 else 1 := by
  have hcb : 512 ≤ v.clusterBytes ∧ v.clusterBytes ≤ 65536 := by
    have := g.spc_pos
    simp only [Vol.clusterBytes, BLOCK_SECTOR_SIZE]
    omega
  have hsum : u32 (u32 (length + off) + v.clusterBytes - 1) < v.clusterBytes + off := by
    simp only [u32]
    omega
  have hnone : off = 0 → clustersFor v (u32 (length + off)) = 0 := by
    intro h0
    exact Nat.div_eq_of_lt (by omega)
  have hone : clustersFor v (u32 (length + off)) ≤ 1 := by
    have : clustersFor v (u32 (length + off)) < 2 := Nat.div_lt_of_lt_mul (by omega)
    omega
  constructor
  · by_cases h0 : clustersFor v (u32 (length + off)) = 0
    · rw [h0]
      omega
    · rw [show clustersFor v (u32 (length + off)) = 1 by omega]
      omega
  · split
    · rename_i h0
      exact Nat.le_of_eq (hnone h0)
    · exact hone

/-- When `fat_truncate` leaves a covered node: the length stays, or it can be
rounded up to a cluster in 32 bits, or it grows within what the chain has. -/
def TruncateFits (v : Vol) (o : Open) (length : Nat) : Prop :=
  length = o.node.length ∨ length + linkOff o.node + v.clusterBytes ≤ 4294967296 ∨
    (o.node.length < length ∧
      length + linkOff o.node ≤ (chainLength v o.node.fsCluster o.fs).1 * v.clusterBytes)

theorem growTo_any (g : v.Geometry) (h : Reads v fs f d) (hl : Chain v f node.fsCluster l)
    (ha : Anchored v f l node) {raw : Nat} (hraw : raw < 4294967296) :
    ∃ res node' fs' f' d' l', growTo v node raw fs = (res, node', fs') ∧ Reads v fs' f' d' ∧
      Chain v f' node'.fsCluster l' ∧ Anchored v f' l' node' ∧ Rehead node node' ∧
      ((res = .ok () ∧ l'.length = max (clustersFor v raw) l.length) ∨
        (res = .error ENOSPC ∧ l.length < clustersFor v raw)) := by
  rw [growTo]
  dsimp only
  obtain ⟨hlen, h₁⟩ := chainLength_chain g h hl
  rcases hc : chainLength v node.fsCluster fs with ⟨n, fs₁⟩
  rw [hc] at hlen h₁
  subst hlen
  obtain ⟨res, node₁, fs₂, f', d₁, new, heq, h₂, hg, hre, hres, -⟩ :=
    ensureChain_spec g h₁ hl (clustersFor v raw)
  have ha₁ : Anchored v f' (l ++ new) node₁ := ha.frame hg.frame hre.lba hre.off
  rcases hres with ⟨rfl, hlen⟩ | ⟨rfl, rfl, hhead⟩
  · rw [heq]
    generalize hgap : (if raw < u32 (l.length * v.clusterBytes) then raw
      else u32 (l.length * v.clusterBytes)) = gapEnd
    have hgap₁ : gapEnd < 4294967296 ∧ gapEnd ≤ l.length * v.clusterBytes := by
      have hle : u32 (l.length * v.clusterBytes) ≤ l.length * v.clusterBytes := Nat.mod_le _ _
      split at hgap <;> omega
    have hlonger : l.length * v.clusterBytes ≤ (l ++ new).length * v.clusterBytes :=
      Nat.mul_le_mul_right _ (by rw [hlen]; omega)
    obtain ⟨fs', d', hzero, h', -⟩ := zeroGap_spec g (by omega) hgap₁.1
      (gapEnd - u32 (node.length + linkOff node)) (Nat.le_refl _) h₂ hg.chain
    exact ⟨_, _, _, f', d', l ++ new, hzero, h', hg.chain, ha₁, hre, .inl ⟨rfl, hlen⟩⟩
  · rw [heq]
    refine ⟨_, _, _, f', d₁, l ++ [], rfl, h₂, hg.chain, ha₁, hre, .inr ⟨rfl, ?_⟩⟩
    by_contra henough
    obtain ⟨fs₃, heq', -⟩ := ensureChain_enough g h₁ hl (Nat.le_of_not_lt henough)
    rw [heq'] at heq
    exact absurd (Prod.mk.inj heq).1 (by simp)

theorem truncate_covers (g : v.Geometry) (hspc : v.sectorsPerCluster ≤ 128)
    (h : Stored v o f d l) {length : Nat} (hlength : length < 4294967296) :
    (Served (fatTruncate v o.node length o.fs).1 →
      Covers v ⟨(fatTruncate v o.node length o.fs).2.1, (fatTruncate v o.node length o.fs).2.2⟩) ↔
    TruncateFits v o length := by
  have hcb := g.cb_pos
  have hcover := h.cover
  have hoff := linkOff_le o.node
  have hfit : length + linkOff o.node + v.clusterBytes ≤ 4294967296 →
      length + linkOff o.node ≤ clustersFor v (u32 (length + linkOff o.node)) * v.clusterBytes := by
    intro hfit
    rw [u32_of_lt (by omega), clustersFor_eq (by omega)]
    exact le_clusters _ hcb
  have hwrap := fun hw : 4294967296 < length + linkOff o.node + v.clusterBytes =>
    clustersFor_wrap g hspc hlength hoff hw
  have hlink : ¬ (if linkOff o.node = 0 then 0 else 1) > l.length := by
    split
    · omega
    · rename_i hlink
      have := h.one_le hlink
      omega
  rw [TruncateFits, (chainLength_chain g h.reads h.chain).1, fatTruncate, if_neg h.kind]
  generalize hneed : clustersFor v (u32 (length + linkOff o.node)) = need at *
  by_cases hgrow : length > o.node.length
  · rw [if_pos hgrow]
    obtain ⟨res, node₁, fs₁, f', d', l', heq, h₁, hl₁, ha₁, hre, hres⟩ := growTo_any g h.reads
      h.chain h.anchored (show u32 (length + linkOff o.node) < 4294967296 from Nat.mod_lt _ (by decide))
    rw [hneed] at hres
    rw [heq]
    rcases hres with ⟨rfl, hlen⟩ | ⟨rfl, hshort⟩
    · obtain ⟨hok, hiff⟩ := @commit_covers _ _ _ _ _ { node₁ with length := length } g h₁ hl₁
        (ha₁.frame (.refl f' d' l' []) rfl rfl) 0
      have hlo : linkOff ({ node₁ with length := length } : Node) = linkOff o.node :=
        linkOff_congr hre.kind
      dsimp only at hok hiff ⊢
      rw [hok, hiff, hlo, hlen]
      refine ⟨fun hserved => ?_, fun hcond _ => ?_⟩
      · have hle := hserved ⟨0, rfl⟩
        by_cases hw : 4294967296 < length + linkOff o.node + v.clusterBytes
        · obtain ⟨hlt, hfew⟩ := hwrap hw
          rcases Nat.le_total need l.length with hn | hn
          · rw [Nat.max_eq_right hn] at hle
            exact .inr (.inr ⟨hgrow, hle⟩)
          · rw [Nat.max_eq_left hn] at hle
            omega
        · exact .inr (.inl (by omega))
      · rcases hcond with heq | hfits | ⟨-, hhas⟩
        · omega
        · exact Nat.le_trans (hfit hfits) (Nat.mul_le_mul_right _ (Nat.le_max_left _ _))
        · exact Nat.le_trans hhas (Nat.mul_le_mul_right _ (Nat.le_max_right _ _))
    · refine ⟨fun _ => .inr (.inl ?_), fun _ hserved => ?_⟩
      · by_contra hw
        omega
      · obtain ⟨n, hn⟩ := hserved
        exact absurd hn (by simp)
  · rw [if_neg hgrow]
    by_cases hshrink : length < o.node.length
    · rw [if_pos hshrink]
      obtain ⟨node₁, fs₁, f', heq, h₁, hl₁, hfr, hnode⟩ :=
        shrinkTo_spec g h.reads h.chain (u32 (length + linkOff o.node))
      rw [hneed] at hl₁ hfr
      rw [heq]
      have ha₁ : Anchored v f' (l.take need) { node₁ with length := length } :=
        h.anchored.frame hfr (by rw [hnode]) (by rw [hnode])
      obtain ⟨hok, hiff⟩ := @commit_covers _ _ _ _ _ { node₁ with length := length } g h₁ hl₁ ha₁ 0
      have hlo : linkOff ({ node₁ with length := length } : Node) = linkOff o.node :=
        linkOff_congr (by rw [hnode])
      dsimp only at hok hiff ⊢
      rw [hok, hiff, hlo, List.length_take]
      refine ⟨fun hserved => .inr (.inl ?_), fun hcond _ => ?_⟩
      · have hle := hserved ⟨0, rfl⟩
        by_contra hw
        have := Nat.mul_le_mul_right v.clusterBytes (Nat.min_le_left need l.length)
        omega
      · have hfits : length + linkOff o.node + v.clusterBytes ≤ 4294967296 := by omega
        have := hfit hfits
        rcases Nat.le_total need l.length with hn | hn
        · rwa [Nat.min_eq_left hn]
        · rw [Nat.min_eq_right hn]
          omega
    · rw [if_neg hshrink]
      obtain rfl : length = o.node.length := by omega
      obtain ⟨hok, hiff⟩ := commit_covers g h.reads h.chain h.anchored 0
      exact ⟨fun _ => .inl rfl, fun _ _ => hiff.mpr hcover⟩

/-! ## `fat_write` -/

theorem fatWriteRaw_any (g : v.Geometry) (h : Reads v fs f d) (hl : Chain v f node.fsCluster l)
    (ha : Anchored v f l node) (offset size : Nat) (buffer : Mem) :
    ∃ res node' fs' f' d' l', fatWriteRaw v node offset size buffer fs = (res, node', fs') ∧
      Reads v fs' f' d' ∧ Chain v f' node'.fsCluster l' ∧ Anchored v f' l' node' ∧
      Rehead node node' ∧
      ((∃ r, res = .ok r ∧
          l'.length = max (clustersFor v (u32 (offset + size))) l.length ∧ r ≤ size ∧
          (r = size ∨ l'.length * v.clusterBytes ≤ u32 (offset + r)) ∧
          ∀ i, i < r → u32 (offset + i) < l'.length * v.clusterBytes) ∨
        (res = .error ENOSPC ∧ l.length < clustersFor v (u32 (offset + size)))) := by
  rw [fatWriteRaw]
  obtain ⟨res, node₁, fs₁, f', d₁, new, heq, h₁, hg, hre, hres, -⟩ :=
    ensureChain_spec g h hl (clustersFor v (u32 (offset + size)))
  have ha₁ : Anchored v f' (l ++ new) node₁ := ha.frame hg.frame hre.lba hre.off
  rcases hres with ⟨rfl, hlen⟩ | ⟨rfl, rfl, hhead⟩
  · rw [heq]
    obtain ⟨r, fs₂, d', hw, h₂, -, hr, hend, hall⟩ := writeLoop_any g hg.chain offset size buffer
      size 0 h₁ (Nat.zero_le _) (by omega)
    refine ⟨.ok r, node₁, fs₂, f', d', l ++ new, ?_, h₂, hg.chain, ha₁, hre,
      .inl ⟨r, rfl, hlen, hr, hend, fun i hi => hall i (Nat.zero_le _) hi⟩⟩
    simp only [hw]
  · rw [heq]
    refine ⟨_, _, _, f', d₁, l ++ [], rfl, h₁, hg.chain, ha₁, hre, .inr ⟨rfl, ?_⟩⟩
    by_contra henough
    obtain ⟨fs₃, heq', -⟩ := ensureChain_enough g h hl (Nat.le_of_not_lt henough)
    rw [heq'] at heq
    exact absurd (Prod.mk.inj heq).1 (by simp)

/-- When `fat_write` leaves a node that is not covered: a link, and an end so
close to 2^32 that the eight bytes in front of the target are what does not
fit. -/
def WriteWraps (v : Vol) (o : Open) (offset size : Nat) : Prop :=
  o.node.kind = .symlink ∧ 0 < size ∧ size < 2147483648 ∧ 4294967288 ≤ u32 (offset + size) ∧
    (chainLength v o.node.fsCluster o.fs).1 * v.clusterBytes < u32 (offset + size) + 8 ∧
    (4294967288 ≤ offset ∨
      4294967296 ≤ (chainLength v o.node.fsCluster o.fs).1 * v.clusterBytes)

theorem written_covered {cb n n' offset size r : Nat} (hcb : 512 ≤ cb ∧ cb ≤ 65536) (hn : 1 ≤ n)
    (hn' : n' = max (u32 (u32 (u32 (offset + 8) + size) + cb - 1) / cb) n)
    (hoffset : offset < 4294967296) (hr : 0 < r) (hsize : r ≤ size) (hsmall : r < 2147483648)
    (hend : r = size ∨ n' * cb ≤ u32 (u32 (offset + 8) + r))
    (hall : ∀ i, i < r → u32 (u32 (offset + 8) + i) < n' * cb)
    (hnot : ¬ (0 < size ∧ size < 2147483648 ∧ 4294967288 ≤ u32 (offset + size) ∧
      n * cb < u32 (offset + size) + 8 ∧ (4294967288 ≤ offset ∨ 4294967296 ≤ n * cb))) :
    u32 (offset + r) + 8 ≤ n' * cb := by
  have hlonger : n * cb ≤ n' * cb := Nat.mul_le_mul_right _ (by omega)
  have hone : cb ≤ n * cb := Nat.le_mul_of_pos_left _ hn
  have hlast := hall (r - 1) (by omega)
  by_cases hlow : u32 (offset + r) + 8 ≤ 4294967296
  · simp only [u32] at *
    omega
  · -- the last bytes lie at the front of the chain again
    have hfull : r = size := by
      rcases hend with h | h
      · exact h
      · simp only [u32] at *
        omega
    subst hfull
    by_cases hhigh : 4294967288 ≤ offset
    · simp only [u32] at *
      omega
    · have hcross := hall (4294967295 - (offset + 8)) (by simp only [u32] at *; omega)
      have hneed : u32 (u32 (u32 (offset + 8) + r) + cb - 1) / cb ≤ 1 := by
        have : u32 (u32 (u32 (offset + 8) + r) + cb - 1) / cb < 2 := by
          refine Nat.div_lt_of_lt_mul ?_
          simp only [u32] at *
          omega
        omega
      have hsame : n' = n := by omega
      subst hsame
      simp only [u32] at *
      omega

theorem wraps_full (g : v.Geometry) (hspc : v.sectorsPerCluster ≤ 128) {n offset size : Nat}
    (hn : 1 ≤ n) (hoffset : offset < 4294967296) (hpos : 0 < size) (hsize : size < 2147483648)
    (hend : 4294967288 ≤ u32 (offset + size))
    (hwhere : 4294967288 ≤ offset ∨ 4294967296 ≤ n * v.clusterBytes) :
    clustersFor v (u32 (u32 (offset + 8) + size)) ≤ n ∧
    ∀ r, r ≤ size → n * v.clusterBytes ≤ u32 (u32 (offset + 8) + r) → r = size := by
  have hcb := g.cb_pos
  have hcb' : 512 ≤ v.clusterBytes := by
    have := g.spc_pos
    simp only [Vol.clusterBytes, BLOCK_SECTOR_SIZE]
    omega
  have hone : v.clusterBytes ≤ n * v.clusterBytes := Nat.le_mul_of_pos_left _ hn
  constructor
  · refine clustersFor_le hcb ?_
    simp only [u32] at *
    omega
  · intro r hr hle
    simp only [u32] at *
    omega

theorem write_covers (g : v.Geometry) (hspc : v.sectorsPerCluster ≤ 128)
    (h : Stored v o f d l) {offset size : Nat} (hoffset : offset < 4294967296) (buffer : Mem) :
    (Served (fatWrite v o.node offset size buffer o.fs).1 →
      Covers v ⟨(fatWrite v o.node offset size buffer o.fs).2.1,
        (fatWrite v o.node offset size buffer o.fs).2.2⟩) ↔
    ¬ WriteWraps v o offset size := by
  have hcb : 512 ≤ v.clusterBytes ∧ v.clusterBytes ≤ 65536 := by
    have := g.spc_pos
    simp only [Vol.clusterBytes, BLOCK_SECTOR_SIZE]
    omega
  have hcover := h.cover
  obtain ⟨res, node₁, fs₁, f', d', l', heq, h₁, hl₁, ha₁, hre, hres⟩ :=
    fatWriteRaw_any g h.reads h.chain h.anchored (u32 (offset + linkOff o.node)) size buffer
  -- in the bad case the chain is as it was and all of it was written
  have hbad : WriteWraps v o offset size → linkOff o.node = 8 ∧ 0 < size ∧ size < 2147483648 ∧
      l.length * v.clusterBytes < u32 (offset + size) + 8 ∧ res = .ok size ∧
      l'.length = l.length := by
    rintro ⟨hkind, hpos, hsmall, hend, hout, hwhere⟩
    have hlink : linkOff o.node = 8 := by rw [linkOff, if_pos hkind]
    have hn := h.one_le (by omega)
    rw [(chainLength_chain g h.reads h.chain).1] at hout hwhere
    obtain ⟨hneed, hall⟩ := wraps_full g hspc hn hoffset hpos hsmall hend hwhere
    rw [hlink] at hres
    rcases hres with ⟨r, rfl, hlen, hr, hstop, -⟩ | ⟨-, hshort⟩
    · have hsame : l'.length = l.length := by omega
      rw [hsame] at hstop
      have hfull : r = size := hstop.elim id (hall r hr)
      exact ⟨hlink, hpos, hsmall, hout, by rw [hfull], hsame⟩
    · omega
  rw [fatWrite, if_neg h.kind, heq]
  rcases hres with ⟨r, rfl, hlen, hr, hstop, hall⟩ | ⟨rfl, -⟩
  · dsimp only
    by_cases h0 : r = 0
    · rw [if_pos h0]
      refine ⟨fun _ hw => ?_, fun _ hs => Exists.elim hs fun n hn => absurd hn (by simp)⟩
      obtain ⟨-, hpos, -, -, hres, -⟩ := hbad hw
      have hrsize := Except.ok.inj hres
      omega
    rw [if_neg h0]
    by_cases hbig : r ≥ 2147483648
    · rw [if_pos hbig]
      refine ⟨fun _ hw => ?_, fun _ hs => Exists.elim hs fun n hn => absurd hn (by simp)⟩
      obtain ⟨-, -, hsmall, -, hres, -⟩ := hbad hw
      omega
    rw [if_neg hbig]
    generalize hlength : (if u32 (offset + r) > node₁.length then u32 (offset + r)
      else node₁.length) = length
    obtain ⟨hok, hiff⟩ := @commit_covers _ _ _ _ _
      { node₁ with length := length, data := mirror node₁ offset r buffer } g h₁ hl₁
      (ha₁.frame (.refl f' d' l' []) rfl rfl) r
    have hlo : linkOff ({ node₁ with
        length := length, data := mirror node₁ offset r buffer } : Node) = linkOff o.node :=
      linkOff_congr hre.kind
    dsimp only at hok hiff
    rw [hok, hiff, hlo]
    have hold := hre.length
    have hlonger : l.length * v.clusterBytes ≤ l'.length * v.clusterBytes :=
      Nat.mul_le_mul_right _ (by omega)
    constructor
    · intro hserved hw
      obtain ⟨hlink, -, -, hout, hres, hsame⟩ := hbad hw
      obtain rfl := Except.ok.inj hres
      have hle := hserved ⟨_, rfl⟩
      rw [hsame, hlink] at hle
      split at hlength <;> omega
    · intro hnot _
      have hend : u32 (offset + r) + linkOff o.node ≤ l'.length * v.clusterBytes := by
        by_cases hkind : o.node.kind = .symlink
        · have hlink : linkOff o.node = 8 := by rw [linkOff, if_pos hkind]
          rw [hlink] at hlen hstop hall ⊢
          have hn := h.one_le (by omega)
          refine written_covered hcb hn hlen hoffset (by omega) hr (by omega) hstop hall ?_
          rintro ⟨h₁, h₂, h₃, h₄, h₅⟩
          rw [WriteWraps, (chainLength_chain g h.reads h.chain).1] at hnot
          exact hnot ⟨hkind, h₁, h₂, h₃, h₄, h₅⟩
        · have hlink : linkOff o.node = 0 := by rw [linkOff, if_neg hkind]
          have hlast := hall (r - 1) (by omega)
          simp only [u32] at *
          omega
      split at hlength <;> omega
  · refine ⟨fun _ hw => ?_, fun _ hs => Exists.elim hs fun n hn => absurd hn (by simp)⟩
    obtain ⟨-, -, -, -, hres, -⟩ := hbad hw
    exact absurd hres (by simp)

/-! ## Both -/

/-- **A file's chain covers its length** after a `fat_truncate` or a
`fat_write` that succeeds, exactly where the sums stay in 32 bits. -/
theorem chain_covers (g : v.Geometry) (hspc : v.sectorsPerCluster ≤ 128) (h : Stored v o f d l)
    (length offset size : UInt32) (buffer : Mem) :
    ((Served (fatTruncate v o.node length.toNat o.fs).1 →
        Covers v ⟨(fatTruncate v o.node length.toNat o.fs).2.1,
          (fatTruncate v o.node length.toNat o.fs).2.2⟩) ↔
      TruncateFits v o length.toNat) ∧
    ((Served (fatWrite v o.node offset.toNat size.toNat buffer o.fs).1 →
        Covers v ⟨(fatWrite v o.node offset.toNat size.toNat buffer o.fs).2.1,
          (fatWrite v o.node offset.toNat size.toNat buffer o.fs).2.2⟩) ↔
      ¬ WriteWraps v o offset.toNat size.toNat) :=
  ⟨truncate_covers g hspc h length.toNat_lt, write_covers g hspc h offset.toNat_lt buffer⟩

theorem stored_smallFile : ∃ f d l, Stored smallVol smallFile f d l := by
  obtain ⟨f, d, l, h⟩ := backs_smallFile
  exact ⟨f, d, l, h.reads, h.chain, h.kind, by decide, by rw [h.length]; exact h.cover, h.anchored⟩

/-- An empty file grows to two clusters. -/
theorem chain_covers_grown :
    Covers smallVol ⟨(fatTruncate smallVol smallFile.node 600 smallFile.fs).2.1,
      (fatTruncate smallVol smallFile.node 600 smallFile.fs).2.2⟩ := by
  obtain ⟨f, d, l, h⟩ := stored_smallFile
  exact (chain_covers smallVol_geometry (by decide) h 600 0 0 fun _ => 0).1.mpr
    (.inr (.inl (by decide))) ⟨0, by decide⟩

/-- It grows to 4 GB without a cluster. -/
theorem chain_covers_not_wrapped :
    (fatTruncate smallVol smallFile.node 4294967295 smallFile.fs).1 = .ok 0 ∧
    ¬ Covers smallVol ⟨(fatTruncate smallVol smallFile.node 4294967295 smallFile.fs).2.1,
      (fatTruncate smallVol smallFile.node 4294967295 smallFile.fs).2.2⟩ := by
  refine ⟨by decide, ?_⟩
  rw [Covers]
  decide

end NovarisOS.Fat32
