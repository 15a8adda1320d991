/-
NovarisOS.Fat32.FileTheorems — a file on the volume is a byte array, in
every run that meets `StepOk`.

The bytes of a file are the bytes of its clusters in the order of its chain
(`byteAt`). The loops are brought down to one step: so many bytes of one
cluster are copied in or out, and the position moves on by as many. What the
calls do is then arithmetic on positions.
-/
import NovarisOS.Fat32.ChainTheorems
import NovarisOS.Fat32.File

namespace NovarisOS.Fat32

open Function (update update_of_ne update_self)

variable {v : Vol} {fs fs' : Fs} {f : Nat → Nat} {d d' : Nat → Mem} {c x : Nat} {l : List Nat}

/-! ## Positions -/

/-- Byte `p` of the clusters of a chain; 0 where it has none. -/
def byteAt (v : Vol) (d : Nat → Mem) (l : List Nat) (p : Nat) : UInt8 :=
  match l[p / v.clusterBytes]? with
  | none => 0
  | some x => d x (p % v.clusterBytes)

theorem Vol.Geometry.cb_pos (g : v.Geometry) : 0 < v.clusterBytes := by
  have := g.spc_pos
  simp only [Vol.clusterBytes, BLOCK_SECTOR_SIZE]
  omega

variable {i p n bytes : Nat}

theorem div_mod_run {cb : Nat} (h : p % cb + i < cb) :
    (p + i) / cb = p / cb ∧ (p + i) % cb = p % cb + i := by
  have hpos : 0 < cb := by omega
  have hsum : p + i = cb * (p / cb) + (p % cb + i) := by
    have := Nat.div_add_mod p cb
    omega
  rw [hsum, Nat.mul_add_div hpos, Nat.mul_add_mod, Nat.div_eq_of_lt h, Nat.mod_eq_of_lt h]
  exact ⟨rfl, rfl⟩

theorem byteAt_run (hx : l[p / v.clusterBytes]? = some x)
    (h : p % v.clusterBytes + i < v.clusterBytes) :
    byteAt v d l (p + i) = d x (p % v.clusterBytes + i) := by
  obtain ⟨hdiv, hmod⟩ := div_mod_run h
  rw [byteAt, hdiv, hmod, hx]

theorem index_lt (h : p < l.length * v.clusterBytes) : ∃ x, l[p / v.clusterBytes]? = some x := by
  have hlt : p / v.clusterBytes < l.length :=
    Nat.div_lt_of_lt_mul (by rw [Nat.mul_comm]; exact h)
  exact ⟨l[p / v.clusterBytes], List.getElem?_eq_getElem hlt⟩

theorem byteAt_out (h : l.length * v.clusterBytes ≤ p) (hpos : 0 < v.clusterBytes) :
    byteAt v d l p = 0 := by
  have hle : l.length ≤ p / v.clusterBytes := (Nat.le_div_iff_mul_le hpos).mpr h
  rw [byteAt, List.getElem?_eq_none hle]

theorem byteAt_update (hnodup : l.Nodup) (hx : l[p / v.clusterBytes]? = some x)
    (hn : p % v.clusterBytes + n ≤ v.clusterBytes) (src : Mem)
    (q : Nat) :
    byteAt v (update d x ((d x).copyAt (p % v.clusterBytes) src n)) l q =
      if p ≤ q ∧ q < p + n then src (q - p) else byteAt v d l q := by
  have hp := Nat.div_add_mod p v.clusterBytes
  have hq := Nat.div_add_mod q v.clusterBytes
  by_cases hsame : q / v.clusterBytes = p / v.clusterBytes
  · rw [byteAt, byteAt, hsame, hx]
    simp only [update_self, Mem.copyAt_apply]
    rw [hsame] at hq
    by_cases hin : p ≤ q ∧ q < p + n
    · rw [if_pos (by omega), if_pos hin]
      congr 1
      omega
    · rw [if_neg (by omega), if_neg hin]
  · have hout : ¬ (p ≤ q ∧ q < p + n) := by
      rintro ⟨h₁, h₂⟩
      apply hsame
      have := (div_mod_run (show p % v.clusterBytes + (q - p) < v.clusterBytes by omega)).1
      rwa [Nat.add_sub_cancel' h₁] at this
    rw [if_neg hout, byteAt, byteAt]
    cases hy : l[q / v.clusterBytes]? with
    | none => rfl
    | some y =>
      simp only
      rw [update_of_ne]
      rintro rfl
      exact hsame ((List.getElem?_inj (List.getElem?_eq_some_iff.mp hy).1 hnodup).mp
        (hy.trans hx.symm))

theorem byteAt_congr (h : ∀ x ∈ l, d' x = d x) (p : Nat) : byteAt v d' l p = byteAt v d l p := by
  rw [byteAt, byteAt]
  cases hx : l[p / v.clusterBytes]? with
  | none => rfl
  | some x => exact congrFun (h x (List.mem_of_getElem? hx)) _

theorem byteAt_take {k : Nat} (h : p < (l.take k).length * v.clusterBytes) :
    byteAt v d (l.take k) p = byteAt v d l p := by
  obtain ⟨x, hx⟩ := index_lt h
  have hlt := (List.getElem?_eq_some_iff.mp hx).1
  rw [List.length_take] at hlt
  rw [byteAt, byteAt, List.getElem?_take_of_lt (by omega)]

/-! ## One cluster's worth -/

theorem sectorsFrom_data (h : Reads v fs f d) (hc : v.has c = true) {s : Nat}
    (hi : s * BLOCK_SECTOR_SIZE + i < v.clusterBytes) :
    fs.sectorsFrom (clusterLba v c + s) i = d c (s * BLOCK_SECTOR_SIZE + i) := by
  have hdiv : (s * BLOCK_SECTOR_SIZE + i) / BLOCK_SECTOR_SIZE = s + i / BLOCK_SECTOR_SIZE := by
    simp only [BLOCK_SECTOR_SIZE]
    omega
  have hmod : (s * BLOCK_SECTOR_SIZE + i) % BLOCK_SECTOR_SIZE = i % BLOCK_SECTOR_SIZE := by
    simp only [BLOCK_SECTOR_SIZE]
    omega
  rw [← h.data, data_eq fs hc hi, Fs.sectorsFrom, hdiv, hmod, Nat.add_assoc]

theorem locate (g : v.Geometry) (hc : v.has c = true) {w : Nat} (hw : w < v.clusterBytes) :
    u32 (clusterLba v c + w / BLOCK_SECTOR_SIZE) = clusterLba v c + w / BLOCK_SECTOR_SIZE ∧
    w / BLOCK_SECTOR_SIZE < v.sectorsPerCluster := by
  have hlt : w / BLOCK_SECTOR_SIZE < v.sectorsPerCluster := by
    simp only [Vol.clusterBytes, BLOCK_SECTOR_SIZE] at *
    omega
  have := g.cluster_fits hc
  have := g.small
  exact ⟨u32_of_lt (by omega), hlt⟩

theorem readCluster_spec (g : v.Geometry) (h : Reads v fs f d) (hc : v.has c = true)
    (s count : Nat) (hpos : 0 < count) (hle : s + count ≤ v.sectorsPerCluster) (buf : Mem)
    (off : Nat) :
    ∃ buf', blockdevRead v (clusterLba v c + s) count buf off fs = (true, buf', fs) ∧
      buf' = buf.copyAt off ((d c).shift (s * BLOCK_SECTOR_SIZE)) (count * BLOCK_SECTOR_SIZE) := by
  have := g.cluster_fits hc
  rw [blockdevRead_served h.ok.served (inRange_of_le hpos (by omega))]
  refine ⟨_, rfl, ?_⟩
  funext i
  rw [Mem.copyAt_apply, Mem.copyAt_apply]
  split
  · rename_i hi
    rw [sectorsFrom_data h hc (by simp only [Vol.clusterBytes, BLOCK_SECTOR_SIZE] at *; omega)]
    rfl
  · rfl

/-! ## Reading -/

theorem readLoop_spec (g : v.Geometry) (hl : Chain v f c l) (offset size : Nat)
    (hcover : offset + size ≤ l.length * v.clusterBytes) (hsmall : offset + size < 4294967296)
    (fuel done : Nat) (h : Reads v fs f d) (hdone : done ≤ size) (hfuel : size - done ≤ fuel)
    (buf : Mem) :
    ∃ buf' fs', readLoop v c offset size fuel done buf fs = (size, buf', fs') ∧ Reads v fs' f d ∧
      ∀ i, i < size → buf' i = if i < done then buf i else byteAt v d l (offset + i) := by
  have hcb := g.cb_pos
  induction fuel generalizing done buf fs with
  | zero =>
    obtain rfl : done = size := by omega
    exact ⟨buf, fs, rfl, h, fun i hi => by rw [if_pos hi]⟩
  | succ fuel ih =>
    rw [readLoop]
    by_cases hlt : done < size
    · rw [if_pos hlt]
      simp only [u32_of_lt (show offset + done < 4294967296 by omega)]
      obtain ⟨x, hx⟩ := index_lt (v := v) (l := l) (p := offset + done) (by omega)
      have hxl : x ∈ l := List.mem_of_getElem? hx
      have hhas := hl.has x hxl
      obtain ⟨hnth, h₁⟩ := chainNth_chain g h hl ((offset + done) / v.clusterBytes)
      rcases hc : chainNth v c ((offset + done) / v.clusterBytes) fs with ⟨y, fs₁⟩
      rw [hc] at hnth h₁
      rw [hx] at hnth
      obtain rfl : y = x := hnth
      have hy0 : y ≠ 0 := by have := (g.lt_bad hhas).1; omega
      have hw : (offset + done) % v.clusterBytes < v.clusterBytes := Nat.mod_lt _ hcb
      obtain ⟨hlba, hs⟩ := locate g hhas hw
      simp only [if_neg hy0, hlba]
      have hrun : ∀ i, (offset + done) % v.clusterBytes + i < v.clusterBytes →
          byteAt v d l (offset + done + i) = d y ((offset + done) % v.clusterBytes + i) :=
        fun i => byteAt_run hx
      generalize (offset + done) % v.clusterBytes = w at *
      -- both ways copy `n` bytes from byte `w` of the cluster
      have hstep : ∀ (n : Nat) (src : Mem), 0 < n → done + n ≤ size → w + n ≤ v.clusterBytes →
          (∀ i, i < n → src i = d y (w + i)) →
          ∃ buf' fs', readLoop v c offset size fuel (done + n) (buf.copyAt done src n) fs₁ =
              (size, buf', fs') ∧ Reads v fs' f d ∧
            ∀ i, i < size → buf' i = if i < done then buf i else byteAt v d l (offset + i) := by
        intro n src hn hle hwn hsrc
        obtain ⟨buf', fs', heq, hr, hbuf⟩ := ih (done + n) h₁ hle (by omega) (buf.copyAt done src n)
        refine ⟨buf', fs', heq, hr, fun i hi => ?_⟩
        rw [hbuf i hi]
        by_cases h₂ : i < done
        · rw [if_pos (by omega), if_pos h₂, Mem.copyAt_outside (.inl h₂)]
        · rw [if_neg h₂]
          by_cases h₃ : i < done + n
          · rw [if_pos h₃, Mem.copyAt_inside (by omega) h₃, hsrc _ (by omega)]
            have := hrun (i - done) (by omega)
            rw [show offset + done + (i - done) = offset + i by omega] at this
            rw [this]
          · rw [if_neg h₃]
      by_cases hwhole : w % BLOCK_SECTOR_SIZE = 0 ∧
          min (BLOCK_SECTOR_SIZE - w % BLOCK_SECTOR_SIZE) (size - done) = BLOCK_SECTOR_SIZE
      · rw [if_pos hwhole]
        have hsec : w = w / BLOCK_SECTOR_SIZE * BLOCK_SECTOR_SIZE := by
          simp only [BLOCK_SECTOR_SIZE] at *
          omega
        generalize hwant : min ((size - done) / BLOCK_SECTOR_SIZE)
          ((v.clusterBytes - w) / BLOCK_SECTOR_SIZE) = want
        have hwant₁ : 0 < want ∧ done + want * BLOCK_SECTOR_SIZE ≤ size ∧
            w / BLOCK_SECTOR_SIZE + want ≤ v.sectorsPerCluster := by
          simp only [Vol.clusterBytes, BLOCK_SECTOR_SIZE] at *
          omega
        obtain ⟨buf₁, hread, rfl⟩ := readCluster_spec g h₁ hhas _ _ hwant₁.1 hwant₁.2.2 buf done
        rw [hread]
        refine hstep _ _ ?_ hwant₁.2.1 ?_ fun i _ => ?_
        · simp only [BLOCK_SECTOR_SIZE]
          omega
        · simp only [Vol.clusterBytes, BLOCK_SECTOR_SIZE] at *
          omega
        · rw [Mem.shift_apply, ← hsec]
      · rw [if_neg hwhole]
        obtain ⟨sec, hread, rfl⟩ := readCluster_spec g h₁ hhas (w / BLOCK_SECTOR_SIZE) 1
          (by omega) (by omega) (fun _ => 0) 0
        rw [hread]
        refine hstep _ _ ?_ ?_ ?_ fun i hi => ?_
        · simp only [BLOCK_SECTOR_SIZE] at *
          omega
        · omega
        · simp only [Vol.clusterBytes, BLOCK_SECTOR_SIZE] at *
          omega
        · rw [Mem.shift_apply, Mem.copyAt_inside (Nat.zero_le _)
            (by simp only [BLOCK_SECTOR_SIZE] at *; omega), Mem.shift_apply]
          congr 1
          simp only [BLOCK_SECTOR_SIZE] at *
          omega
    · rw [if_neg hlt]
      obtain rfl : done = size := by omega
      exact ⟨buf, fs, rfl, h, fun i hi => by rw [if_pos hi]⟩

/-! ## Writing -/

/-- The bytes from `p` to `p + n` of the file are those of the buffer, and
nothing off the chain changed. -/
structure Wrote (v : Vol) (d d' : Nat → Mem) (l : List Nat) (p n : Nat) (src : Mem) : Prop where
  bytes : ∀ q, byteAt v d' l q = if p ≤ q ∧ q < p + n then src (q - p) else byteAt v d l q
  others : ∀ x, x ∉ l → d' x = d x

theorem Wrote.refl (p : Nat) (src : Mem) : Wrote v d d l p 0 src :=
  ⟨fun q => by rw [if_neg (by omega)], fun _ _ => rfl⟩

theorem Wrote.trans {d₁ : Nat → Mem} {m : Nat} {src : Mem} (h : Wrote v d d₁ l p n src)
    (h' : Wrote v d₁ d' l (p + n) m (src.shift n)) : Wrote v d d' l p (n + m) src := by
  refine ⟨fun q => ?_, fun x hx => (h'.others x hx).trans (h.others x hx)⟩
  rw [h'.bytes, h.bytes]
  by_cases h₁ : p + n ≤ q ∧ q < p + n + m
  · rw [if_pos h₁, if_pos (by omega), Mem.shift_apply]
    congr 1
    omega
  · rw [if_neg h₁]
    by_cases h₂ : p ≤ q ∧ q < p + n
    · rw [if_pos h₂, if_pos (by omega)]
    · rw [if_neg h₂, if_neg (by omega)]

/-- A round at a position in the chain puts so many bytes into one cluster. -/
theorem writeLoop_round (g : v.Geometry) (hl : Chain v f c l) (offset size : Nat) (buffer : Mem)
    (fuel : Nat) {done : Nat} (h : Reads v fs f d) (hlt : done < size)
    (hin : u32 (offset + done) < l.length * v.clusterBytes) :
    ∃ n y fs', 0 < n ∧ done + n ≤ size ∧
      u32 (offset + done) % v.clusterBytes + n ≤ v.clusterBytes ∧
      l[u32 (offset + done) / v.clusterBytes]? = some y ∧
      writeLoop v c offset size buffer (fuel + 1) done fs =
        writeLoop v c offset size buffer fuel (done + n) fs' ∧
      Reads v fs' f (update d y
        ((d y).copyAt (u32 (offset + done) % v.clusterBytes) (buffer.shift done) n)) := by
  rw [writeLoop, if_pos hlt]
  dsimp only
  generalize u32 (offset + done) = pos at *
  obtain ⟨x, hx⟩ := index_lt hin
  have hhas := hl.has x (List.mem_of_getElem? hx)
  obtain ⟨hnth, h₁⟩ := chainNth_chain g h hl (pos / v.clusterBytes)
  rcases hc : chainNth v c (pos / v.clusterBytes) fs with ⟨y, fs₁⟩
  rw [hc] at hnth h₁
  rw [hx] at hnth
  obtain rfl : y = x := hnth
  have hy0 : y ≠ 0 := by have := (g.lt_bad hhas).1; omega
  have hw : pos % v.clusterBytes < v.clusterBytes := Nat.mod_lt _ g.cb_pos
  obtain ⟨hlba, hs⟩ := locate g hhas hw
  simp only [if_neg hy0, hlba]
  generalize pos % v.clusterBytes = w at *
  by_cases hwhole : w % BLOCK_SECTOR_SIZE = 0 ∧
      min (BLOCK_SECTOR_SIZE - w % BLOCK_SECTOR_SIZE) (size - done) = BLOCK_SECTOR_SIZE
  · rw [if_pos hwhole]
    have hsec : w / BLOCK_SECTOR_SIZE * BLOCK_SECTOR_SIZE = w := by
      simp only [BLOCK_SECTOR_SIZE] at *
      omega
    generalize hwant : min ((size - done) / BLOCK_SECTOR_SIZE)
      ((v.clusterBytes - w) / BLOCK_SECTOR_SIZE) = want
    have hwant₁ : 0 < want * BLOCK_SECTOR_SIZE ∧ done + want * BLOCK_SECTOR_SIZE ≤ size ∧
        w / BLOCK_SECTOR_SIZE + want ≤ v.sectorsPerCluster ∧
        w + want * BLOCK_SECTOR_SIZE ≤ v.clusterBytes := by
      simp only [Vol.clusterBytes, BLOCK_SECTOR_SIZE] at *
      omega
    obtain ⟨fs₂, hwrite, h₂⟩ := writeCluster_spec g h₁ hhas _ _
      (Nat.pos_of_mul_pos_right hwant₁.1) hwant₁.2.2.1 (buffer.shift done)
    rw [hwrite]
    rw [hsec] at h₂
    exact ⟨_, y, fs₂, hwant₁.1, hwant₁.2.1, hwant₁.2.2.2, hx, rfl, h₂⟩
  · rw [if_neg hwhole]
    obtain ⟨sec, hread, rfl⟩ := readCluster_spec g h₁ hhas (w / BLOCK_SECTOR_SIZE) 1
      (by omega) (by omega) (fun _ => 0) 0
    rw [hread]
    simp only
    generalize hchunk : min (BLOCK_SECTOR_SIZE - w % BLOCK_SECTOR_SIZE) (size - done) = chunk
    have hchunk₁ : 0 < chunk ∧ done + chunk ≤ size ∧
        w % BLOCK_SECTOR_SIZE + chunk ≤ BLOCK_SECTOR_SIZE ∧ w + chunk ≤ v.clusterBytes := by
      simp only [Vol.clusterBytes, BLOCK_SECTOR_SIZE] at *
      omega
    obtain ⟨fs₂, hwrite, h₂⟩ := writeCluster_spec g h₁ hhas (w / BLOCK_SECTOR_SIZE) 1
      (by omega) (by omega)
      ((Mem.copyAt (fun _ => 0) 0 ((d y).shift (w / BLOCK_SECTOR_SIZE * BLOCK_SECTOR_SIZE))
        (1 * BLOCK_SECTOR_SIZE)).copyAt (w % BLOCK_SECTOR_SIZE) (buffer.shift done) chunk)
    rw [hwrite]
    refine ⟨chunk, y, fs₂, hchunk₁.1, hchunk₁.2.1, hchunk₁.2.2.2, hx, rfl, ?_⟩
    convert h₂ using 2
    -- the rest of the sector is written back as it was read
    funext i
    simp only [Mem.copyAt_apply, Mem.shift_apply, BLOCK_SECTOR_SIZE] at *
    by_cases hi : w ≤ i ∧ i < w + chunk
    · rw [if_pos hi, if_pos (by omega), if_pos (by omega)]
      congr 1
      omega
    · rw [if_neg hi]
      by_cases hin : w / 512 * 512 ≤ i ∧ i < w / 512 * 512 + 1 * 512
      · rw [if_pos hin, if_neg (by omega), if_pos (by omega)]
        congr 1
        omega
      · rw [if_neg hin]

theorem writeLoop_spec (g : v.Geometry) (hl : Chain v f c l) {offset size : Nat}
    (hcover : offset + size ≤ l.length * v.clusterBytes) (hsmall : offset + size < 4294967296)
    (buffer : Mem) (fuel done : Nat) (h : Reads v fs f d) (hdone : done ≤ size)
    (hfuel : size - done ≤ fuel) :
    ∃ fs' d', writeLoop v c offset size buffer fuel done fs = (size, fs') ∧ Reads v fs' f d' ∧
      Wrote v d d' l (offset + done) (size - done) (buffer.shift done) := by
  induction fuel generalizing done fs d with
  | zero =>
    obtain rfl : done = size := by omega
    refine ⟨fs, d, rfl, h, ?_⟩
    rw [Nat.sub_self]
    exact .refl _ _
  | succ fuel ih =>
    by_cases hlt : done < size
    · have hpos : u32 (offset + done) = offset + done := u32_of_lt (by omega)
      obtain ⟨n, y, fs₁, hn, hle, hwn, hy, heq, h₁⟩ := writeLoop_round g hl offset size buffer fuel
        h hlt (by omega)
      rw [hpos] at hwn hy h₁
      obtain ⟨fs', d', heq', h', hwrote⟩ := ih (done + n) h₁ hle (by omega)
      refine ⟨fs', d', heq.trans heq', h', ?_⟩
      have hfirst : Wrote v d _ l (offset + done) n (buffer.shift done) :=
        ⟨byteAt_update hl.nodup hy hwn _,
          fun z hz => update_of_ne (ne_of_mem_of_not_mem (List.mem_of_getElem? hy) hz).symm _ _⟩
      rw [← Nat.add_assoc, ← Mem.shift_shift] at hwrote
      have htwo := hfirst.trans hwrote
      rwa [show n + (size - (done + n)) = size - done by omega] at htwo
    · rw [writeLoop, if_neg hlt]
      obtain rfl : done = size := by omega
      refine ⟨fs, d, rfl, h, ?_⟩
      rw [Nat.sub_self]
      exact .refl _ _

/-! ## The directory entry -/

/-- The entry of a node is in sector `s` of the cluster `p`. -/
structure DirentAt (v : Vol) (node : Node) (p s : Nat) : Prop where
  has : v.has p = true
  sector : s < v.sectorsPerCluster
  lba : node.fsDirentLba = clusterLba v p + s
  off : node.fsDirentOff + DIRENT_SIZE ≤ BLOCK_SECTOR_SIZE

/-- The sector `s` of a cluster, as a buffer it was read into. -/
def sectorOf (d : Nat → Mem) (p s : Nat) : Mem :=
  Mem.copyAt (fun _ => 0) 0 ((d p).shift (s * BLOCK_SECTOR_SIZE)) (1 * BLOCK_SECTOR_SIZE)

variable {node node' : Node}

theorem Reads.ticks (h : Reads v fs f d) (n : Nat) : Reads v { fs with ticks := n } f d :=
  ⟨⟨h.ok.served, h.ok.lba, h.ok.clean, h.ok.memo⟩, h.fat, h.data⟩

theorem direntUpdate_spec (g : v.Geometry) (h : Reads v fs f d) {s : Nat}
    (ha : DirentAt v node p s) :
    ∃ fs', direntUpdate v node fs = (true, { node with fsDirty := false }, fs') ∧
      Reads v fs' f (update d p ((d p).copyAt (s * BLOCK_SECTOR_SIZE)
        (direntPatch v node fs (sectorOf d p s)) (1 * BLOCK_SECTOR_SIZE))) := by
  have hne : node.fsDirentLba ≠ 0 := by
    have := g.dataLba_le ha.has
    have := g.fatSectors_le
    have := g.fat_pos
    rw [ha.lba]
    omega
  have hs := ha.sector
  obtain ⟨sec, hread, rfl⟩ := readCluster_spec g h ha.has s 1 (by omega)
    (by omega) (fun _ => 0) 0
  obtain ⟨fs', hwrite, h'⟩ := writeCluster_spec g (h.ticks (fs.ticks + 1)) ha.has s 1
    (by omega) (by omega) (direntPatch v node fs (sectorOf d p s))
  refine ⟨fs', ?_, h'⟩
  rw [direntUpdate, if_neg hne, ha.lba, hread]
  simp only
  rw [show blockdevWrite v (clusterLba v p + s) 1 (direntPatch v node fs (Mem.copyAt _ 0 _ _)) _ =
    (true, fs') from hwrite]

/-- A node whose entry, if it has one, is off the chain `l` in a cluster
that is in use. -/
def Anchored (v : Vol) (f : Nat → Nat) (l : List Nat) (node : Node) : Prop :=
  node.fsDirentLba = 0 ∨ ∃ p s, DirentAt v node p s ∧ f p ≠ 0 ∧ p ∉ l

theorem commit_spec (g : v.Geometry) (h : Reads v fs f d) (ha : Anchored v f l node) (r : Nat) :
    ∃ node' fs' d', commit v r node fs = (.ok r, node', fs') ∧ Reads v fs' f d' ∧
      (∀ x ∈ l, d' x = d x) ∧ node' = { node with fsDirty := node'.fsDirty } := by
  rw [commit]
  obtain ⟨hok, h₁, -⟩ := flush_spec g h
  rcases hfl : fatCacheFlush v fs with ⟨ok, fs₁⟩
  rw [hfl] at hok h₁
  subst hok
  rcases ha with h0 | ⟨p, s, hat, -, hp⟩
  · refine ⟨node, fs₁, d, ?_, h₁, fun _ _ => rfl, rfl⟩
    simp only [direntUpdate, if_pos h0]
  · obtain ⟨fs₂, heq, h₂⟩ := direntUpdate_spec g h₁ hat
    refine ⟨{ node with fsDirty := false }, fs₂, _, ?_, h₂, fun x hx => ?_, rfl⟩
    · simp only [heq]
    · exact update_of_ne (ne_of_mem_of_not_mem hx hp) _ _

/-! ## The calls -/

theorem Grown.byteAt {f' : Nat → Nat} {new : List Nat} (hg : Grown v f f' d d' l new c)
    (hused : ∀ x ∈ l, f x ≠ 0) (hcb : 0 < v.clusterBytes) (q : Nat) :
    byteAt v d' (l ++ new) q = byteAt v d l q := by
  by_cases hq : q < l.length * v.clusterBytes
  · obtain ⟨x, hx⟩ := index_lt hq
    have hlt := (List.getElem?_eq_some_iff.mp hx).1
    have hx' : (l ++ new)[q / v.clusterBytes]? = some x := by rwa [List.getElem?_append_left hlt]
    have hxl := List.mem_of_getElem? hx
    have h₁ := byteAt_run (d := d') hx' (i := 0) (by simpa using Nat.mod_lt q hcb)
    have h₂ := byteAt_run (d := d) hx (i := 0) (by simpa using Nat.mod_lt q hcb)
    rw [Nat.add_zero] at h₁ h₂
    rw [h₁, h₂, hg.kept x (hused x hxl)]
  · rw [byteAt_out (l := l) (by omega) hcb, Fat32.byteAt]
    cases hx : (l ++ new)[q / v.clusterBytes]? with
    | none => rfl
    | some x =>
      have hge : l.length ≤ q / v.clusterBytes :=
        (Nat.le_div_iff_mul_le hcb).mpr (by omega)
      rw [List.getElem?_append_right hge] at hx
      simp only
      rw [hg.zeroed x (List.mem_of_getElem? hx)]

theorem clustersFor_eq (h : bytes + v.clusterBytes - 1 < 4294967296) :
    clustersFor v bytes = (bytes + v.clusterBytes - 1) / v.clusterBytes := by
  rw [clustersFor, u32_of_lt h]

theorem le_clusters (bytes : Nat) (hcb : 0 < v.clusterBytes) :
    bytes ≤ (bytes + v.clusterBytes - 1) / v.clusterBytes * v.clusterBytes := by
  have h₁ := Nat.div_add_mod (bytes + v.clusterBytes - 1) v.clusterBytes
  have h₂ := Nat.mod_lt (bytes + v.clusterBytes - 1) hcb
  rw [Nat.mul_comm] at h₁
  omega

theorem clusters_le (hcb : 0 < v.clusterBytes) (h : bytes ≤ n * v.clusterBytes) :
    (bytes + v.clusterBytes - 1) / v.clusterBytes ≤ n := by
  have hlt : (bytes + v.clusterBytes - 1) / v.clusterBytes < n + 1 := by
    apply Nat.div_lt_of_lt_mul
    rw [Nat.mul_comm, Nat.add_mul]
    omega
  omega

theorem clustersFor_le (hcb : 0 < v.clusterBytes)
    (h : bytes ≤ n * v.clusterBytes) : clustersFor v bytes ≤ n :=
  Nat.le_trans (Nat.div_le_div_right (Nat.mod_le _ _)) (clusters_le hcb h)

theorem fatWriteRaw_spec (g : v.Geometry) (h : Reads v fs f d) (hl : Chain v f node.fsCluster l)
    {offset size : Nat} (hsmall : offset + size + v.clusterBytes - 1 < 4294967296) (buffer : Mem) :
    ∃ res node' fs' f' d₁ d' new, fatWriteRaw v node offset size buffer fs = (res, node', fs') ∧
      Reads v fs' f' d' ∧ Grown v f f' d d₁ l new node'.fsCluster ∧ Rehead node node' ∧
      ((res = .ok size ∧ offset + size ≤ (l ++ new).length * v.clusterBytes ∧
          (l ++ new).length = max (clustersFor v (offset + size)) l.length ∧
          Wrote v d₁ d' (l ++ new) offset size buffer) ∨
        (res = .error ENOSPC ∧ d' = d₁ ∧ new = [] ∧ node'.fsCluster = node.fsCluster)) := by
  have hcb := g.cb_pos
  rw [fatWriteRaw, u32_of_lt (by omega)]
  obtain ⟨res, node₁, fs₁, f', d₁, new, heq, h₁, hg, hre, hres, -⟩ :=
    ensureChain_spec g h hl (clustersFor v (offset + size))
  rw [heq]
  rcases hres with ⟨rfl, hlen⟩ | ⟨rfl, rfl, hhead⟩
  · have hcover : offset + size ≤ (l ++ new).length * v.clusterBytes := by
      rw [clustersFor_eq hsmall] at hlen
      have h₁ := le_clusters (v := v) (offset + size) hcb
      have h₂ := Nat.mul_le_mul_right v.clusterBytes
        (hlen ▸ Nat.le_max_left _ l.length :
          (offset + size + v.clusterBytes - 1) / v.clusterBytes ≤ (l ++ new).length)
      omega
    obtain ⟨fs₂, d', hw, h₂, hwrote⟩ := writeLoop_spec g hg.chain hcover (by omega) buffer
      size 0 h₁ (Nat.zero_le _) (by omega)
    refine ⟨.ok size, node₁, fs₂, f', d₁, d', new, ?_, h₂, hg, hre, .inl ⟨rfl, hcover, hlen, ?_⟩⟩
    · simp only [hw]
    · have hshift : buffer.shift 0 = buffer := by
        funext i
        simp
      rwa [hshift, Nat.add_zero, Nat.sub_zero] at hwrote
  · exact ⟨_, node₁, fs₁, f', d₁, d₁, [], rfl, h₁, hg, hre, .inr ⟨rfl, rfl, rfl, hhead⟩⟩

theorem fatWriteRaw_inside (g : v.Geometry) (h : Reads v fs f d)
    (hl : Chain v f node.fsCluster l) (offset size : Nat)
    (hsmall : offset + size < 4294967296)
    (hcover : offset + size ≤ l.length * v.clusterBytes) (buffer : Mem) :
    ∃ fs' d', fatWriteRaw v node offset size buffer fs = (.ok size, node, fs') ∧
      Reads v fs' f d' ∧ Wrote v d d' l offset size buffer := by
  have hneed := clustersFor_le g.cb_pos hcover
  obtain ⟨fs₁, heq, h₁⟩ := ensureChain_enough g h hl hneed
  obtain ⟨fs₂, d', hw, h₂, hwrote⟩ := writeLoop_spec g hl hcover hsmall buffer size 0
    h₁ (Nat.zero_le _) (by omega)
  refine ⟨fs₂, d', ?_, h₂, ?_⟩
  · rw [fatWriteRaw, u32_of_lt hsmall, heq]
    simp only [hw]
  · have hshift : buffer.shift 0 = buffer := by
      funext i
      simp
    rwa [hshift, Nat.add_zero, Nat.sub_zero] at hwrote

theorem shrinkTo_spec (g : v.Geometry) (h : Reads v fs f d) (hl : Chain v f node.fsCluster l)
    (raw : Nat) :
    ∃ node' fs' f', shrinkTo v node raw fs = (node', fs') ∧ Reads v fs' f' d ∧
      Chain v f' node'.fsCluster (l.take (clustersFor v raw)) ∧
      Frame f f' d d l (l.take (clustersFor v raw)) [] ∧
      node' = { node with fsCluster := node'.fsCluster } := by
  rw [shrinkTo]
  generalize clustersFor v raw = keep
  split
  · rename_i h0
    subst h0
    refine ⟨_, _, _, rfl, freeChain_spec g h hl, Chain.of_empty (by simp), ?_, rfl⟩
    refine ⟨by simp, fun x hx _ => by simp [hx], fun x hx _ => by simp [hx], fun _ _ _ _ => rfl⟩
  · rename_i hpos
    obtain ⟨hnth, h₁⟩ := chainNth_chain g h hl (keep - 1)
    rcases hc : chainNth v node.fsCluster (keep - 1) fs with ⟨last, fs₁⟩
    rw [hc] at hnth h₁
    simp only at hnth h₁
    simp only
    by_cases hlt : keep - 1 < l.length
    · -- `last` is where the chain is cut
      rw [List.getElem?_eq_getElem hlt, Option.getD_some] at hnth
      have htake : l.take keep = l.take (keep - 1) ++ [last] := by
        rw [hnth, List.take_append_getElem hlt, Nat.sub_add_cancel (by omega)]
      have hsplit : l = l.take (keep - 1) ++ [last] ++ l.drop keep := by
        rw [← htake, List.take_append_drop]
      have hl' := hl
      rw [hsplit] at hl'
      have hlast : v.has last = true := hl'.has last (by simp)
      rw [if_neg (by have := (g.lt_bad hlast).1; omega)]
      obtain ⟨hget, h₂, -⟩ := fatGet_spec g h₁ last
      rcases hf : fatGet v last fs₁ with ⟨rest, fs₂⟩
      rw [hf] at hget h₂
      subst hget
      by_cases hrest : 2 ≤ f last ∧ f last < FAT_BAD
      · refine ⟨node, _, cutFat f last (l.drop keep), ?_, (freeRest_spec g h₂ hl' hrest).1, ?_, ?_, rfl⟩
        · simp only [if_pos hrest]
        · rw [htake]
          exact hl'.cut
        · refine ⟨fun x hx hn => absurd (List.mem_of_mem_take hx) hn, fun x hx _ => ?_,
            fun x hx hn => ?_, fun _ _ _ _ => rfl⟩
          · have hxl : x ≠ last := fun he => hx (by rw [hsplit, he]; simp)
            rw [cutFat, if_neg (fun hd => hx (List.mem_of_mem_drop hd)), update_of_ne hxl]
          · rw [← List.take_append_drop keep l] at hx
            rw [cutFat, if_pos ((List.mem_append.mp hx).resolve_left hn)]
      · have hnil : l.drop keep = [] := by
          have := hl'.rest
          rw [decode_end (by omega)] at this
          exact this.eq_nil
        have hall : l.take keep = l := List.take_of_length_le (List.drop_eq_nil_iff.mp hnil)
        rw [hall]
        refine ⟨node, fs₂, f, ?_, h₂, hl, .refl f d l [], rfl⟩
        simp only [if_neg hrest]
    · have hnone : last = 0 := by rw [hnth, List.getElem?_eq_none (by omega)]; rfl
      rw [if_pos hnone, List.take_of_length_le (by omega)]
      exact ⟨node, fs₁, f, rfl, h₁, hl, .refl f d l [], rfl⟩

theorem zeroGap_spec (g : v.Geometry) {gapEnd : Nat} (hcover : gapEnd ≤ l.length * v.clusterBytes)
    (hsmall : gapEnd < 4294967296) (fuel : Nat)
    (hfuel : gapEnd - p ≤ fuel) (h : Reads v fs f d) (hl : Chain v f node.fsCluster l) :
    ∃ fs' d', zeroGap v gapEnd fuel p node fs = (.ok (), node, fs') ∧ Reads v fs' f d' ∧
      Wrote v d d' l p (gapEnd - p) fun _ => 0 := by
  induction fuel generalizing p fs d with
  | zero =>
    refine ⟨fs, d, rfl, h, ?_⟩
    rw [show gapEnd - p = 0 by omega]
    exact .refl _ _
  | succ fuel ih =>
    rw [zeroGap]
    by_cases hp : p < gapEnd
    · rw [if_pos hp]
      generalize hn : (if gapEnd - p > BLOCK_SECTOR_SIZE then BLOCK_SECTOR_SIZE else gapEnd - p) = n
      have hn₁ : 0 < n ∧ p + n ≤ gapEnd := by
        simp only [BLOCK_SECTOR_SIZE] at hn
        split at hn <;> omega
      obtain ⟨fs₁, d₁, heq, h₁, hwrote⟩ :=
        fatWriteRaw_inside g h hl p n (by omega) (by omega) fun _ => 0
      obtain ⟨fs', d', heq', h', hwrote'⟩ := ih (p := p + n) (by omega) h₁
      refine ⟨fs', d', ?_, h', ?_⟩
      · simp only [heq, heq']
      · have htwo := hwrote.trans hwrote'
        rwa [show n + (gapEnd - (p + n)) = gapEnd - p by omega] at htwo
    · rw [if_neg hp]
      refine ⟨fs, d, rfl, h, ?_⟩
      rw [show gapEnd - p = 0 by omega]
      exact .refl _ _

/-! ## The file -/

/-- The node and the volume hold the file `a`. -/
structure Holds (v : Vol) (o : Open) (a : List UInt8) (f : Nat → Nat) (d : Nat → Mem)
    (l : List Nat) : Prop where
  reads : Reads v o.fs f d
  chain : Chain v f o.node.fsCluster l
  kind : o.node.kind ≠ .directory
  length : o.node.length = a.length
  small : a.length + linkOff o.node < 4294967296
  cover : a.length + linkOff o.node ≤ l.length * v.clusterBytes
  bytes : ∀ i, i < a.length → byteAt v d l (i + linkOff o.node) = a.getD i 0
  anchored : Anchored v f l o.node

def Backs (v : Vol) (o : Open) (a : List UInt8) : Prop := ∃ f d l, Holds v o a f d l

/-- Byte `p` of the clusters of a node, as the disk has it. -/
def Open.rawByte (v : Vol) (o : Open) (p : Nat) : UInt8 :=
  match if o.node.fsCluster < 2 then none
    else nth (o.fs.fat v) (p / v.clusterBytes) o.node.fsCluster with
  | none => 0
  | some x => o.fs.data v x (p % v.clusterBytes)

theorem Holds.rawByte {o : Open} {a : List UInt8} (h : Holds v o a f d l) (p : Nat) :
    o.rawByte v p = byteAt v d l p := by
  rw [Open.rawByte, byteAt, h.reads.fat, h.reads.data]
  by_cases hc : o.node.fsCluster < 2
  · rw [h.chain.lt_two_iff.mp hc, if_pos hc]
    rfl
  · rw [if_neg hc, h.chain.nth_eq (by omega)]

/-- The condition on a step, in the state it is taken from.

* A write that reaches the driver has fewer than 2^31 bytes, its end can be
  rounded up to a cluster in 32 bits, and what the clusters of the file hold
  between the file's end and the write's start is zeros.
* A truncate that changes the length gives one that can be rounded up, and
  grows no file whose clusters are 4 GB or more.
* A read returns fewer than 2^31 bytes. -/
def StepOk (v : Vol) (o : Open) : FileOp → Prop
  | .write offset size _ => size.toNat = 0 ∨ u32 (offset.toNat + size.toNat) < offset.toNat ∨
      (size.toNat < 2147483648 ∧
        offset.toNat + linkOff o.node + size.toNat + v.clusterBytes - 1 < 4294967296 ∧
        ∀ i, o.node.length ≤ i → i < offset.toNat → o.rawByte v (i + linkOff o.node) = 0)
  | .truncate length => length.toNat = o.node.length ∨
      (length.toNat + linkOff o.node + v.clusterBytes - 1 < 4294967296 ∧
        (o.node.length < length.toNat →
          (chainLength v o.node.fsCluster o.fs).1 * v.clusterBytes < 4294967296))
  | .read offset size => min size.toNat (o.node.length - offset.toNat) < 2147483648

theorem Anchored.frame {f' : Nat → Nat} {l' : List Nat} (h : Anchored v f l node)
    (hfr : Frame f f' d d' l l' []) (hlba : node'.fsDirentLba = node.fsDirentLba)
    (hoff : node'.fsDirentOff = node.fsDirentOff) : Anchored v f' l' node' := by
  rcases h with h0 | ⟨p, s, hat, hused, hp⟩
  · exact .inl (hlba.trans h0)
  · have hpn : p ∉ l' := fun hm => hused (hfr.taken p hm hp)
    refine .inr ⟨p, s, ⟨hat.has, hat.sector, hlba.trans hat.lba, by rw [hoff]; exact hat.off⟩, ?_, hpn⟩
    rw [hfr.outside p hp hpn]
    exact hused

theorem Wrote.frame {src : Mem} (h : Wrote v d d' l p n src) : Frame f f d d' l l [] :=
  ⟨fun _ hx hn => absurd hx hn, fun _ _ _ => rfl, fun _ hx hn => absurd hx hn,
    fun x hx _ _ => h.others x hx⟩

namespace Rehead

theorem kind (h : Rehead node node') : node'.kind = node.kind := by rw [h]

theorem length (h : Rehead node node') : node'.length = node.length := by rw [h]

theorem lba (h : Rehead node node') : node'.fsDirentLba = node.fsDirentLba := by rw [h]

theorem off (h : Rehead node node') : node'.fsDirentOff = node.fsDirentOff := by rw [h]

end Rehead

theorem linkOff_congr (h : node'.kind = node.kind) : linkOff node' = linkOff node := by
  rw [linkOff, linkOff, h]

/-- Growing a file: the clusters are there, and what lies between the old
end and the new one reads as zero. -/
theorem growTo_spec (g : v.Geometry) (h : Reads v fs f d) (hl : Chain v f node.fsCluster l)
    {raw : Nat} (hold : node.length + linkOff node ≤ l.length * v.clusterBytes)
    (hsmall : raw + v.clusterBytes - 1 < 4294967296)
    (halloc : l.length * v.clusterBytes < 4294967296) :
    ∃ res node' fs' f' d' new, growTo v node raw fs = (res, node', fs') ∧ Reads v fs' f' d' ∧
      Chain v f' node'.fsCluster (l ++ new) ∧ Frame f f' d d' l (l ++ new) [] ∧ Rehead node node' ∧
      ((res = .ok () ∧ raw ≤ (l ++ new).length * v.clusterBytes ∧
          ∀ q, q < raw → byteAt v d' (l ++ new) q =
            if q < node.length + linkOff node then byteAt v d l q else 0) ∨
        (res = .error ENOSPC ∧ new = [] ∧ ∀ q, byteAt v d' l q = byteAt v d l q)) := by
  have hcb := g.cb_pos
  have hneed := le_clusters (v := v) raw hcb
  rw [← clustersFor_eq hsmall] at hneed
  rw [growTo]
  simp only [u32_of_lt (show node.length + linkOff node < 4294967296 by omega)]
  obtain ⟨hlen, h₁⟩ := chainLength_chain g h hl
  rcases hc : chainLength v node.fsCluster fs with ⟨n, fs₁⟩
  rw [hc] at hlen h₁
  subst hlen
  simp only [u32_of_lt halloc]
  obtain ⟨res, node₁, fs₂, f', d₁, new, heq, h₂, hg, hre, hres, -⟩ :=
    ensureChain_spec g h₁ hl (clustersFor v raw)
  have hsame := hg.byteAt hl.used hcb
  rw [heq]
  rcases hres with ⟨rfl, hlen⟩ | ⟨rfl, rfl, hhead⟩
  · simp only
    generalize hgap : (if raw < l.length * v.clusterBytes then raw
      else l.length * v.clusterBytes) = gapEnd
    have hgap₁ : gapEnd ≤ raw ∧ gapEnd ≤ l.length * v.clusterBytes ∧
        (gapEnd < raw → gapEnd = l.length * v.clusterBytes) := by
      split at hgap <;> omega
    have henough : clustersFor v raw * v.clusterBytes ≤ (l ++ new).length * v.clusterBytes :=
      Nat.mul_le_mul_right _ (by rw [hlen]; omega)
    obtain ⟨fs', d', hzero, h', hwrote⟩ := zeroGap_spec g (by omega) (by omega)
      (gapEnd - (node.length + linkOff node)) (Nat.le_refl _) h₂ hg.chain
    refine ⟨.ok (), node₁, fs', f', d', new, hzero, h', hg.chain, hg.frame.trans hwrote.frame, hre,
      .inl ⟨rfl, by omega, fun q hq => ?_⟩⟩
    rw [hwrote.bytes]
    by_cases hq₁ : q < node.length + linkOff node
    · rw [if_neg (by omega), if_pos hq₁, hsame]
    · rw [if_neg hq₁]
      by_cases hq₂ : q < gapEnd
      · rw [if_pos (by omega)]
      · -- a cluster the file did not have
        rw [if_neg (by omega), hsame, byteAt_out (by omega) hcb]
  · refine ⟨_, node₁, fs₂, f', d₁, [], rfl, h₂, hg.chain, hg.frame, hre, .inr ⟨rfl, rfl, fun q => ?_⟩⟩
    rw [← hsame, List.append_nil]

namespace Holds

variable {o : Open} {a : List UInt8}

theorem next {f' : Nat → Nat} {l' : List Nat} {a' : List UInt8} {e e' : Nat → Mem}
    (h : Holds v o a f d l) (hr : Reads v fs' f' d') (hl : Chain v f' node'.fsCluster l')
    (hfr : Frame f f' e e' l l' [])
    (hkind : node'.kind = o.node.kind) (hlba : node'.fsDirentLba = o.node.fsDirentLba)
    (hoff : node'.fsDirentOff = o.node.fsDirentOff) (hlen : node'.length = a'.length)
    (hsmall : a'.length + linkOff o.node < 4294967296)
    (hcover : a'.length + linkOff o.node ≤ l'.length * v.clusterBytes)
    (hbytes : ∀ i, i < a'.length → byteAt v d' l' (i + linkOff o.node) = a'.getD i 0) :
    Holds v ⟨node', fs'⟩ a' f' d' l' := by
  have hlo : linkOff node' = linkOff o.node := linkOff_congr hkind
  refine ⟨hr, hl, ?_, hlen, ?_, ?_, ?_, h.anchored.frame hfr hlba hoff⟩
  · exact hkind ▸ h.kind
  · simpa only [hlo] using hsmall
  · simpa only [hlo] using hcover
  · simpa only [hlo] using hbytes

theorem commit (g : v.Geometry) (h : Holds v o a f d l) (r : Nat) :
    ∃ node' fs' d', Fat32.commit v r o.node o.fs = (.ok r, node', fs') ∧
      Holds v ⟨node', fs'⟩ a f d' l := by
  obtain ⟨node', fs', d', heq, h', hsame, hnode⟩ := commit_spec g h.reads h.anchored r
  have hlen : node'.length = o.node.length := by rw [hnode]
  refine ⟨node', fs', d', heq, h.next h' ?_ (.refl f d l []) (by rw [hnode]) (by rw [hnode])
    (by rw [hnode]) (hlen.trans h.length) h.small h.cover fun i hi => ?_⟩
  · rw [hnode]
    exact h.chain
  · rw [byteAt_congr hsame]
    exact h.bytes i hi

theorem rehead {f' : Nat → Nat} {l' : List Nat} {e e' : Nat → Mem} (h : Holds v o a f d l)
    (hr : Reads v fs' f' d') (hl : Chain v f' node'.fsCluster l') (hfr : Frame f f' e e' l l' [])
    (hre : Rehead o.node node') (hlonger : l.length ≤ l'.length)
    (hsame : ∀ q, byteAt v d' l' q = byteAt v d l q) : Holds v ⟨node', fs'⟩ a f' d' l' := by
  have hcover := Nat.mul_le_mul_right v.clusterBytes hlonger
  refine h.next hr hl hfr hre.kind hre.lba hre.off (hre.length.trans h.length) h.small
    (Nat.le_trans h.cover hcover) fun i hi => ?_
  rw [hsame]
  exact h.bytes i hi

/-- A write that meets the condition is the write of the array, or there was
no room and the file is what it was. -/
theorem write (g : v.Geometry) (h : Holds v o a f d l) {offset size : UInt32} {buffer : Mem}
    (hok : StepOk v o (.write offset size buffer)) :
    ∃ res node' fs', vfsWrite v o.node offset.toNat size.toNat buffer o.fs = (res, node', fs') ∧
      Backs v ⟨node', fs'⟩ (contents.next a (.write offset size buffer) (.ret res)) := by
  have hcb := g.cb_pos
  have hlen := h.length
  generalize hoff : offset.toNat = off at *
  generalize hsize : size.toNat = sz at *
  rw [vfsWrite, if_neg h.kind]
  by_cases h0 : sz = 0
  · rw [if_pos h0]
    exact ⟨_, _, _, rfl, f, d, l, h⟩
  rw [if_neg h0]
  by_cases hwrap : u32 (off + sz) < off
  · rw [if_pos hwrap]
    exact ⟨_, _, _, rfl, f, d, l, h⟩
  rw [if_neg hwrap]
  obtain ⟨hsz, hsmall, hzeros⟩ :
      sz < 2147483648 ∧ off + linkOff o.node + sz + v.clusterBytes - 1 < 4294967296 ∧
        ∀ i, o.node.length ≤ i → i < off → o.rawByte v (i + linkOff o.node) = 0 := by
    simp only [StepOk, hoff, hsize] at hok
    exact (hok.resolve_left h0).resolve_left hwrap
  rw [fatWrite, if_neg h.kind, u32_of_lt (by omega)]
  obtain ⟨res, node₁, fs₁, f', d₁, d', new, heq, h₁, hg, hre, hres⟩ :=
    fatWriteRaw_spec g h.reads h.chain hsmall buffer
  have hsame := hg.byteAt h.chain.used hcb
  rw [heq]
  rcases hres with ⟨rfl, hcover, -, hwrote⟩ | ⟨rfl, rfl, rfl, -⟩
  · simp only [if_neg h0, if_neg (show ¬ sz ≥ 2147483648 by omega),
      u32_of_lt (show off + sz < 4294967296 by omega)]
    have hwritten : Holds v ⟨{ node₁ with
        length := if off + sz > node₁.length then off + sz else node₁.length
        data := mirror node₁ off sz buffer }, fs₁⟩
        (ByteFile.write a off (buffer.bytes 0 sz)) f' d' (l ++ new) := by
      have hlen₁ := hre.length
      have hlonger := Nat.mul_le_mul_right v.clusterBytes
        (show l.length ≤ (l ++ new).length by simp)
      have hcover₁ := h.cover
      have hsmall₁ := h.small
      have hlength := ByteFile.length_write a off (buffer.bytes 0 sz)
      rw [Mem.length_bytes] at hlength
      refine h.next h₁ hg.chain (hg.frame.trans hwrote.frame) hre.kind hre.lba hre.off ?_
        (by omega) (by omega) fun i hi => ?_
      · rw [hlength]
        dsimp only
        split <;> omega
      · rw [hwrote.bytes, hsame, ByteFile.getD_write, Mem.length_bytes, Mem.getD_bytes]
        by_cases hin : off ≤ i ∧ i < off + sz
        · rw [if_pos (by omega), if_pos hin, if_pos (by omega)]
          congr 1
          omega
        · rw [if_neg (by omega), if_neg hin]
          by_cases hia : i < a.length
          · exact h.bytes i hia
          · rw [← h.rawByte, hzeros i (by omega) (by omega), List.getD_eq_default _ _ (by omega)]
    obtain ⟨node', fs', d₂, hcommit, hholds⟩ := hwritten.commit g sz
    refine ⟨_, _, _, hcommit, f', d₂, l ++ new, ?_⟩
    simp only [contents, if_neg h0, hoff, hsize]
    exact hholds
  · exact ⟨_, _, _, rfl, f', d', l, h.rehead h₁ (by simpa using hg.chain) (by simpa using hg.frame)
      hre (Nat.le_refl _) fun q => by rw [← hsame, List.append_nil]⟩

/-- A truncate that meets the condition is the resize of the array, or there
was no room and the file is what it was. -/
theorem truncate (g : v.Geometry) (h : Holds v o a f d l) {length : UInt32}
    (hok : StepOk v o (.truncate length)) :
    ∃ res node' fs', vfsTruncate v o.node length.toNat o.fs = (res, node', fs') ∧
      Backs v ⟨node', fs'⟩ (contents.next a (.truncate length) (.ret res)) := by
  have hcb := g.cb_pos
  have hlen := h.length
  have hcover := h.cover
  have hok : length.toNat = o.node.length ∨
      (length.toNat + linkOff o.node + v.clusterBytes - 1 < 4294967296 ∧
        (o.node.length < length.toNat →
          (chainLength v o.node.fsCluster o.fs).1 * v.clusterBytes < 4294967296)) := hok
  -- all three branches end with the same commit
  have hend : ∀ (node₁ : Node) (fs₁ : Fs) (f' : Nat → Nat) (d' : Nat → Mem) (l' : List Nat),
      Holds v ⟨{ node₁ with length := length.toNat }, fs₁⟩ (ByteFile.resize a length.toNat) f' d' l' →
      ∃ res node' fs', Fat32.commit v 0 { node₁ with length := length.toNat } fs₁ =
          (res, node', fs') ∧
        Backs v ⟨node', fs'⟩ (contents.next a (.truncate length) (.ret res)) := by
    intro node₁ fs₁ f' d' l' hholds
    obtain ⟨node', fs', d₂, hcommit, hholds'⟩ := hholds.commit g 0
    exact ⟨_, _, _, hcommit, f', d₂, l', hholds'⟩
  generalize hn : length.toNat = n at *
  rw [vfsTruncate, if_neg h.kind, fatTruncate, if_neg h.kind]
  by_cases hgrow : n > o.node.length
  · obtain ⟨hsmall, halloc⟩ := hok.resolve_left (by omega)
    have halloc := halloc hgrow
    rw [(chainLength_chain g h.reads h.chain).1] at halloc
    rw [if_pos hgrow, u32_of_lt (by omega)]
    obtain ⟨res, node₁, fs₁, f', d', new, heq, h₁, hl₁, hfr, hre, hres⟩ :=
      growTo_spec g h.reads h.chain (by omega) hsmall halloc
    rw [heq]
    rcases hres with ⟨rfl, hcover₁, hbytes⟩ | ⟨rfl, rfl, hsame⟩
    · refine hend node₁ fs₁ f' d' (l ++ new) (h.next h₁ hl₁ hfr hre.kind hre.lba hre.off ?_ ?_ ?_
        fun i hi => ?_)
      · rw [ByteFile.length_resize]
      · rw [ByteFile.length_resize]
        omega
      · rw [ByteFile.length_resize]
        exact hcover₁
      · rw [ByteFile.length_resize] at hi
        rw [ByteFile.getD_resize, if_pos hi, hbytes _ (by omega)]
        by_cases hia : i < a.length
        · rw [if_pos (by omega)]
          exact h.bytes i hia
        · rw [if_neg (by omega), List.getD_eq_default _ _ (by omega)]
    · rw [List.append_nil] at hl₁ hfr
      exact ⟨_, _, _, rfl, f', d', l, h.rehead h₁ hl₁ hfr hre (Nat.le_refl _) hsame⟩
  · rw [if_neg hgrow]
    by_cases hshrink : n < o.node.length
    · obtain ⟨hsmall, -⟩ := hok.resolve_left (by omega)
      rw [if_pos hshrink, u32_of_lt (by omega)]
      obtain ⟨node₁, fs₁, f', heq, h₁, hl₁, hfr, hnode⟩ :=
        shrinkTo_spec g h.reads h.chain (n + linkOff o.node)
      rw [heq]
      have hkeep : n + linkOff o.node ≤
          (l.take (clustersFor v (n + linkOff o.node))).length * v.clusterBytes := by
        rw [List.length_take, clustersFor_eq hsmall]
        rcases Nat.le_total ((n + linkOff o.node + v.clusterBytes - 1) / v.clusterBytes) l.length with
          hle | hle
        · rw [Nat.min_eq_left hle]
          exact le_clusters _ hcb
        · rw [Nat.min_eq_right hle]
          omega
      refine hend node₁ fs₁ f' d _ (h.next h₁ hl₁ hfr (by rw [hnode]) (by rw [hnode])
        (by rw [hnode]) ?_ ?_ ?_ fun i hi => ?_)
      · rw [ByteFile.length_resize]
      · rw [ByteFile.length_resize]
        omega
      · rw [ByteFile.length_resize]
        exact hkeep
      · rw [ByteFile.length_resize] at hi
        rw [ByteFile.getD_resize, if_pos hi, byteAt_take (by omega)]
        exact h.bytes i (by omega)
    · rw [if_neg hshrink]
      have hsame : ByteFile.resize a n = a := by
        rw [ByteFile.resize, List.take_of_length_le (by omega),
          show n - a.length = 0 by omega]
        simp
      refine hend o.node o.fs f d l ?_
      rw [hsame]
      exact h.next h.reads h.chain (.refl f d l []) rfl rfl rfl (by dsimp only; omega) h.small h.cover
        h.bytes

theorem read (g : v.Geometry) (h : Holds v o a f d l) {offset size : UInt32}
    (hok : StepOk v o (.read offset size)) :
    ∃ n buf fs', fatReadNode v o.node offset.toNat size.toNat o.fs = (n, buf, fs') ∧
      n = min size.toNat (a.length - offset.toNat) ∧
      buf.bytes 0 n = ByteFile.read a offset.toNat size.toNat ∧
      Holds v ⟨o.node, fs'⟩ a f d l := by
  have hlen := h.length
  have hcover := h.cover
  have hsmall := h.small
  have hok : min size.toNat (o.node.length - offset.toNat) < 2147483648 := hok
  generalize offset.toNat = off at *
  generalize size.toNat = sz at *
  have hnone : min sz (a.length - off) = 0 → ([] : List UInt8) = ByteFile.read a off sz :=
    fun h0 => (List.eq_nil_of_length_eq_zero (by rw [ByteFile.length_read]; exact h0)).symm
  rw [fatReadNode, if_neg h.kind]
  by_cases hout : off ≥ o.node.length
  · rw [if_pos hout]
    have h0 : min sz (a.length - off) = 0 := by omega
    exact ⟨_, _, _, rfl, h0.symm, hnone h0, h⟩
  rw [if_neg hout]
  have hclip : (if sz > o.node.length - off then o.node.length - off else sz) =
      min sz (a.length - off) := by
    split <;> omega
  simp only [hclip]
  by_cases h0 : min sz (a.length - off) = 0
  · rw [if_pos h0]
    exact ⟨_, _, _, rfl, h0.symm, hnone h0, h⟩
  · rw [if_neg h0, fatReadRaw, u32_of_lt (by omega)]
    obtain ⟨buf, fs', heq, h', hbuf⟩ := readLoop_spec g h.chain (off + linkOff o.node)
      (min sz (a.length - off)) (by omega) (by omega) (min sz (a.length - off)) 0 h.reads
      (Nat.zero_le _) (Nat.le_refl _) (fun _ => 0)
    rw [heq]
    simp only [if_neg (show ¬ min sz (a.length - off) ≥ 2147483648 by omega)]
    refine ⟨_, _, _, rfl, rfl, ?_, ⟨h', h.chain, h.kind, h.length, h.small, h.cover, h.bytes,
      h.anchored⟩⟩
    have hcut : ByteFile.read a off sz = ByteFile.read a off (min sz (a.length - off)) := by
      rw [← List.length_drop]
      exact List.take_eq_take_min
    rw [hcut]
    apply List.ext_getElem
    · rw [Mem.length_bytes, ByteFile.length_read]
      omega
    · intro i h₁ h₂
      have hi : i < min sz (a.length - off) := by simpa using h₁
      have hoff : off + i < a.length := by omega
      rw [Mem.getElem_bytes, Nat.zero_add, hbuf i hi, if_neg (by omega),
        show off + linkOff o.node + i = off + i + linkOff o.node by omega, h.bytes _ hoff]
      simp [ByteFile.read, List.getD_eq_getElem?_getD, hoff]

end Holds

/-! ## Every run -/

theorem call_contents (g : v.Geometry) (o : Open) (a : List UInt8) (op : FileOp)
    (h : Backs v o a) (hok : StepOk v o op) :
    contents.Allows a op ((files v).step o op).2 ∧
      Backs v ((files v).step o op).1 (contents.next a op ((files v).step o op).2) := by
  obtain ⟨f, d, l, h⟩ := h
  cases op with
  | write offset size buffer =>
    obtain ⟨res, node', fs', heq, hb⟩ := h.write g hok
    refine ⟨trivial, ?_⟩
    simp only [files, Open.call, heq]
    exact hb
  | truncate length =>
    obtain ⟨res, node', fs', heq, hb⟩ := h.truncate g hok
    refine ⟨trivial, ?_⟩
    simp only [files, Open.call, heq]
    exact hb
  | read offset size =>
    obtain ⟨n, buf, fs', heq, hn, hbytes, h'⟩ := h.read g hok
    simp only [files, Open.call, heq]
    refine ⟨?_, f, d, l, h'⟩
    show FileOut.bytes _ _ = FileOut.bytes _ _
    rw [← hn, hbytes]

/-- **A FAT32 file refines a byte array** in every run whose steps meet
`StepOk`: every read returns exactly the bytes the calls before it left. -/
theorem fat32_contents (v : Vol) (g : v.Geometry) (o : Open) (a : List UInt8) (h : Backs v o a)
    (ops : List FileOp) (hok : (files v).Guarded (StepOk v) o ops) :
    (files v).Conforms contents o a ops :=
  (files v).conforms_of_simulation (call_contents g) ops o a h hok

/-- A device of six sectors: the boot sector, a FAT and four clusters of one
sector. -/
def smallVol : Vol where
  sectors := 6
  sectorsPerCluster := 1
  numFats := 1
  fatSectors := 1
  rootCluster := 2
  fatLba := 1
  dataLba := 2
  totalClusters := 4
  clock := fun _ => ⟨2024, 1, 1, 0, 0, 0⟩

/-- It as made: the root directory has its cluster, nothing else has one. -/
def smallFs : Fs where
  disk := fun lba => if lba = 1 then Mem.wr32 (fun _ => 0) 8 FAT_MASK else fun _ => 0
  images := []
  answers := []
  fatCache := fun _ => 0
  fatCacheLba := 0
  fatCacheDirty := false
  memoFirst := 0
  memoIndex := 0
  memoCluster := 0
  freeHint := 3
  freeCount := 3
  ticks := 0

/-- An empty file, with the first entry of the root directory. -/
def smallFile : Open where
  node := {
    name := [65], kind := .file, length := 0, data := none, capacity := 0, inUse := true, refs := 1
    unlinked := false, fsCluster := 0, fsDirentLba := 2, fsDirentOff := 0, fsSlots := 1
    populated := false, fsDirty := false, children := [] }
  fs := smallFs

theorem smallVol_geometry : smallVol.Geometry := by constructor <;> decide

theorem backs_smallFile : Backs smallVol smallFile [] := by
  refine ⟨smallFs.fat smallVol, smallFs.data smallVol, [], ⟨⟨rfl, .inl rfl, ?_, ?_⟩, rfl, rfl⟩,
    .of_empty (by decide), by decide, rfl, by decide, by decide, ?_, .inr ⟨2, 0, ?_, ?_, by simp⟩⟩
  · exact fun _ h => absurd rfl h
  · exact fun h => absurd h (by decide)
  · exact fun i hi => absurd hi (Nat.not_lt_zero i)
  · exact ⟨by decide, by decide, by decide, by decide⟩
  · decide

theorem fat32_contents_write_read :
    (files smallVol).Guarded (StepOk smallVol) smallFile [.write 0 3 fun _ => 65, .read 0 9] ∧
    (files smallVol).Conforms contents smallFile [] [.write 0 3 fun _ => 65, .read 0 9] := by
  have hg : (files smallVol).Guarded (StepOk smallVol) smallFile
      [.write 0 3 fun _ => 65, .read 0 9] := by
    refine ⟨.inr (.inr ⟨by decide, by decide, fun i _ hi => ?_⟩), ?_, trivial⟩
    · exact absurd hi (Nat.not_lt_zero i)
    · exact Nat.lt_of_le_of_lt (Nat.min_le_left _ _) (by decide)
  exact ⟨hg, fat32_contents smallVol smallVol_geometry smallFile [] backs_smallFile _ hg⟩

/-- The bytes a file gave up come back under a write beyond the end, which
zeroes nothing. -/
theorem fat32_not_contents :
    ¬ (files smallVol).Conforms contents smallFile []
      [.write 0 4 fun _ => 65, .truncate 1, .write 2 1 fun _ => 66, .read 0 3] := by
  decide

end NovarisOS.Fat32
