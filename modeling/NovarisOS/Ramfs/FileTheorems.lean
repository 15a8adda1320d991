/-
NovarisOS.Ramfs.FileTheorems — a ramfs file is a byte array, except where
it is not.

`Backs n a` says that node `n` stores the bytes `a`: they are in its block,
the block is large enough, and past the file's end the block is zero, which is
what makes growing a file in place free.
-/
import NovarisOS.Ramfs.File

namespace NovarisOS.Ramfs

/-! ## Storage -/

/-- Node `n` stores the bytes `a`. -/
structure Backs (n : Node) (a : List UInt8) : Prop where
  file : n.kind ≠ .directory
  len : n.length = a.length
  small : n.length < 4294967296
  room : n.length ≤ n.capacity
  empty : n.data = none → n.length = 0
  holds : ∀ d ∈ n.data, ∀ i, i < n.length → d i = a.getD i 0
  tail : n.fromInitrd = false → ∀ d ∈ n.data, ∀ i, n.length ≤ i → 1 ≤ i → i < n.capacity → d i = 0

theorem backs_initrd (image : Mem) (len : Nat) (h : len < 4294967296) :
    Backs ⟨.file, len, some image, len, true, false⟩ (image.bytes 0 len) := by
  refine ⟨by simp, by simp, h, Nat.le_refl _, by simp, ?_, by simp⟩
  intro d hd i hi
  cases hd
  rw [Mem.getD_bytes, if_pos hi, Nat.zero_add]

variable {want offset size length : Nat}

theorem growCap_le {fuel cap cap' : Nat} (h : growCap fuel cap want = some cap') :
    cap ≤ cap' ∧ want ≤ cap' := by
  induction fuel generalizing cap with
  | zero => simp [growCap] at h
  | succ fuel ih =>
    simp only [growCap] at h
    split at h
    · split at h
      · cases h
      · have := ih h
        omega
    · cases h
      omega

variable {n n' : Node} {heap : Heap}

/-- All that `ensure_capacity` can do: keep the block it has, or move the
first `min(length, want)` bytes to a new one and clear the rest of it. -/
theorem ensureCapacity_cases
    (h : ensureCapacity heap n want = some n') :
    (n' = n ∧ n.fromInitrd = false ∧ want ≤ n.capacity ∧ n.data ≠ none) ∨
    (∃ cap buf, (n.fromInitrd = true ∨ n.data = none ∨ n.capacity < want) ∧
      want ≤ cap ∧ n.capacity ≤ cap ∧
      n' = { n with data := some buf, mappable := false, capacity := cap, fromInitrd := false } ∧
      (∀ i, i < min n.length want → ∀ d ∈ n.data, buf i = d i) ∧
      ∀ i, min n.length want ≤ i → i < cap → buf i = 0) := by
  unfold ensureCapacity at h
  split at h
  · rename_i hk
    simp only [Bool.and_eq_true, Bool.not_eq_true', decide_eq_true_eq] at hk
    cases h
    refine .inl ⟨rfl, hk.1.1, hk.2, ?_⟩
    intro hnone
    simp [hnone] at hk
  · rename_i hk
    right
    simp only [Option.bind_eq_bind, Option.bind_eq_some_iff, Option.pure_def,
      Option.some.injEq] at h
    obtain ⟨cap, hcap, block, -, rfl⟩ := h
    have hle := growCap_le hcap
    have hkeep : (if n.length < want then n.length else want) = min n.length want := by
      split <;> omega
    refine ⟨cap, _, ?_, hle.2, ?_, rfl, ?_, ?_⟩
    · by_contra hc
      push Not at hc
      obtain ⟨hi, hd, hw⟩ := hc
      simp [hi, hd, hw] at hk
    · have := hle.1
      split at this <;> omega
    · intro i hi d hd
      rw [hkeep, Mem.fillAt_outside (by omega), hd]
      exact Mem.copyAt_inside (by omega) (by omega)
    · intro i hi hc
      rw [hkeep]
      exact Mem.fillAt_inside hi (by omega)

/-! ## When a call does what it says -/

/-- The sum `offset + size` fits, or there is nothing to read. -/
def ReadOk (n : Node) (offset size : Nat) : Prop :=
  n.length ≤ offset ∨ offset + size < 4294967296

/-- Growing an empty file to `want` bytes finds byte 0 of the block it keeps
cleared. -/
def GrowOk (n : Node) (want : Nat) : Prop :=
  n.fromInitrd = false → n.length = 0 → want ≤ n.capacity → ∀ d ∈ n.data, d 0 = 0

/-- The write stores nothing, or it fits the result type, drops no byte of
an initrd file but zeros, and skips no leftover byte. -/
def WriteOk (n : Node) (offset size : Nat) : Prop :=
  size = 0 ∨ 4294967296 ≤ offset + size ∨
    (size < 2147483648 ∧
     (n.fromInitrd = true → ∀ d ∈ n.data, ∀ i, offset + size ≤ i → i < n.length → d i = 0) ∧
     (0 < offset → GrowOk n (offset + size)))

/-- The size rounded up to a page is still a size, or there is nothing to
move. -/
def MappableOk (n : Node) (bytes : Nat) (mayGrow : Bool) : Prop :=
  n.mappable = true ∨ n.length = 0 ∨ (bytes ≤ 0xFFFFF000 ∧ n.length ≤ 0xFFFFF000) ∨
    (mayGrow = true ∧ n.fromInitrd = false ∧ n.length ≤ VFS_MAPPING_RESERVE)

def StepOk (n : Node) (c : Call) : Prop :=
  match c.op with
  | .write offset size _ => WriteOk n offset.toNat size.toNat
  | .truncate length => 0 < length.toNat → GrowOk n length.toNat
  | .makeMappable bytes mayGrow => MappableOk n bytes.toNat mayGrow
  | .materialize => True
  | .read offset size => ReadOk n offset.toNat size.toNat

/-! ## One call -/

variable {a : List UInt8}

theorem ensureCapacity_backs
    (h : Backs n a)
    (hdrop : n.fromInitrd = true → ∀ d ∈ n.data, ∀ i, want ≤ i → i < n.length → d i = 0)
    (he : ensureCapacity heap n want = some n') :
    Backs n' a ∧ n'.fromInitrd = false ∧ want ≤ n'.capacity ∧ n'.data ≠ none ∧
      (GrowOk n want → n'.length = 0 → 0 < n'.capacity → ∀ d ∈ n'.data, d 0 = 0) := by
  obtain ⟨rfl, hi, hw, hd⟩ | ⟨cap, buf, hwhy, hw, hc, rfl, hcopy, hclear⟩ := ensureCapacity_cases he
  · exact ⟨h, hi, hw, hd, fun hg hl _ => hg hi hl hw⟩
  · have hroom := h.room
    refine ⟨⟨h.file, h.len, h.small, ?_, by simp, ?_, ?_⟩, rfl, hw, by simp, ?_⟩
    · show n.length ≤ cap
      omega
    · intro d hd i hi
      cases hd
      change i < n.length at hi
      have hsome : n.data ≠ none := fun hnone => by have := h.empty hnone; omega
      obtain ⟨d, hd⟩ := Option.ne_none_iff_exists'.mp hsome
      by_cases hiw : i < want
      · rw [hcopy i (by omega) d hd]
        exact h.holds d hd i hi
      · -- A byte past `want` is only dropped when the old block was the archive's.
        have hinit : n.fromInitrd = true := by
          rcases hwhy with h₁ | h₁ | h₁
          · exact h₁
          · exact absurd h₁ hsome
          · omega
        rw [hclear i (by omega) (by omega), ← h.holds d hd i hi]
        exact (hdrop hinit d hd i (by omega) hi).symm
    · intro _ d hd i hl _ hi
      cases hd
      change n.length ≤ i at hl
      exact hclear i (by omega) hi
    · intro _ hl hpos d hd
      cases hd
      change n.length = 0 at hl
      exact hclear 0 (by omega) hpos

theorem backs_copyAt {buffer : Mem}
    (h : Backs n a) (hi : n.fromInitrd = false) (hroom : offset + size ≤ n.capacity)
    (hbig : offset + size < 4294967296) (hsome : n.data ≠ none) (hsize : 0 < size)
    (hgap : 0 < offset → n.length = 0 → ∀ d ∈ n.data, d 0 = 0) :
    Backs { n with
        data := n.data.map fun d => d.copyAt offset buffer size
        length := if offset + size > n.length then offset + size else n.length }
      (ByteFile.write a offset (buffer.bytes 0 size)) := by
  have hlen := h.len
  have hsmall := h.small
  have hr := h.room
  obtain ⟨d, hd⟩ := Option.ne_none_iff_exists'.mp hsome
  have hnew : ∀ d' ∈ n.data.map fun d => d.copyAt offset buffer size,
      d' = d.copyAt offset buffer size := by
    intro d' hd'
    simp only [hd, Option.map_some, Option.mem_def, Option.some.injEq] at hd'
    exact hd'.symm
  -- Below the new end the old block holds the padded file.
  have hold : ∀ i, i < offset + size ∨ i < n.length → i < offset ∨ offset + size ≤ i →
      d i = a.getD i 0 := by
    intro i hi₁ hi₂
    by_cases hl : i < n.length
    · exact h.holds d hd i hl
    · rw [List.getD_eq_default _ _ (by omega)]
      by_cases hz : i = 0
      · subst hz
        exact hgap (by omega) (by omega) d hd
      · exact h.tail hi d hd i (by omega) (by omega) (by omega)
  have hmax : (if offset + size > n.length then offset + size else n.length)
      = max n.length (offset + size) := by
    split <;> omega
  rw [hmax]
  refine ⟨h.file, ?_, ?_, ?_, ?_, ?_, ?_⟩
  · rw [ByteFile.length_write, Mem.length_bytes, ← hlen]
  · exact Nat.max_lt.mpr ⟨hsmall, hbig⟩
  · exact Nat.max_le.mpr ⟨hr, hroom⟩
  · intro hnone
    simp [hd] at hnone
  · intro d' hd' i hi'
    rw [hnew d' hd', ByteFile.getD_write, Mem.length_bytes, Mem.copyAt_apply]
    split
    · rw [Mem.getD_bytes, if_pos (by omega), Nat.zero_add]
    · exact hold i (by dsimp only at hi'; omega) (by omega)
  · intro _ d' hd' i hl h1 hc
    dsimp only at hl hc
    rw [hnew d' hd', Mem.copyAt_outside (by omega)]
    exact h.tail hi d hd i (by omega) h1 hc

theorem vfsWrite_backs
    {buffer : Mem} (h : Backs n a) (hok : WriteOk n offset size) (ho : offset < 4294967296)
    (hs : size < 4294967296) :
    Backs (vfsWrite heap n offset size buffer).2
      (if (vfsWrite heap n offset size buffer).1 > 0
        then ByteFile.write a offset (buffer.bytes 0 size) else a) := by
  unfold vfsWrite
  rw [if_neg h.file]
  by_cases hz : size = 0
  · simpa [hz] using h
  rw [if_neg hz]
  by_cases hw : 4294967296 ≤ offset + size
  · rw [if_pos (by rw [u32_add_wrap ho hs hw]; omega)]
    simpa [EINVAL] using h
  have hu : u32 (offset + size) = offset + size := u32_of_lt (by omega)
  rw [hu, if_neg (by omega), ramfsWrite, hu]
  obtain ⟨hpos, hdrop, hgrow⟩ := (hok.resolve_left hz).resolve_left hw
  cases he : ensureCapacity heap n (offset + size) with
  | none => simpa [ENOSPC] using h
  | some n' =>
    obtain ⟨h', hi, hroom, hsome, hzero⟩ := ensureCapacity_backs h hdrop he
    have hret : int32 size > 0 := by
      rw [int32_of_lt hpos]
      omega
    simp only [hret, if_true]
    exact backs_copyAt h' hi hroom (by omega) hsome (by omega)
      fun h0 hl => hzero (hgrow h0) hl (by omega)

theorem backs_grow (h : Backs n a)
    (hi : n.fromInitrd = false) (hroom : length ≤ n.capacity) (hbig : length < 4294967296)
    (hlong : n.length < length) (hsome : n.data ≠ none)
    (hzero : n.length = 0 → ∀ d ∈ n.data, d 0 = 0) :
    Backs { n with length := length } (ByteFile.resize a length) := by
  have hlen := h.len
  refine ⟨h.file, by simp, hbig, hroom, fun hnone => absurd hnone hsome, ?_, ?_⟩
  · intro d hd i hi'
    dsimp only at hi'
    rw [ByteFile.getD_resize, if_pos hi']
    by_cases hl : i < n.length
    · exact h.holds d hd i hl
    · rw [List.getD_eq_default _ _ (by omega)]
      by_cases hz : i = 0
      · subst hz
        exact hzero (by omega) d hd
      · exact h.tail hi d hd i (by omega) (by omega) (by omega)
  · intro _ d hd i hl h1 hc
    dsimp only at hl hc
    exact h.tail hi d hd i (by omega) h1 hc

theorem ensureCapacity_shrink
    (h : Backs n a) (hi : n.fromInitrd = true) (hle : length ≤ n.length)
    (he : ensureCapacity heap n (if length = 0 then 1 else length) = some n') :
    Backs { n' with length := length } (ByteFile.resize a length) := by
  have hsmall := h.small
  have hr := h.room
  obtain ⟨-, hno, -⟩ | ⟨cap, buf, -, hw, hc, rfl, hcopy, hclear⟩ := ensureCapacity_cases he
  · rw [hi] at hno
    cases hno
  have hmin : min n.length (if length = 0 then 1 else length) ≤ max length 1 := by
    split <;> omega
  refine ⟨h.file, by simp, by dsimp only; omega, by dsimp only; omega, by simp, ?_, ?_⟩
  · intro d hd i hi'
    cases hd
    dsimp only at hi'
    rw [ByteFile.getD_resize, if_pos hi']
    have hsome : n.data ≠ none := fun hnone => by have := h.empty hnone; omega
    obtain ⟨d, hd⟩ := Option.ne_none_iff_exists'.mp hsome
    rw [if_neg (by omega)] at hcopy
    rw [hcopy i (by omega) d hd]
    exact h.holds d hd i (by omega)
  · intro _ d hd i hl h1 hi'
    cases hd
    dsimp only at hl hi'
    exact hclear i (by omega) hi'

theorem backs_shrink (h : Backs n a)
    (hi : n.fromInitrd = false) (hle : length ≤ n.length) :
    Backs { n with
        data := if length < n.length then
            n.data.map fun d => d.fillAt length 0 (n.length - length)
          else n.data
        length := length }
      (ByteFile.resize a length) := by
  have hsmall := h.small
  have hr := h.room
  -- Both branches leave a block that agrees below `length` and is zero from there on.
  have hdata : ∀ d' ∈ (if length < n.length then
        n.data.map fun d => d.fillAt length 0 (n.length - length) else n.data),
      ∃ d ∈ n.data, (∀ i, i < length → d' i = d i) ∧
        ∀ i, length ≤ i → (i < n.length → d' i = 0) ∧ (n.length ≤ i → d' i = d i) := by
    intro d' hd'
    split at hd'
    · obtain ⟨d, hd, rfl⟩ := Option.map_eq_some_iff.mp hd'
      refine ⟨d, hd, fun i hi => Mem.fillAt_outside (by omega), fun i hi => ⟨?_, ?_⟩⟩
      · intro hil
        exact Mem.fillAt_inside hi (by omega)
      · intro hil
        exact Mem.fillAt_outside (by omega)
    · exact ⟨d', hd', fun _ _ => rfl, fun i hi => ⟨fun _ => by omega, fun _ => rfl⟩⟩
  refine ⟨h.file, by simp, by dsimp only; omega, by dsimp only; omega, ?_, ?_, ?_⟩
  · intro hnone
    have : n.data = none := by
      split at hnone
      · simpa using hnone
      · exact hnone
    have := h.empty this
    dsimp only
    omega
  · intro d' hd' i hi'
    obtain ⟨d, hd, hsame, -⟩ := hdata d' hd'
    dsimp only at hi'
    rw [hsame i hi', ByteFile.getD_resize, if_pos hi']
    exact h.holds d hd i (by omega)
  · intro _ d' hd' i hl h1 hc
    obtain ⟨d, hd, -, hrest⟩ := hdata d' hd'
    by_cases hil : i < n.length
    · exact (hrest i hl).1 hil
    · rw [(hrest i hl).2 (by omega)]
      exact h.tail hi d hd i (by omega) h1 hc

theorem vfsTruncate_backs
    (h : Backs n a) (hok : 0 < length → GrowOk n length) (hl : length < 4294967296) :
    Backs (vfsTruncate heap n length).2
      (if (vfsTruncate heap n length).1 = 0 then ByteFile.resize a length else a) := by
  unfold vfsTruncate ramfsTruncate
  rw [if_neg h.file]
  by_cases hlong : length > n.length
  · rw [if_pos hlong]
    cases he : ensureCapacity heap n length with
    | none => simpa [ENOSPC] using h
    | some n' =>
      have hlen' : n'.length = n.length := by
        obtain ⟨rfl, -⟩ | ⟨cap, buf, -, -, -, rfl, -⟩ := ensureCapacity_cases he <;> rfl
      obtain ⟨h', hi, hroom, hsome, hzero⟩ :=
        ensureCapacity_backs h (fun _ d _ i h₁ h₂ => by omega) he
      exact backs_grow h' hi hroom hl (by omega) hsome
        fun h0 => hzero (hok (by omega)) h0 (by omega)
  rw [if_neg hlong]
  by_cases hi : n.fromInitrd = true
  · rw [if_pos hi]
    cases he : ensureCapacity heap n (if length = 0 then 1 else length) with
    | none => simpa [ENOSPC] using h
    | some n' => simpa using ensureCapacity_shrink h hi (by omega) he
  · rw [if_neg hi]
    simpa using backs_shrink h (by simpa using hi) (by omega)

theorem vfsMaterialize_backs (h : Backs n a)
    (hm : vfsMaterialize heap n = some n') :
    Backs n' a ∧ (n.data ≠ none → n' = n) ∧ (n.data = none → n'.mappable = false) := by
  unfold vfsMaterialize at hm
  split at hm
  · rename_i hsome
    cases hm
    refine ⟨h, fun _ => rfl, fun hnone => ?_⟩
    simp [hnone] at hsome
  · rename_i hnone
    have hnone : n.data = none := by simpa using hnone
    have hzero := h.empty hnone
    refine ⟨(ensureCapacity_backs h (fun _ d _ i h₁ h₂ => by omega) hm).1,
      fun hsome => absurd hnone hsome, fun _ => ?_⟩
    obtain ⟨rfl, -, -, hsome⟩ | ⟨cap, buf, -, -, -, rfl, -⟩ := ensureCapacity_cases hm
    · exact absurd hnone hsome
    · rfl

/-- The new block holds the file, or the rounding wrapped on a file that
is mappable already and will not be moved. -/
theorem mappableCap_ge {bytes : Nat} {mayGrow : Bool} (hb : bytes < 4294967296)
    (hl : n.length < 4294967296) (hok : MappableOk n bytes mayGrow) :
    n.length ≤ mappableCap n bytes mayGrow ∨
      (n.mappable = true ∧ mappableCap n bytes mayGrow = 0) := by
  unfold mappableCap
  simp only []
  generalize hb₁ : (if bytes < n.length then n.length else bytes) = b₁
  have h₁ : n.length ≤ b₁ ∧ b₁ < 4294967296 ∧ (b₁ ≤ n.length ∨ b₁ ≤ bytes) := by
    subst hb₁
    split <;> omega
  generalize hb₂ : (if b₁ = 0 then 1 else b₁) = b₂
  have h₂ : b₁ ≤ b₂ ∧ b₂ < 4294967296 ∧ (b₂ ≤ b₁ ∨ b₂ = 1) := by
    subst hb₂
    split <;> omega
  by_cases hwrap : b₂ ≤ 0xFFFFF000
  · -- No wrap: rounding up only adds, and so does the reserve.
    have hu : u32 (b₂ + 4095) = b₂ + 4095 := u32_of_lt (by omega)
    rw [hu]
    left
    split
    · rename_i hres
      simp only [Bool.and_eq_true, decide_eq_true_eq] at hres
      omega
    · omega
  · have hu : u32 (b₂ + 4095) / 4096 * 4096 = 0 := by
      unfold u32
      omega
    rw [hu]
    rcases hok with hm | hz | hfit | ⟨hg, hi, hsmall⟩
    · right
      simp [hm]
    · left
      omega
    · omega
    · by_cases hm : n.mappable = true
      · right
        simp [hm]
      · left
        rw [if_pos (by simp [hg, hi, hm, VFS_MAPPING_RESERVE])]
        exact hsmall

theorem vfsMakeMappable_backs {bytes : Nat}
    {mayGrow : Bool} (h : Backs n a) (hok : MappableOk n bytes mayGrow)
    (hb : bytes < 4294967296) : Backs (vfsMakeMappable heap n bytes mayGrow).2 a := by
  unfold vfsMakeMappable
  rw [if_neg h.file]
  cases hm : vfsMaterialize heap n with
  | none => exact h
  | some n' =>
    obtain ⟨h', hsame, -⟩ := vfsMaterialize_backs h hm
    have hok' : MappableOk n' bytes mayGrow := by
      by_cases hd : n.data = none
      · right; left
        rw [h'.len, ← h.len]
        exact h.empty hd
      · rw [hsame hd]
        exact hok
    simp only
    by_cases hkeep : (n'.mappable && decide (mappableCap n' bytes mayGrow ≤ n'.capacity)) = true
    · rw [if_pos hkeep]
      exact h'
    · rw [if_neg hkeep]
      cases kmalloc heap (u32 (mappableCap n' bytes mayGrow + 4096)) with
      | none => exact h'
      | some raw =>
        have hroom : n'.length ≤ mappableCap n' bytes mayGrow := by
          refine (mappableCap_ge hb h'.small hok').resolve_right fun hc => hkeep ?_
          simp [hc.1, hc.2]
        have hmin : (if n'.length < mappableCap n' bytes mayGrow then n'.length
            else mappableCap n' bytes mayGrow) = n'.length := by
          split <;> omega
        simp only [hmin]
        refine ⟨h'.file, h'.len, h'.small, hroom, by simp, ?_, ?_⟩
        · intro d hd i hi
          cases hd
          dsimp only at hi
          have hsome : n'.data ≠ none := fun hnone => by have := h'.empty hnone; omega
          obtain ⟨d, hd⟩ := Option.ne_none_iff_exists'.mp hsome
          rw [Mem.fillAt_outside (by omega), hd]
          dsimp only
          rw [Mem.copyAt_inside (by omega) (by omega)]
          exact h'.holds d hd i hi
        · intro _ d hd i hl _ hc
          cases hd
          dsimp only at hl hc
          exact Mem.fillAt_inside hl (by omega)

theorem ramfsRead_backs (h : Backs n a)
    (hok : ReadOk n offset size) :
    ramfsRead n offset size = (min size (a.length - offset), ByteFile.read a offset size) := by
  have hlen := h.len
  by_cases hl : n.length ≤ offset
  · have hread : ramfsRead n offset size = (0, []) := by
      unfold ramfsRead
      split
      · rfl
      · rw [if_pos hl]
    have hnil : ByteFile.read a offset size = [] :=
      List.eq_nil_of_length_eq_zero (by rw [ByteFile.length_read]; omega)
    rw [hread, hnil, show min size (a.length - offset) = 0 by omega]
  · have hfit : offset + size < 4294967296 := hok.resolve_left hl
    have hsome : n.data ≠ none := fun hnone => by have := h.empty hnone; omega
    obtain ⟨d, hd⟩ := Option.ne_none_iff_exists'.mp hsome
    have hclip : (if u32 (offset + size) > n.length then n.length - offset else size)
        = min size (a.length - offset) := by
      rw [u32_of_lt hfit]
      split <;> omega
    have hread : ramfsRead n offset size
        = (min size (a.length - offset), d.bytes offset (min size (a.length - offset))) := by
      unfold ramfsRead
      rw [hd]
      dsimp only
      rw [if_neg (by omega), hclip]
    rw [hread, ← ByteFile.read_eq_bytes (a := a) (by omega)
      (fun i hi => h.holds d hd i (by omega))]
    simp only [ByteFile.read, Prod.mk.injEq, true_and]
    rw [← List.length_drop]
    exact List.take_eq_take_min.symm

/-! ## Every run -/

theorem call_contents (n : Node) (a : List UInt8) (c : Call) (h : Backs n a)
    (hok : StepOk n c) :
    contents.Allows a c (files.step n c).2 ∧
      Backs (files.step n c).1 (contents.next a c (files.step n c).2) := by
  obtain ⟨heap, op⟩ := c
  cases op with
  | write offset size buffer =>
    exact ⟨trivial, vfsWrite_backs h hok offset.toNat_lt size.toNat_lt⟩
  | truncate length => exact ⟨trivial, vfsTruncate_backs h hok length.toNat_lt⟩
  | makeMappable bytes mayGrow =>
    exact ⟨trivial, vfsMakeMappable_backs h hok bytes.toNat_lt⟩
  | materialize =>
    refine ⟨trivial, ?_⟩
    show Backs (call n ⟨heap, .materialize⟩).1 a
    unfold call
    cases hm : vfsMaterialize heap n with
    | none => exact h
    | some n' => exact (vfsMaterialize_backs h hm).1
  | read offset size =>
    have hread := ramfsRead_backs h hok
    refine ⟨?_, h⟩
    show Out.bytes _ _ = Out.bytes _ _
    rw [hread]

/-- **A ramfs file refines a byte array** in every run whose calls meet
`StepOk`: every read returns exactly the bytes the successful writes and
truncates before it left. -/
theorem ramfs_contents (n : Node) (a : List UInt8) (h : Backs n a) (calls : List Call)
    (hok : files.Guarded StepOk n calls) : files.Conforms contents n a calls :=
  files.conforms_of_simulation call_contents calls n a h hok

/-- The five bytes of an archive member, and a heap that grants every
request with blocks full of `0xAA`. -/
def helloImage : Mem := fun i => [104, 101, 108, 108, 111].getD i 0

def hello : Node := ⟨.file, 5, some helloImage, 5, true, false⟩

def plenty : Heap := fun _ => some ⟨4096, fun _ => 0xAA⟩

theorem ramfs_contents_hello :
    files.Guarded StepOk hello
      [⟨plenty, .write 0 5 (fun _ => 72)⟩, ⟨plenty, .truncate 7⟩, ⟨plenty, .read 3 9⟩] ∧
    files.Conforms contents hello (helloImage.bytes 0 5)
      [⟨plenty, .write 0 5 (fun _ => 72)⟩, ⟨plenty, .truncate 7⟩, ⟨plenty, .read 3 9⟩] := by
  have hg : files.Guarded StepOk hello
      [⟨plenty, .write 0 5 (fun _ => 72)⟩, ⟨plenty, .truncate 7⟩, ⟨plenty, .read 3 9⟩] := by
    refine ⟨.inr (.inr ⟨by decide, ?_, ?_⟩), ?_, .inr (by decide), trivial⟩
    · intro _ d _ i h₁ h₂
      exact absurd h₂ (Nat.not_lt.mpr h₁)
    · intro h
      exact absurd h (by decide)
    · intro _ _ hl
      exact absurd hl (by decide)
  exact ⟨hg, ramfs_contents hello _ (backs_initrd helloImage 5 (by decide)) _ hg⟩

/-- Without the conditions the bytes are not the file's: a read whose sum
wraps returns more than the file has, a short write into an archive member
clears the rest of it, the first byte of an emptied member comes back, and a
mapping request that rounds to 0 loses the file. -/
theorem ramfs_not_contents :
    ¬ files.Conforms contents hello (helloImage.bytes 0 5) [⟨plenty, .read 1 0xFFFFFFFF⟩] ∧
    ¬ files.Conforms contents hello (helloImage.bytes 0 5)
      [⟨plenty, .write 0 1 (fun _ => 72)⟩, ⟨plenty, .read 0 5⟩] ∧
    ¬ files.Conforms contents hello (helloImage.bytes 0 5)
      [⟨plenty, .truncate 0⟩, ⟨plenty, .truncate 2⟩, ⟨plenty, .read 0 2⟩] ∧
    ¬ files.Conforms contents hello (helloImage.bytes 0 5)
      [⟨plenty, .makeMappable 0xFFFFFFFF false⟩, ⟨plenty, .read 0 5⟩] := by
  decide

end NovarisOS.Ramfs
