/-
NovarisOS.Fat32.NameTheorems — what the two encodings of a name read back as.

A short name reads back as the name it was made from, but for a dot at the
end, which eleven bytes have no place for (`shortBack`).
-/
import Mathlib.Data.List.TakeWhile
import NovarisOS.Fat32.DirTheorems

namespace NovarisOS.Fat32

theorem forall_byte {P : UInt8 → Prop} (h : ∀ n : Fin 256, P (UInt8.ofFin n)) (c : UInt8) : P c :=
  h c.toFin

/-! ## Short names -/

set_option maxRecDepth 20000

theorem shortCharOk_byte : ∀ c : UInt8, shortCharOk (toUpper c) = true →
    toUpper c ≠ SPACE ∧ toUpper c ≠ 0 ∧ toUpper c ≠ ENTRY_FREE ∧ c ≠ 0 ∧ c ≠ DOT :=
  forall_byte (by decide)

theorem toLower_toUpper : ∀ c : UInt8, isUpper c = false → toLower (toUpper c) = c :=
  forall_byte (by decide)

theorem toUpper_of_not_lower (c : UInt8) (h : isLower c = false) : toUpper c = c := by
  simp [toUpper, h]

variable {s name short11 : List UInt8}

theorem map_same {f : UInt8 → UInt8} (h : ∀ c ∈ s, f c = c) : s.map f = s := by
  simpa using List.map_congr_left h

theorem half_back (s : List UInt8) (h : (s.any isLower && s.any isUpper) = false) :
    (if s.any isLower then (s.map toUpper).map toLower else s.map toUpper) = s := by
  rw [Bool.and_eq_false_iff] at h
  split
  · rename_i hlower
    have hno : s.any isUpper = false := h.resolve_left (by simp [hlower])
    rw [List.map_map]
    refine map_same fun c hc => toLower_toUpper c ?_
    simpa using List.any_eq_false.mp hno c hc
  · rename_i hlower
    refine map_same fun c hc => toUpper_of_not_lower c ?_
    have hno : s.any isLower = false := by simpa using hlower
    simpa using List.any_eq_false.mp hno c hc

theorem takeWhile_pad (n : Nat) (h : ∀ c ∈ s, c ≠ SPACE) : (pad n s).takeWhile (· ≠ SPACE) = s := by
  rw [pad, List.takeWhile_append_of_pos (by simpa using h)]
  cases n - s.length with
  | zero => simp
  | succ k => simp [List.replicate_succ]

theorem pad_length {n : Nat} (h : s.length ≤ n) : (pad n s).length = n := by
  rw [pad, List.length_append, List.length_replicate]
  omega

theorem lastDot_some {i : Nat} (h : lastDot name = some i) :
    name = name.take i ++ DOT :: name.drop (i + 1) := by
  induction name generalizing i with
  | nil => simp [lastDot] at h
  | cons c rest ih =>
    rw [lastDot] at h
    cases hr : lastDot rest with
    | some j =>
      rw [hr] at h
      obtain rfl : j + 1 = i := Option.some.inj h
      exact congrArg (c :: ·) (ih hr)
    | none =>
      rw [hr] at h
      by_cases hc : c = DOT
      · simp only [if_pos hc] at h
        obtain rfl : 0 = i := Option.some.inj h
        simp [hc]
      · simp [if_neg hc] at h

/-- The name a short name stands for: a dot at the end is lost. -/
def shortBack (name : List UInt8) : List UInt8 :=
  if name.getLast? = some DOT then name.dropLast else name

/-- What `make_short` takes: two halves that are each in one case, and the
dot between them. -/
structure Halves (name : List UInt8) (short11 : List UInt8) (ntflags : UInt8)
    (base ext : List UInt8) (dot : Bool) : Prop where
  name : name = base ++ if dot then DOT :: ext else []
  dotless : dot = false → ext = []
  base_ne : base ≠ []
  base_le : base.length ≤ 8
  ext_le : ext.length ≤ 3
  base_ok : ∀ c ∈ base, shortCharOk (toUpper c) = true
  ext_ok : ∀ c ∈ ext, shortCharOk (toUpper c) = true
  base_case : (base.any isLower && base.any isUpper) = false
  ext_case : (ext.any isLower && ext.any isUpper) = false
  short : short11 = pad 8 (base.map toUpper) ++ pad 3 (ext.map toUpper)
  flags : ntflags = (if base.any isLower then NT_LOWER_BASE else 0) +
    if ext.any isLower then NT_LOWER_EXT else 0

variable {ntflags : UInt8}

theorem Halves.of_checks {base ext : List UInt8} (dot : Bool)
    (hname : name = base ++ if dot then DOT :: ext else []) (hdotless : dot = false → ext = [])
    (h : (if base.length = 0 ∨ base.length > 8 ∨ ext.length > 3 then none
      else if !(base.all fun c => shortCharOk (toUpper c)) then none
      else if !(ext.all fun c => shortCharOk (toUpper c)) then none
      else if base.any isLower && base.any isUpper then none
      else if ext.any isLower && ext.any isUpper then none
      else some (pad 8 (base.map toUpper) ++ pad 3 (ext.map toUpper),
        (if base.any isLower then NT_LOWER_BASE else 0) +
          (if ext.any isLower then NT_LOWER_EXT else 0))) = some (short11, ntflags)) :
    Halves name short11 ntflags base ext dot := by
  split at h
  · simp at h
  rename_i hlen
  split at h
  · simp at h
  rename_i hbase
  split at h
  · simp at h
  rename_i hext
  split at h
  · simp at h
  rename_i hbcase
  split at h
  · simp at h
  rename_i hecase
  simp only [not_or, Nat.not_lt] at hlen
  obtain ⟨hshort, hflags⟩ := Prod.mk.inj (Option.some.inj h)
  exact {
    name := hname
    dotless := hdotless
    base_ne := fun h0 => hlen.1 (by simp [h0])
    base_le := hlen.2.1
    ext_le := hlen.2.2
    base_ok := by simpa using hbase
    ext_ok := by simpa using hext
    base_case := by simpa only [Bool.not_eq_true] using hbcase
    ext_case := by simpa only [Bool.not_eq_true] using hecase
    short := hshort.symm
    flags := hflags.symm }

theorem makeShort_halves
    (h : makeShort name = some (short11, ntflags)) :
    ∃ base ext dot, Halves name short11 ntflags base ext dot := by
  rw [makeShort] at h
  split at h
  · simp at h
  split at h
  · simp at h
  split at h
  · simp at h
  split at h
  · simp at h
  cases hd : lastDot name with
  | none =>
    simp only [hd] at h
    exact ⟨name, [], false, .of_checks false (by simp) (fun _ => rfl) h⟩
  | some i =>
    simp only [hd] at h
    exact ⟨name.take i, name.drop (i + 1), true,
      .of_checks true (by simpa using lastDot_some hd) (by simp) h⟩

namespace Halves

variable {name short11 base ext : List UInt8} {ntflags : UInt8} {dot : Bool}

theorem short_length (h : Halves name short11 ntflags base ext dot) : short11.length = 11 := by
  rw [h.short, List.length_append, pad_length (by simpa using h.base_le),
    pad_length (by simpa using h.ext_le)]

theorem back (h : Halves name short11 ntflags base ext dot) :
    shortBack name = base ++ if ext = [] then [] else DOT :: ext := by
  have hlast : ∀ s : List UInt8, (∀ c ∈ s, shortCharOk (toUpper c) = true) → s ≠ [] →
      s.getLast? ≠ some DOT := by
    intro s hs hne hdot
    exact (shortCharOk_byte DOT (hs DOT (List.mem_of_getLast? hdot))).2.2.2.2 rfl
  rw [shortBack, h.name]
  cases hdot : dot with
  | false => simp [h.dotless hdot, hlast base h.base_ok h.base_ne]
  | true =>
    by_cases hext : ext = []
    · simp [hext]
    · have hend := hlast ext h.ext_ok hext
      obtain ⟨z, hz⟩ := Option.ne_none_iff_exists'.mp fun h0 => hext (List.getLast?_eq_none_iff.mp h0)
      rw [hz] at hend
      have hz' : z ≠ DOT := fun h0 => hend (by rw [h0])
      simp [hext, List.getLast?_cons, hz, hz']

end Halves

theorem shortToName_makeShort
    (h : makeShort name = some (short11, ntflags)) : shortToName short11 ntflags = shortBack name := by
  obtain ⟨base, ext, dot, hh⟩ := makeShort_halves h
  have hspace : ∀ s : List UInt8, (∀ c ∈ s, shortCharOk (toUpper c) = true) →
      ∀ c ∈ s.map toUpper, c ≠ SPACE := by
    intro s hs c hc
    obtain ⟨b, hb, rfl⟩ := List.mem_map.mp hc
    exact (shortCharOk_byte b (hs b hb)).1
  have hbase : (pad 8 (base.map toUpper)).length = 8 := pad_length (by simpa using hh.base_le)
  have hext : (pad 3 (ext.map toUpper)).length = 3 := pad_length (by simpa using hh.ext_le)
  have hflag : ∀ a b : Bool,
      (((if a then NT_LOWER_BASE else 0) + if b then NT_LOWER_EXT else 0) &&& NT_LOWER_BASE ≠ 0 ↔
        a = true) ∧
      (((if a then NT_LOWER_BASE else 0) + if b then NT_LOWER_EXT else 0) &&& NT_LOWER_EXT ≠ 0 ↔
        b = true) := by decide
  have hdot : (short11.getD 8 0 ≠ SPACE) ↔ ext ≠ [] := by
    rw [hh.short, List.getD_append_right _ _ _ _ (by omega), hbase]
    cases hext : ext with
    | nil => simp [pad]
    | cons c rest =>
      have := (shortCharOk_byte c (hh.ext_ok c (by simp [hext]))).1
      simpa [pad] using this
  have hfirst : (short11.take 8).takeWhile (· ≠ SPACE) = base.map toUpper := by
    rw [hh.short, List.take_left' hbase, takeWhile_pad 8 (hspace base hh.base_ok)]
  have hsecond : ((short11.drop 8).take 3).takeWhile (· ≠ SPACE) = ext.map toUpper := by
    rw [hh.short, List.drop_left' hbase, List.take_of_length_le (by omega),
      takeWhile_pad 3 (hspace ext hh.ext_ok)]
  rw [shortToName, hfirst, hsecond, hh.flags]
  simp only [hflag, half_back base hh.base_case, half_back ext hh.ext_case]
  rw [hh.back]
  have hzero : ∀ c ∈ base ++ (if ext = [] then [] else DOT :: ext), c ≠ 0 := by
    intro c hc
    rcases List.mem_append.mp hc with hc | hc
    · exact (shortCharOk_byte c (hh.base_ok c hc)).2.2.2.1
    · split at hc
      · simp at hc
      · rcases List.mem_cons.mp hc with rfl | hc
        · decide
        · exact (shortCharOk_byte c (hh.ext_ok c hc)).2.2.2.1
  have hsame : (if short11.getD 8 0 ≠ SPACE then DOT :: ext else []) =
      if ext = [] then [] else DOT :: ext := by
    by_cases h0 : ext = []
    · rw [if_neg (by simpa [h0] using hdot.not.mpr (by simp [h0])), if_pos h0]
    · rw [if_pos (hdot.mpr h0), if_neg h0]
  rw [hsame, cstr]
  exact List.takeWhile_eq_self_iff.mpr (by simpa using hzero)

/-- Bytes that can stand first in an entry of a file. -/
def EntryByte (c : UInt8) : Prop := c ≠ ENTRY_END ∧ c ≠ ENTRY_FREE

instance (c : UInt8) : Decidable (EntryByte c) := inferInstanceAs (Decidable (_ ∧ _))

/-- Eleven bytes that an entry of a file can start with. -/
structure ShortForm (short11 : List UInt8) : Prop where
  length : short11.length = 11
  first : EntryByte (short11.getD 0 0)

theorem makeShort_form
    (h : makeShort name = some (short11, ntflags)) :
    ShortForm short11 ∧ (shortBack name).getD 0 DOT ≠ DOT := by
  obtain ⟨base, ext, dot, hh⟩ := makeShort_halves h
  obtain ⟨c, rest, rfl⟩ := List.exists_cons_of_ne_nil hh.base_ne
  obtain ⟨-, hzero, hfree, -, hdot⟩ := shortCharOk_byte c (hh.base_ok c List.mem_cons_self)
  refine ⟨⟨hh.short_length, ?_⟩, ?_⟩
  · rw [hh.short]
    exact ⟨by simpa [pad] using hzero, by simpa [pad] using hfree⟩
  · rw [hh.back]
    simpa using hdot

/-! ## Generated short names -/

theorem generatedBase_bytes (stem : List UInt8) :
    generatedBase stem ≠ [] ∧ ∀ c ∈ generatedBase stem, EntryByte c := by
  have hok : ∀ c : UInt8, EntryByte (if shortCharOk c then c else UNDERSCORE) :=
    forall_byte (by decide)
  rw [generatedBase]
  split
  · refine ⟨by simp, fun c hc => ?_⟩
    rw [List.mem_singleton.mp hc]
    decide
  · rename_i hne
    refine ⟨hne, fun c hc => ?_⟩
    obtain ⟨b, -, rfl⟩ := List.mem_map.mp hc
    exact hok b

theorem generatedShort_form (name : List UInt8) (n : Nat) : ShortForm (generatedShort name n) := by
  rw [generatedShort]
  generalize hbase : generatedBase _ = base
  obtain ⟨hne, hbytes⟩ := hbase ▸ generatedBase_bytes _
  generalize hkeep : 8 - (tildeTail n).length = keep
  have hext : ∀ rest, (generatedExt rest).length = 3 := by
    intro rest
    rw [generatedExt]
    exact pad_length (by rw [List.length_map, List.length_take]; exact Nat.min_le_left _ _)
  refine ⟨?_, ?_⟩
  · rw [List.length_append, hext, pad_length (by rw [List.length_take]; exact Nat.min_le_left _ _)]
  · obtain ⟨c, rest, rfl⟩ := List.exists_cons_of_ne_nil hne
    cases keep with
    | zero => exact ⟨by simp [pad, tildeTail]; decide, by simp [pad, tildeTail]; decide⟩
    | succ keep =>
      obtain ⟨hend, hfree⟩ := hbytes c List.mem_cons_self
      exact ⟨by simpa [pad] using hend, by simpa [pad] using hfree⟩

/-! ## Long entries -/

theorem rd16_foldl {o val : Nat → Nat} {k : Nat} :
    ∀ (ks : List Nat) (m : Mem), k ∈ ks → ks.Nodup →
      (∀ i ∈ ks, ∀ j ∈ ks, i ≠ j → o i + 2 ≤ o j ∨ o j + 2 ≤ o i) →
      (ks.foldl (fun m i => m.wr16 (o i) (val i)) m).rd16 (o k) = val k % 65536
  | [], _, hk, _, _ => by simp at hk
  | i :: ks, m, hk, hnodup, hapart => by
      obtain ⟨hi, hnodup⟩ := List.nodup_cons.mp hnodup
      have hrest : ∀ a ∈ ks, ∀ b ∈ ks, a ≠ b → o a + 2 ≤ o b ∨ o b + 2 ≤ o a := fun a ha b hb =>
        hapart a (List.mem_cons_of_mem i ha) b (List.mem_cons_of_mem i hb)
      rcases List.mem_cons.mp hk with rfl | hk
      · have hkeep : ∀ (l : List Nat) (m : Mem), (∀ j ∈ l, o j + 2 ≤ o k ∨ o k + 2 ≤ o j) →
            (l.foldl (fun m i => m.wr16 (o i) (val i)) m).rd16 (o k) = m.rd16 (o k) := by
          intro l
          induction l with
          | nil => simp
          | cons j l ih =>
            intro m hl
            rw [List.foldl_cons, ih _ fun a ha => hl a (List.mem_cons_of_mem j ha)]
            exact Mem.rd16_wr16_of_disjoint ((hl j List.mem_cons_self).symm)
        rw [List.foldl_cons, hkeep ks _ fun j hj => ?_, Mem.rd16_wr16]
        exact hapart j (List.mem_cons_of_mem k hj) k List.mem_cons_self fun he => hi (he ▸ hj)
      · exact rd16_foldl ks _ hk hnodup hrest

/-- Character `p` of a name as long entries have it. -/
def charAt (name : List UInt8) (p : Nat) : Nat :=
  if p < name.length then (name.getD p 0).toNat else if p = name.length then 0x0000 else 0xFFFF

section

variable {name : List UInt8} {sum : UInt8} {lfnCount ord : Nat}

theorem lfnEntry_char {k : Nat} (hk : k < 13) :
    (entryOf (lfnEntry name sum lfnCount ord)).rd16 (lfnOffsets.getD k 0) =
      charAt name ((ord - 1) * 13 + k) := by
  have hplace : ∀ k : Fin 13, (1 ≤ lfnOffsets.getD k.val 0 ∧ lfnOffsets.getD k.val 0 ≤ 9) ∨
      (14 ≤ lfnOffsets.getD k.val 0 ∧ lfnOffsets.getD k.val 0 ≤ 30) := by decide
  have hapart : ∀ i j : Fin 13, i ≠ j → lfnOffsets.getD i.val 0 + 2 ≤ lfnOffsets.getD j.val 0 ∨
      lfnOffsets.getD j.val 0 + 2 ≤ lfnOffsets.getD i.val 0 := by decide
  have hsmall : charAt name ((ord - 1) * 13 + k) % 65536 = charAt name ((ord - 1) * 13 + k) := by
    have := (name.getD ((ord - 1) * 13 + k) 0).toNat_lt
    refine Nat.mod_eq_of_lt ?_
    rw [charAt]
    split
    · omega
    · split <;> decide
  have hoff : (1 ≤ lfnOffsets.getD k 0 ∧ lfnOffsets.getD k 0 ≤ 9) ∨
      (14 ≤ lfnOffsets.getD k 0 ∧ lfnOffsets.getD k 0 ≤ 30) := hplace ⟨k, hk⟩
  have hbytes : (entryOf (lfnEntry name sum lfnCount ord)).rd16 (lfnOffsets.getD k 0) =
      ((List.range 13).foldl (fun (m : Mem) k => m.wr16 (lfnOffsets.getD k 0)
        (charAt name ((ord - 1) * 13 + k))) fun _ => 0).rd16 (lfnOffsets.getD k 0) := by
    refine Mem.rd16_congr fun i h₁ h₂ => ?_
    simp only [entryOf, lfnEntry, DIRENT_SIZE]
    rw [if_pos (by omega), if_neg (by omega), if_neg (by omega), if_neg (by omega), if_neg (by omega)]
    rfl
  rw [hbytes, rd16_foldl (List.range 13) _ (List.mem_range.mpr hk) List.nodup_range, hsmall]
  intro i hi j hj hne
  exact hapart ⟨i, List.mem_range.mp hi⟩ ⟨j, List.mem_range.mp hj⟩ fun h => hne (Fin.mk.inj h)

theorem lfnEntry_head :
    entryOf (lfnEntry name sum lfnCount ord) 0 =
      UInt8.ofNat (if ord = lfnCount then ord + 0x40 else ord) ∧
    entryOf (lfnEntry name sum lfnCount ord) 11 = ATTR_LFN ∧
    entryOf (lfnEntry name sum lfnCount ord) 13 = sum := ⟨rfl, rfl, rfl⟩

/-- A name that fits a node, in the bytes a path is made of. -/
structure Plain (name : List UInt8) : Prop where
  ne : name ≠ []
  short : name.length < VFS_NAME_MAX
  bytes : ∀ c ∈ name, c ≠ 0 ∧ c < 0x80

theorem Plain.getD (h : Plain name) {p : Nat} (hp : p < name.length) :
    name.getD p 0 ≠ 0 ∧ name.getD p 0 < 0x80 := by
  rw [List.getD_eq_getElem _ _ hp]
  exact h.bytes _ (List.getElem_mem hp)

/-- The loop over the characters from the `a`-th on, of an entry that has the
characters of the name from `base` on. -/
theorem lfnChars_spec (hname : Plain name) {ent : Mem} {base : Nat}
    (hchar : ∀ k, k < 13 → ent.rd16 (lfnOffsets.getD k 0) = charAt name (base + k))
    (m a : Nat) (lfn : Lfn) (ham : a + m = 13) (ha : base + a ≤ name.length) :
    (lfnChars ent base (List.range' a m) lfn).count = lfn.count ∧
    (lfnChars ent base (List.range' a m) lfn).sum = lfn.sum ∧
    (lfnChars ent base (List.range' a m) lfn).len =
      (if base + 13 ≤ name.length then lfn.len else min name.length lfn.len) ∧
    ∀ i, (lfnChars ent base (List.range' a m) lfn).text i =
      if base + a ≤ i ∧ i < base + 13 ∧ i < name.length then name.getD i 0 else lfn.text i := by
  induction m generalizing a lfn with
  | zero =>
    refine ⟨rfl, rfl, ?_, fun i => ?_⟩
    · rw [if_pos (by omega)]
      rfl
    · rw [if_neg (by omega)]
      rfl
  | succ m ih =>
    rw [List.range'_succ, lfnChars, hchar a (by omega)]
    by_cases hin : base + a < name.length
    · obtain ⟨hne, hlt⟩ := hname.getD hin
      have hch : charAt name (base + a) = (name.getD (base + a) 0).toNat := if_pos hin
      have hpos : (name.getD (base + a) 0).toNat ≠ 0 := fun h0 => hne (UInt8.toNat_inj.mp h0)
      have hsmall : (name.getD (base + a) 0).toNat < 128 := hlt
      have hfits := hname.short
      simp only [VFS_NAME_MAX] at hfits
      rw [hch, if_neg (by omega), if_pos (by simp only [VFS_NAME_MAX]; omega), if_pos (by omega)]
      obtain ⟨hcount, hsum, hlen, htext⟩ := ih (a + 1)
        { lfn with
          text := Function.update lfn.text (base + a)
            (UInt8.ofNat (name.getD (base + a) 0).toNat) } (by omega) (by omega)
      refine ⟨hcount, hsum, hlen, fun i => ?_⟩
      rw [htext, UInt8.ofNat_toNat]
      by_cases hi : i = base + a
      · rw [if_neg (by omega), if_pos (by omega), hi]
        simp
      · simp only [Function.update_of_ne hi]
        by_cases hi' : base + (a + 1) ≤ i ∧ i < base + 13 ∧ i < name.length
        · rw [if_pos hi', if_pos (by omega)]
        · rw [if_neg hi', if_neg (by omega)]
    · have hend : charAt name (base + a) = 0 := by
        rw [charAt, if_neg hin, if_pos (by omega)]
      rw [hend, if_pos (.inl rfl)]
      refine ⟨rfl, rfl, ?_, fun i => ?_⟩
      · rw [if_neg (show ¬ base + 13 ≤ name.length by omega)]
        dsimp only
        split <;> omega
      · rw [if_neg (show ¬ (base + a ≤ i ∧ i < base + 13 ∧ i < name.length) by omega)]

/-- The long name is there from piece `o` on. -/
structure Pieces (name : List UInt8) (sum : UInt8) (o : Nat) (lfn : Lfn) : Prop where
  count : lfn.count = lfnSlotsFor name.length
  sum : lfn.sum = sum
  len : lfn.len = name.length
  text : ∀ i, 13 * o ≤ i → i < name.length → lfn.text i = name.getD i 0

theorem lfnSlotsFor_bounds (h : Plain name) : 1 ≤ lfnSlotsFor name.length ∧
    lfnSlotsFor name.length ≤ 10 ∧ (lfnSlotsFor name.length - 1) * 13 < name.length ∧
    name.length ≤ lfnSlotsFor name.length * 13 := by
  have hpos : 0 < name.length := List.length_pos_of_ne_nil h.ne
  have hshort := h.short
  simp only [lfnSlotsFor, VFS_NAME_MAX] at *
  omega

theorem pieces_first (h : Plain name) (sum : UInt8) (lfn : Lfn) :
    Pieces name sum (lfnSlotsFor name.length - 1)
      (lfnStep lfn (entryOf (lfnEntry name sum (lfnSlotsFor name.length)
        (lfnSlotsFor name.length)))) := by
  obtain ⟨hone, hten, hlow, hhigh⟩ := lfnSlotsFor_bounds h
  obtain ⟨h0, -, h13⟩ := @lfnEntry_head name sum (lfnSlotsFor name.length) (lfnSlotsFor name.length)
  have hchar := fun k (hk : k < 13) =>
    @lfnEntry_char name sum (lfnSlotsFor name.length) (lfnSlotsFor name.length) k hk
  generalize hn : lfnSlotsFor name.length = n at *
  generalize entryOf (lfnEntry name sum n n) = ent at *
  have hord : (ent 0).toNat % 64 = n ∧ ent 0 &&& 0x40 ≠ 0 := by
    rw [h0]
    have : n = 1 ∨ n = 2 ∨ n = 3 ∨ n = 4 ∨ n = 5 ∨ n = 6 ∨ n = 7 ∨ n = 8 ∨ n = 9 ∨ n = 10 := by omega
    rcases this with rfl | rfl | rfl | rfl | rfl | rfl | rfl | rfl | rfl | rfl <;> decide
  obtain ⟨hcount, hsum, hlen, htext⟩ := lfnChars_spec h hchar 13 0 ⟨fun _ => 0, n * 13, n, sum⟩ rfl
    (by omega)
  rw [← List.range_eq_range'] at hcount hsum hlen htext
  have hstep : lfnStep lfn ent =
      lfnChars ent ((n - 1) * 13) (List.range 13) ⟨fun _ => 0, n * 13, n, sum⟩ := by
    have h0 : n ≠ 0 := by omega
    have h20 : ¬ n > 20 := by omega
    rw [lfnStep, hord.1, h13]
    simp [hord.2, h0, h20]
  rw [hstep]
  refine ⟨hcount.trans hn.symm, hsum, hlen.trans ?_, fun i h₁ h₂ => ?_⟩
  · dsimp only
    split <;> omega
  · rw [htext, if_pos (by omega)]

theorem pieces_next (h : Plain name) {sum : UInt8} {lfn : Lfn} {ord : Nat} (hone : 1 ≤ ord)
    (hlt : ord < lfnSlotsFor name.length) (hp : Pieces name sum ord lfn) :
    Pieces name sum (ord - 1)
      (lfnStep lfn (entryOf (lfnEntry name sum (lfnSlotsFor name.length) ord))) := by
  obtain ⟨-, hten, hlow, hhigh⟩ := lfnSlotsFor_bounds h
  obtain ⟨h0, -, h13⟩ := @lfnEntry_head name sum (lfnSlotsFor name.length) ord
  have hchar := fun k (hk : k < 13) => @lfnEntry_char name sum (lfnSlotsFor name.length) ord k hk
  obtain ⟨hpcount, hpsum, hplen, hptext⟩ := hp
  generalize hn : lfnSlotsFor name.length = n at *
  generalize entryOf (lfnEntry name sum n ord) = ent at *
  rw [if_neg (by omega)] at h0
  have hord : (ent 0).toNat % 64 = ord ∧ ent 0 &&& 0x40 = 0 := by
    rw [h0]
    have : ord = 1 ∨ ord = 2 ∨ ord = 3 ∨ ord = 4 ∨ ord = 5 ∨ ord = 6 ∨ ord = 7 ∨ ord = 8 ∨ ord = 9 := by
      omega
    rcases this with rfl | rfl | rfl | rfl | rfl | rfl | rfl | rfl | rfl <;> decide
  obtain ⟨hcount, hsum, hlen, htext⟩ := lfnChars_spec h hchar 13 0 lfn rfl (by omega)
  rw [← List.range_eq_range'] at hcount hsum hlen htext
  have hstep : lfnStep lfn ent = lfnChars ent ((ord - 1) * 13) (List.range 13) lfn := by
    have h0 : ord ≠ 0 := by omega
    have hne : n ≠ 0 := by omega
    have hle : ¬ ord > n := by omega
    rw [lfnStep, hord.1, h13]
    simp [hord.2, h0, hne, hle, hpcount, hpsum]
  rw [hstep]
  refine ⟨hcount.trans (hpcount.trans hn.symm), hsum.trans hpsum, hlen.trans ?_, fun i h₁ h₂ => ?_⟩
  · rw [if_pos (by omega)]
    exact hplen
  · rw [htext]
    by_cases hi : i < (ord - 1) * 13 + 13
    · rw [if_pos (by omega)]
    · rw [if_neg (by omega)]
      exact hptext i (by omega) h₂

theorem Pieces.whole {sum : UInt8} {lfn : Lfn} (h : Plain name) (hp : Pieces name sum 0 lfn) :
    cstr (lfn.text.bytes 0 lfn.len) = name := by
  have hbytes : lfn.text.bytes 0 lfn.len = name := by
    rw [hp.len]
    refine List.ext_getElem (by simp [Mem.bytes]) fun i h₁ h₂ => ?_
    simp only [Mem.bytes, List.getElem_map, List.getElem_range, Nat.zero_add]
    rw [hp.text i (by omega) h₂, List.getD_eq_getElem _ _ h₂]
  rw [hbytes, cstr]
  exact List.takeWhile_eq_self_iff.mpr fun c hc => by simpa using (h.bytes c hc).1

end

end NovarisOS.Fat32
