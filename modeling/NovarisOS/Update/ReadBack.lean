/-
NovarisOS.Update.ReadBack — a manifest that was written is read back.

`Gives` says what may stand in a text: a field with its value, a comment, a
blank line, a line without a sign, or a key that is not known. `Lists` is a
text with each field once. It is read back unless a key that is not known
becomes one of a field when its blanks are dropped: `Undisturbed` says when.
-/
import NovarisOS.Update.Manifest

namespace NovarisOS.Update

open Text (ascii)

/-! ## What is written -/

/-- A string for a field of `size` bytes. -/
structure IsString (size : Nat) (s : Bytes) : Prop where
  length : s.length < size
  zero : 0 ∉ s
  hash : HASH ∉ s
  newline : NEWLINE ∉ s
  head : ∀ c ∈ s.head?, isSpace c = false
  last : ∀ c ∈ s.getLast?, isSpace c = false

/-- The strings of a manifest can be written. Its numbers always can. -/
structure Named.Writable (m : Named) : Prop where
  name : IsString NAME_MAX m.name
  kernelUrl : IsString UPDATE_URL_MAX m.kernelUrl
  initrdUrl : IsString UPDATE_URL_MAX m.initrdUrl

/-- A digit of a lower case hexadecimal number. -/
def hexOf (d : Nat) : UInt8 := UInt8.ofNat (if d < 10 then 48 + d else 87 + d)

/-- `value` is `n` in digits of a base, as many of them as a value may have. -/
def Digits (base : Nat) (digit : Nat → UInt8) (value : Bytes) (n : UInt32) : Prop :=
  ∃ ds : List Nat, (∀ d ∈ ds, d < base) ∧ value = ds.map digit ∧ ds.length < UPDATE_URL_MAX ∧
    Text.value base ds = n.toNat

/-- The value that a manifest gives a field. -/
def Writes (m : Named) (value : Bytes) : Field → Prop
  | .version => Digits 10 ascii value m.version
  | .name => value = m.name
  | .kernel => value = m.kernelUrl
  | .kernelSize => Digits 10 ascii value m.kernelSize
  | .kernelSum => Digits 16 hexOf value m.kernelSum
  | .initrd => value = m.initrdUrl
  | .initrdSize => Digits 10 ascii value m.initrdSize
  | .initrdSum => Digits 16 hexOf value m.initrdSum

def Blanks (s : Bytes) : Prop := ∀ c ∈ s, isSpace c = true

/-- A text without the blanks at its ends. -/
def trim (s : Bytes) : Bytes := (s.dropWhile isSpace).rdropWhile isSpace

/-- A line with a key that no field has. -/
def Unknown (line : Bytes) : Prop :=
  ∃ key rest, line = key ++ EQUALS :: rest ∧ EQUALS ∉ key ∧ ∀ f : Field, trim key ≠ f.key

/-- What a line gives to a manifest: a field, or nothing. -/
inductive Gives (m : Named) : Bytes → Option Field → Prop
  | blank {line : Bytes} (h : Blanks line) : Gives m line none
  | comment {before text : Bytes} (h : Blanks before) : Gives m (before ++ HASH :: text) none
  | noSign {line : Bytes} (h : EQUALS ∉ line) : Gives m line none
  | unknown {line : Bytes} (h : Unknown line) : Gives m line none
  | field {f : Field} {before after lead trail value comment : Bytes} (hbefore : Blanks before) (hafter : Blanks after)
      (hlead : Blanks lead) (htrail : Blanks trail) (hvalue : Writes m value f)
      (hcomment : ∀ c ∈ comment.head?, c = HASH) :
      Gives m (before ++ (f.key ++ after) ++ EQUALS :: (lead ++ (value ++ (trail ++ comment)))) (some f)

/-- The lines give each field once, in some order, among others that give none. -/
def Lists (m : Named) (ls : List Bytes) : Prop :=
  ∃ fs, List.Forall₂ (Gives m) ls fs ∧ (fs.filterMap id).Perm Field.all

/-- Where an unknown key, when its blanks are dropped and what follows a zero
byte, is the key of a field, and no later line is read as that field, its
value is the one of the manifest. -/
def Undisturbed (m : Named) (ls : List Bytes) : Prop :=
  ∀ pre line post f value, ls = pre ++ line :: post → Unknown line → spelled line = some (f, value) →
    (∀ later ∈ post, ∀ v, spelled later ≠ some (f, v)) → m.set f value = m

/-! ## Numbers -/

theorem ofNat_mul_add (v d base : Nat) :
    UInt32.ofNat v * UInt32.ofNat base + UInt32.ofNat d = UInt32.ofNat (v * base + d) := by
  rw [UInt32.ofNat_add, UInt32.ofNat_mul]

variable {ds : List Nat}

theorem parseUint_ascii (v : Nat) (hds : ∀ d ∈ ds, d < 10) :
    parseUint (UInt32.ofNat v) (ds.map ascii) = UInt32.ofNat (Text.valueFrom 10 v ds) := by
  induction ds generalizing v with
  | nil => rfl
  | cons d ds ih =>
    have hd : d < 10 := hds d (by simp)
    have hdigit : (ascii d).toUInt32 - 48 = UInt32.ofNat d := by
      interval_cases d <;> rfl
    rw [List.map_cons, parseUint, if_pos (Text.isDigit_ascii hd), hdigit]
    have hstep : UInt32.ofNat v * 10 + UInt32.ofNat d = UInt32.ofNat (v * 10 + d) := ofNat_mul_add v d 10
    rw [hstep, ih (v * 10 + d) fun d hd => hds d (List.mem_cons_of_mem _ hd)]
    rfl

theorem hexDigit_hexOf {d : Nat} (h : d < 16) : hexDigit (hexOf d) = some (UInt32.ofNat d) := by
  interval_cases d <;> rfl

theorem shl_or (v : Nat) {d : Nat} (h : d < 16) :
    (UInt32.ofNat v <<< 4) ||| UInt32.ofNat d = UInt32.ofNat (v * 16 + d) := by
  rw [← UInt32.toNat_inj]
  simp only [UInt32.toNat_or, UInt32.toNat_shiftLeft, UInt32.toNat_ofNat']
  have hfour : UInt32.toNat 4 % 32 = 4 := rfl
  have hshift : v % 2 ^ 32 * 2 ^ 4 % 2 ^ 32 = 2 ^ 4 * (v % 2 ^ 28) := by omega
  rw [hfour, Nat.shiftLeft_eq, Nat.mod_eq_of_lt (show d < 2 ^ 32 by omega), hshift,
    ← Nat.two_pow_add_eq_or_of_lt (by omega)]
  omega

theorem parseHex_hexOf (v : Nat) (hds : ∀ d ∈ ds, d < 16) :
    parseHex (UInt32.ofNat v) (ds.map hexOf) = UInt32.ofNat (Text.valueFrom 16 v ds) := by
  induction ds generalizing v with
  | nil => rfl
  | cons d ds ih =>
    have hd : d < 16 := hds d (by simp)
    simp only [List.map_cons, parseHex, hexDigit_hexOf hd]
    rw [shl_or v hd, ih (v * 16 + d) fun d hd => hds d (List.mem_cons_of_mem _ hd)]
    rfl

theorem digit_plain {digit : Nat → UInt8} {base : Nat} (hdigit : ∀ d < base, 48 ≤ (digit d).toNat)
    (hds : ∀ d ∈ ds, d < base) {c : UInt8} (hc : c ∈ ds.map digit) :
    c ≠ 0 ∧ c ≠ HASH ∧ c ≠ NEWLINE ∧ isSpace c = false := by
  obtain ⟨d, hd, rfl⟩ := List.mem_map.mp hc
  have hle := hdigit d (hds d hd)
  generalize digit d = c at hle
  have hne : ∀ b : UInt8, b.toNat < 48 → c ≠ b := fun b hb h => by
    rw [h] at hle
    omega
  refine ⟨hne 0 (by decide), hne HASH (by decide), hne NEWLINE (by decide), ?_⟩
  simp [isSpace, hne 32 (by decide), hne 9 (by decide), hne 13 (by decide)]

variable {value s trail before line : Bytes} {n : UInt32}

theorem Digits.isString {base : Nat} {digit : Nat → UInt8}
    (hdigit : ∀ d < base, 48 ≤ (digit d).toNat) (h : Digits base digit value n) : IsString UPDATE_URL_MAX value := by
  obtain ⟨ds, hds, rfl, hlen, -⟩ := h
  have hplain : ∀ {c}, c ∈ ds.map digit → _ := fun hc => digit_plain hdigit hds hc
  exact {
    length := by simpa using hlen
    zero := fun hc => (hplain hc).1 rfl
    hash := fun hc => (hplain hc).2.1 rfl
    newline := fun hc => (hplain hc).2.2.1 rfl
    head := fun c hc => (hplain (List.mem_of_mem_head? hc)).2.2.2
    last := fun c hc => (hplain (List.mem_of_mem_getLast? hc)).2.2.2 }

theorem ascii_ge : ∀ d < 10, 48 ≤ (ascii d).toNat := by decide

theorem hexOf_ge : ∀ d < 16, 48 ≤ (hexOf d).toNat := by decide

variable {f : Field} {m a b : Named}

theorem Writes.isString (hm : m.Writable) (h : Writes m value f) :
    IsString UPDATE_URL_MAX value := by
  cases f with
  | version | kernelSize | initrdSize => exact Digits.isString ascii_ge h
  | kernelSum | initrdSum => exact Digits.isString hexOf_ge h
  | kernel => exact h ▸ hm.kernelUrl
  | initrd => exact h ▸ hm.initrdUrl
  | name => exact h ▸ { hm.name with length := hm.name.length.trans (by decide) }

theorem cstr_eq (h : 0 ∉ s) : cstr s = s := by
  rw [cstr, List.takeWhile_eq_self_iff]
  intro c hc
  simpa using fun h0 : c = 0 => h (h0 ▸ hc)

theorem kstrlcpy_eq {size : Nat} (h : IsString size s) : kstrlcpy s size = s := by
  rw [kstrlcpy, cstr_eq h.zero, List.take_of_length_le]
  have hlen := h.length
  omega

theorem Digits.parseUint (h : Digits 10 ascii value n) : parseUint 0 (cstr value) = n := by
  have hzero := (h.isString ascii_ge).zero
  obtain ⟨ds, hds, rfl, -, hval⟩ := h
  rw [cstr_eq hzero]
  have hparse := parseUint_ascii 0 hds
  rw [← Text.value, hval, UInt32.ofNat_toNat] at hparse
  exact hparse

theorem Digits.parseHex (h : Digits 16 hexOf value n) : parseHex 0 (cstr value) = n := by
  have hzero := (h.isString hexOf_ge).zero
  obtain ⟨ds, hds, rfl, -, hval⟩ := h
  rw [cstr_eq hzero]
  have hparse := parseHex_hexOf 0 hds
  rw [← Text.value, hval, UInt32.ofNat_toNat] at hparse
  exact hparse

theorem Writes.set_eq (hm : m.Writable) (h : Writes m value f) : m.set f value = m := by
  cases f with
  | version | kernelSize | initrdSize => rw [Named.set, Digits.parseUint h]
  | kernelSum | initrdSum => rw [Named.set, Digits.parseHex h]
  | kernel => rw [Named.set, show value = m.kernelUrl from h, kstrlcpy_eq hm.kernelUrl]
  | initrd => rw [Named.set, show value = m.initrdUrl from h, kstrlcpy_eq hm.initrdUrl]
  | name => rw [Named.set, show value = m.name from h, kstrlcpy_eq hm.name]

/-! ## A line by itself -/

theorem dropWhile_blanks {before rest : Bytes} (hbefore : Blanks before) (hrest : ∀ c ∈ rest.head?, isSpace c = false) :
    (before ++ rest).dropWhile isSpace = rest := by
  rw [List.dropWhile_append_of_pos hbefore]
  cases rest with
  | nil => rfl
  | cons c rest => simp [hrest c rfl]

theorem rdropWhile_blanks (htrail : Blanks trail) (hlast : ∀ c ∈ value.getLast?, isSpace c = false) :
    (value ++ trail).rdropWhile isSpace = value := by
  induction trail using List.reverseRecOn with
  | nil =>
    rw [List.append_nil, List.rdropWhile_eq_self_iff]
    intro hne
    simp [hlast _ (List.getLast?_eq_some_getLast hne)]
  | append_singleton trail c ih =>
    rw [← List.append_assoc, List.rdropWhile_concat_pos _ _ _ (htrail c (by simp))]
    exact ih fun d hd => htrail d (by simp [hd])

theorem readKey_sign {key : Bytes} (hsign : EQUALS ∉ key) (hline : NEWLINE ∉ key) (rest : Bytes) {room : Nat}
    (hroom : (key.filter (fun c => !isSpace c)).length < room) :
    readKey (key ++ EQUALS :: rest) room = (key.filter (fun c => !isSpace c), EQUALS :: rest) := by
  induction key generalizing room with
  | nil => simp [readKey]
  | cons c key ih =>
    have hc : ¬(c = EQUALS ∨ c = NEWLINE ∨ room = 0) := by
      rintro (rfl | rfl | rfl)
      · exact hsign (by simp)
      · exact hline (by simp)
      · omega
    have hsign' : EQUALS ∉ key := fun h => hsign (List.mem_cons_of_mem _ h)
    have hline' : NEWLINE ∉ key := fun h => hline (List.mem_cons_of_mem _ h)
    rw [List.cons_append, readKey, if_neg hc]
    cases hs : isSpace c with
    | true =>
      simp only [hs, List.filter_cons, Bool.not_true, Bool.false_eq_true, if_false] at hroom
      simpa [List.filter_cons, hs] using ih hsign' hline' hroom
    | false =>
      simp only [hs, List.filter_cons, Bool.not_false, if_true, List.length_cons] at hroom
      simp [hs, ih hsign' hline' (show _ < room - 1 by omega)]

theorem readValue_written {lead comment : Bytes} (hlead : Blanks lead) (htrail : Blanks trail)
    (hvalue : IsString UPDATE_URL_MAX value) (hcomment : ∀ c ∈ comment.head?, c = HASH) :
    readValue (lead ++ (value ++ (trail ++ comment))) = value := by
  have hstop : comment.takeWhile (fun c => c ≠ NEWLINE && c ≠ HASH) = [] := by
    cases comment with
    | nil => rfl
    | cons c comment => simp [hcomment c rfl]
  unfold readValue
  cases value with
  | nil =>
    have hdrop : (lead ++ ([] ++ (trail ++ comment))).dropWhile isSpace = comment := by
      rw [List.nil_append, ← List.append_assoc]
      refine dropWhile_blanks (fun c hc => (List.mem_append.mp hc).elim (hlead c) (htrail c)) ?_
      intro c hc
      rw [hcomment c hc]
      rfl
    rw [hdrop, hstop]
    rfl
  | cons c value =>
    have hdrop : (lead ++ (c :: value ++ (trail ++ comment))).dropWhile isSpace = (c :: value ++ trail) ++ comment := by
      rw [dropWhile_blanks hlead, List.append_assoc]
      simpa using hvalue.head
    have hpass : ∀ d ∈ c :: value ++ trail, (d ≠ NEWLINE && d ≠ HASH) = true := by
      intro d hd
      rcases List.mem_append.mp hd with hd | hd
      · have hn : d ≠ NEWLINE := fun h => hvalue.newline (h ▸ hd)
        have hh : d ≠ HASH := fun h => hvalue.hash (h ▸ hd)
        simp [hn, hh]
      · have hs := htrail d hd
        have hn : d ≠ NEWLINE := fun h => absurd (h ▸ hs) (by decide)
        have hh : d ≠ HASH := fun h => absurd (h ▸ hs) (by decide)
        simp [hn, hh]
    have hlen : (c :: value).length ≤ UPDATE_URL_MAX - 1 := Nat.le_pred_of_lt hvalue.length
    rw [hdrop, List.takeWhile_append_of_pos hpass, hstop, List.append_nil, List.take_append,
        List.take_of_length_le hlen]
    exact rdropWhile_blanks (fun d hd => htrail d (List.mem_of_mem_take hd)) hvalue.last

theorem spelled_start {rest : Bytes} (hbefore : Blanks before) (hhead : ∀ c ∈ rest.head?, isSpace c = false) :
    spelled (before ++ rest) = spelled rest := by
  have hrest : rest.dropWhile isSpace = rest := by
    simpa using @dropWhile_blanks [] rest (by simp [Blanks]) hhead
  simp only [spelled, dropWhile_blanks hbefore hhead, hrest]

theorem spelled_blank (h : Blanks line) : spelled line = none := by
  have hnil := @dropWhile_blanks line [] h (by simp)
  rw [List.append_nil] at hnil
  simp only [spelled, hnil]

theorem spelled_comment {text : Bytes} (h : Blanks before) : spelled (before ++ HASH :: text) = none := by
  rw [spelled_start h (by rintro c ⟨⟩; rfl)]
  rfl

theorem spelled_noSign (h : EQUALS ∉ line) : spelled line = none := by
  unfold spelled
  split
  · rfl
  · rename_i c start hd
    split
    · rfl
    · simp only
      rw [if_neg]
      intro hsign
      have hmem := mem_of_mem_readKey (List.mem_of_mem_head? hsign)
      rw [← hd] at hmem
      exact h ((List.dropWhile_suffix _).subset hmem)

theorem spelled_key {key rest text : Bytes} (hne : key ≠ []) (hhead : ∀ c ∈ key.head?, isSpace c = false ∧ c ≠ HASH)
    {found : Bytes} (hread : readKey (key ++ text) (KEY_MAX - 1) = (found, EQUALS :: rest)) :
    spelled (key ++ text) = (fieldOf found).map (·, readValue rest) := by
  obtain ⟨c, key, rfl⟩ := List.exists_cons_of_ne_nil hne
  obtain ⟨hs, hh⟩ := hhead c rfl
  rw [List.cons_append] at hread ⊢
  simp only [spelled, List.dropWhile_cons, hs, Bool.false_eq_true, if_false, if_neg hh, hread]
  rfl

set_option maxRecDepth 20000

theorem Field.key_plain (f : Field) :
    EQUALS ∉ f.key ∧ NEWLINE ∉ f.key ∧ f.key.filter (fun c => !isSpace c) = f.key ∧ f.key.length < KEY_MAX - 1 ∧
      (∀ c ∈ f.key.head?, isSpace c = false ∧ c ≠ HASH) ∧ f.key ≠ [] ∧ fieldOf f.key = some f := by
  cases f <;> decide

theorem not_mem_append_blanks {c : UInt8} {after : Bytes} (hs : c ∉ s) (hc : isSpace c = false)
    (hafter : Blanks after) :
    c ∉ s ++ after := by
  intro h
  rcases List.mem_append.mp h with h | h
  · exact hs h
  · rw [hafter c h] at hc
    exact Bool.noConfusion hc

theorem spelled_field {after lead comment : Bytes} (hbefore : Blanks before)
    (hafter : Blanks after) (hlead : Blanks lead) (htrail : Blanks trail) (hvalue : IsString UPDATE_URL_MAX value)
    (hcomment : ∀ c ∈ comment.head?, c = HASH) :
    spelled (before ++ (f.key ++ after) ++ EQUALS :: (lead ++ (value ++ (trail ++ comment)))) = some (f, value) := by
  obtain ⟨hsign, hline, hfilter, hlen, hhead, hne, hfield⟩ := f.key_plain
  have hblank : after.filter (fun c => !isSpace c) = [] := by
    rw [List.filter_eq_nil_iff]
    intro c hc
    simp [hafter c hc]
  have hlen' : ((f.key ++ after).filter (fun c => !isSpace c)).length < KEY_MAX - 1 := by
    rwa [List.filter_append, hfilter, hblank, List.append_nil]
  have hread := readKey_sign (not_mem_append_blanks hsign rfl hafter) (not_mem_append_blanks hline rfl hafter)
    (lead ++ (value ++ (trail ++ comment))) hlen'
  rw [List.filter_append, hfilter, hblank, List.append_nil, List.append_assoc] at hread
  have hhead' : ∀ c ∈ (f.key ++ (after ++ EQUALS :: (lead ++ (value ++ (trail ++ comment))))).head?,
      isSpace c = false := by
    intro c hc
    rw [List.head?_append_of_ne_nil _ hne] at hc
    exact (hhead c hc).1
  rw [List.append_assoc, List.append_assoc, spelled_start hbefore hhead', spelled_key hne hhead hread, hfield,
    readValue_written hlead htrail hvalue hcomment]
  rfl

/-! ## The text -/

/-- Two manifests give a field the same value. -/
def Named.Agree (a b : Named) : Field → Prop
  | .version => a.version = b.version
  | .name => a.name = b.name
  | .kernel => a.kernelUrl = b.kernelUrl
  | .kernelSize => a.kernelSize = b.kernelSize
  | .kernelSum => a.kernelSum = b.kernelSum
  | .initrd => a.initrdUrl = b.initrdUrl
  | .initrdSize => a.initrdSize = b.initrdSize
  | .initrdSum => a.initrdSum = b.initrdSum

theorem Named.agree_refl (a : Named) (f : Field) : a.Agree a f := by cases f <;> rfl

theorem Named.Agree.symm (h : a.Agree b f) : b.Agree a f := by
  cases f <;> exact Eq.symm h

theorem Named.Agree.trans {c : Named} (h : a.Agree b f) (h' : b.Agree c f) : a.Agree c f := by
  cases f <;> exact Eq.trans h h'

theorem Named.eq_of_agree (h : ∀ f, a.Agree b f) : a = b := by
  obtain ⟨⟨v, ku, ks, kc, iu, is, ic⟩, n⟩ := a
  obtain ⟨⟨v', ku', ks', kc', iu', is', ic'⟩, n'⟩ := b
  obtain rfl : v = v' := h .version
  obtain rfl : n = n' := h .name
  obtain rfl : ku = ku' := h .kernel
  obtain rfl : ks = ks' := h .kernelSize
  obtain rfl : kc = kc' := h .kernelSum
  obtain rfl : iu = iu' := h .initrd
  obtain rfl : is = is' := h .initrdSize
  obtain rfl : ic = ic' := h .initrdSum
  rfl

theorem Named.set_agree (a b : Named) (f : Field) (value : Bytes) : (a.set f value).Agree (b.set f value) f := by
  cases f <;> rfl

theorem Named.set_agree_other (a : Named) {g : Field} (h : f ≠ g) (value : Bytes) : (a.set f value).Agree a g := by
  cases f <;> cases g <;> first | exact absurd rfl h | rfl

theorem foldl_agree {post : List Bytes} (h : ∀ later ∈ post, ∀ v, spelled later ≠ some (f, v)) (a : Named) :
    (post.foldl Named.after a).Agree a f := by
  induction post generalizing a with
  | nil => exact a.agree_refl f
  | cons l post ih =>
    refine (ih (fun later hl => h later (List.mem_cons_of_mem _ hl)) (a.after l)).trans ?_
    unfold Named.after
    split
    · rename_i g v hg
      refine a.set_agree_other (fun hgf => h l (by simp) v ?_) v
      rw [hg, hgf]
    · exact a.agree_refl f

theorem foldl_agree_last {pre post : List Bytes} {line value : Bytes} {f : Field}
    (hline : spelled line = some (f, value))
    (h : ∀ later ∈ post, ∀ v, spelled later ≠ some (f, v)) (a m : Named) :
    ((pre ++ line :: post).foldl Named.after a).Agree (m.set f value) f := by
  rw [List.foldl_append, List.foldl_cons]
  refine (foldl_agree h _).trans ?_
  unfold Named.after
  rw [hline]
  exact Named.set_agree _ m f value

theorem exists_last {ls : List Bytes} (h : ∃ l ∈ ls, ∃ v, spelled l = some (f, v)) :
    ∃ pre line post value, ls = pre ++ line :: post ∧ spelled line = some (f, value) ∧
      ∀ later ∈ post, ∀ v, spelled later ≠ some (f, v) := by
  induction ls with
  | nil => simp at h
  | cons l ls ih =>
    by_cases hlater : ∃ l ∈ ls, ∃ v, spelled l = some (f, v)
    · obtain ⟨pre, line, post, value, rfl, hline, hpost⟩ := ih hlater
      exact ⟨l :: pre, line, post, value, rfl, hline, hpost⟩
    · obtain ⟨l', hmem, v, hv⟩ := h
      rcases List.mem_cons.mp hmem with rfl | hmem
      · exact ⟨[], l', ls, v, rfl, hv, fun later hl v hv => hlater ⟨later, hl, v, hv⟩⟩
      · exact absurd ⟨l', hmem, v, hv⟩ hlater

theorem Gives.of_spelled (hm : m.Writable) {o : Option Field} (h : Gives m line o)
    (hs : spelled line = some (f, value)) : m.set f value = m ∨ Unknown line := by
  cases h with
  | blank h => simp [spelled_blank h] at hs
  | comment h => simp [spelled_comment h] at hs
  | noSign h => simp [spelled_noSign h] at hs
  | unknown h => exact Or.inr h
  | field hbefore hafter hlead htrail hvalue hcomment =>
    rw [spelled_field hbefore hafter hlead htrail (hvalue.isString hm) hcomment] at hs
    obtain ⟨rfl, rfl⟩ := Prod.mk.inj (Option.some.inj hs)
    exact Or.inl (hvalue.set_eq hm)

theorem exists_of_forall₂ {α β : Type*} {R : α → β → Prop} {as : List α} {bs : List β}
    (h : List.Forall₂ R as bs) {a : α}
    (ha : a ∈ as) : ∃ b ∈ bs, R a b := by
  induction h with
  | nil => simp at ha
  | cons hab _ ih =>
    rcases List.mem_cons.mp ha with rfl | ha
    · exact ⟨_, by simp, hab⟩
    · obtain ⟨b, hb, hR⟩ := ih ha
      exact ⟨b, List.mem_cons_of_mem _ hb, hR⟩

theorem Lists.exists_spelled (hm : m.Writable) {ls : List Bytes} (h : Lists m ls) (f : Field) :
    ∃ l ∈ ls, ∃ v, spelled l = some (f, v) := by
  obtain ⟨fs, hfs, hperm⟩ := h
  have hall : f ∈ Field.all := by cases f <;> decide
  have hmem : some f ∈ fs := by simpa using hperm.symm.subset hall
  obtain ⟨l, hl, hg⟩ := exists_of_forall₂ hfs.flip hmem
  refine ⟨l, hl, ?_⟩
  cases hg with
  | field hbefore hafter hlead htrail hvalue hcomment =>
    exact ⟨_, spelled_field hbefore hafter hlead htrail (hvalue.isString hm) hcomment⟩

/-- A manifest that was written, its lines in any order among others, is read
back exactly where no unknown key disturbs it. -/
theorem manifest_read_back {m : Named} (hm : m.Writable) {ls : List Bytes} (hls : ∀ l ∈ ls, NEWLINE ∉ l)
    (hlists : Lists m ls) : parseManifest (join ls) = (m, m.valid) ↔ Undisturbed m ls := by
  have hparse := parseManifest_join hls
  have hpair : parseManifest (join ls) = (m, m.valid) ↔ ls.foldl Named.after Named.empty = m := by
    rw [← hparse]
    constructor
    · intro h
      rw [h]
    · intro h
      exact Prod.ext h (by rw [← h]; rfl)
  rw [hpair]
  constructor
  · rintro h pre line post f value rfl - hline hpost
    refine Named.eq_of_agree fun g => ?_
    by_cases hg : f = g
    · subst hg
      have hlast := @foldl_agree_last pre post line value f hline hpost Named.empty m
      rw [h] at hlast
      exact hlast.symm
    · exact m.set_agree_other hg value
  · intro h
    refine Named.eq_of_agree fun f => ?_
    obtain ⟨pre, line, post, value, hls', hline, hpost⟩ := exists_last (hlists.exists_spelled hm f)
    have hset : m.set f value = m := by
      obtain ⟨fs, hfs, -⟩ := hlists
      obtain ⟨o, -, hg⟩ := exists_of_forall₂ hfs (show line ∈ ls by rw [hls']; simp)
      rcases hg.of_spelled hm hline with heq | hunknown
      · exact heq
      · exact h pre line post f value hls' hunknown hline hpost
    have hlast := @foldl_agree_last pre post line value f hline hpost Named.empty m
    rw [hset, ← hls'] at hlast
    exact hlast

/-! ## A release -/

/-- A field on a line without blanks. -/
def written (f : Field) (value : Bytes) : Bytes := f.key ++ EQUALS :: value

theorem Gives.written (h : Writes m value f) : Gives m (written f value) (some f) := by
  have hnil : Blanks [] := by simp [Blanks]
  simpa [Update.written] using @Gives.field m f [] [] [] [] value [] hnil hnil hnil hnil h (by simp)

/-- Version 41, with a kernel of one byte and an initrd of two. -/
def release : Named :=
  { version := 41, name := [], kernelUrl := [107], kernelSize := 1, kernelSum := 255,
    initrdUrl := [105], initrdSize := 2, initrdSum := 3 }

/-- Its manifest, with the initrd first. -/
def releaseLines : List Bytes :=
  [written .initrd [105], written .initrdSize [50], written .initrdSum [51], written .version [52, 49],
    written .name [], written .kernel [107], written .kernelSize [49], written .kernelSum [102, 102]]

theorem release_writable : release.Writable := by
  refine ⟨?_, ?_, ?_⟩ <;> constructor <;> decide

theorem release_lists (h : Gives release line none) : Lists release (releaseLines ++ [line]) := by
  refine ⟨[some .initrd, some .initrdSize, some .initrdSum, some .version, some .name, some .kernel, some .kernelSize,
    some .kernelSum, none], ?_, by decide⟩
  exact .cons (.written rfl) (.cons (.written ⟨[2], by decide⟩) (.cons (.written ⟨[3], by decide⟩)
    (.cons (.written ⟨[4, 1], by decide⟩) (.cons (.written rfl) (.cons (.written rfl) (.cons (.written ⟨[1], by decide⟩)
      (.cons (.written ⟨[15, 15], by decide⟩) (.cons h .nil))))))))

/-- "ver sion=7" -/
def misspelt : Bytes := [118, 101, 114, 32, 115, 105, 111, 110, EQUALS, 55]

theorem misspelt_unknown : Unknown misspelt :=
  ⟨[118, 101, 114, 32, 115, 105, 111, 110], [55], rfl, by decide, fun f => by cases f <;> decide⟩

theorem release_undisturbed (h : spelled line = none) : Undisturbed release (releaseLines ++ [line]) := by
  intro pre l post f value hls _ hs _
  have hfields : ∀ l ∈ releaseLines, ((spelled l).all fun p => release.set p.1 p.2 = release) = true := by decide
  have hmem : l ∈ releaseLines ++ [line] := by
    rw [hls]
    simp
  rcases List.mem_append.mp hmem with hl | hl
  · simpa [hs] using hfields l hl
  · rw [List.mem_singleton.mp hl, h] at hs
    cases hs

/-- With a comment at the end it is read back. -/
theorem manifest_read_back_release : parseManifest (join (releaseLines ++ [[HASH, 120]])) = (release, release.valid) :=
  (manifest_read_back release_writable (by decide)
    (release_lists (@Gives.comment release [] [120] (by simp [Blanks])))).mpr (release_undisturbed (by decide))

/-- With the misspelt key at the end it becomes version 7. -/
theorem manifest_misread : ¬∀ (m : Named) (ls : List Bytes), m.Writable → (∀ l ∈ ls, NEWLINE ∉ l) → Lists m ls →
    parseManifest (join ls) = (m, m.valid) := by
  intro h
  have hread := h release (releaseLines ++ [misspelt]) release_writable (by decide)
    (release_lists (.unknown misspelt_unknown))
  have hversion := congrArg (fun r => r.1.version) hread
  exact absurd hversion (by decide)

end NovarisOS.Update
