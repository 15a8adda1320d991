/-
NovarisOS.Update.Manifest — the manifest as text: `parse_manifest` of
`kernel/update.c`.

A text is its bytes and a position in it what follows there. A buffer of the
scanner is what it holds, up to the zero byte where it is read as a string.

A text is also its lines. `spelled` is what a single line comes to, and
`Gives` is what a line is meant to be: a field with its value, an unknown
key, a comment or nothing.
-/
import Mathlib.Data.List.DropRight
import NovarisOS.Lib.Text
import NovarisOS.Update.Apply

namespace NovarisOS.Update

open Text (isDigit)

abbrev UPDATE_URL_MAX : Nat := 256
abbrev NAME_MAX : Nat := 64
abbrev KEY_MAX : Nat := 32

abbrev NEWLINE : UInt8 := 10
abbrev HASH : UInt8 := 35
abbrev EQUALS : UInt8 := 61

deriving instance DecidableEq for Manifest

/-- `update_manifest_t`, with the name that only people read. -/
structure Named extends Manifest where
  name : Bytes
  deriving DecidableEq

/-- `kmemset(m, 0, sizeof(*m))`. -/
def Named.empty : Named :=
  { version := 0, name := [], kernelUrl := [], kernelSize := 0, kernelSum := 0,
    initrdUrl := [], initrdSize := 0, initrdSum := 0 }

/-! ## The scanner -/

def isSpace (c : UInt8) : Bool := c = 32 || c = 9 || c = 13

/-- A buffer as a string. -/
def cstr (s : Bytes) : Bytes := s.takeWhile (· ≠ 0)

def parseUint (v : UInt32) : Bytes → UInt32
  | [] => v
  | c :: s => if isDigit c then parseUint (v * 10 + (c.toUInt32 - 48)) s else v

/-- The digit of a hexadecimal number. -/
def hexDigit (c : UInt8) : Option UInt32 :=
  if 48 ≤ c ∧ c ≤ 57 then some (c.toUInt32 - 48)
  else if 97 ≤ c ∧ c ≤ 102 then some (c.toUInt32 - 97 + 10)
  else if 65 ≤ c ∧ c ≤ 70 then some (c.toUInt32 - 65 + 10)
  else none

def parseHex (v : UInt32) : Bytes → UInt32
  | [] => v
  | c :: s =>
    match hexDigit c with
    | some d => parseHex ((v <<< 4) ||| d) s
    | none => v

/-- `kstrlcpy` into a buffer of `size` bytes. -/
def kstrlcpy (src : Bytes) (size : Nat) : Bytes := (cstr src).take (size - 1)

/-- The rest of the text from the end of the line on. -/
def skipLine (text : Bytes) : Bytes := text.dropWhile (· ≠ NEWLINE)

/-- The rest of the text without blanks and line ends. -/
def skipBlank (text : Bytes) : Bytes := text.dropWhile (fun c => isSpace c || c = NEWLINE)

/-- The key, without its blanks and as far as there is room, and what follows. -/
def readKey : Bytes → (room : Nat) → Bytes × Bytes
  | [], _ => ([], [])
  | c :: text, room =>
    if c = EQUALS ∨ c = NEWLINE ∨ room = 0 then ([], c :: text)
    else if isSpace c then readKey text room
    else
      let (key, rest) := readKey text (room - 1)
      (c :: key, rest)

/-- The value, from behind the sign to the end of the line or a comment. -/
def readValue (text : Bytes) : Bytes :=
  let value := ((text.dropWhile isSpace).takeWhile (fun c => c ≠ NEWLINE && c ≠ HASH)).take (UPDATE_URL_MAX - 1)
  value.rdropWhile isSpace

/-- The fields of a manifest. -/
inductive Field where
  | version
  | name
  | kernel
  | kernelSize
  | kernelSum
  | initrd
  | initrdSize
  | initrdSum
  deriving DecidableEq

/-- The key of a field. -/
def Field.key : Field → Bytes
  | version => [118, 101, 114, 115, 105, 111, 110]
  | name => [110, 97, 109, 101]
  | kernel => [107, 101, 114, 110, 101, 108]
  | kernelSize => [107, 101, 114, 110, 101, 108, 95, 115, 105, 122, 101]
  | kernelSum => [107, 101, 114, 110, 101, 108, 95, 115, 117, 109]
  | initrd => [105, 110, 105, 116, 114, 100]
  | initrdSize => [105, 110, 105, 116, 114, 100, 95, 115, 105, 122, 101]
  | initrdSum => [105, 110, 105, 116, 114, 100, 95, 115, 117, 109]

/-- In the order in which the keys are compared. -/
def Field.all : List Field := [version, name, kernel, kernelSize, kernelSum, initrd, initrdSize, initrdSum]

/-- The field that a key names. -/
def fieldOf (key : Bytes) : Option Field := Field.all.find? (fun f => cstr key = f.key)

/-- A value goes to its field. -/
def Named.set (m : Named) (f : Field) (value : Bytes) : Named :=
  match f with
  | .version => { m with version := parseUint 0 (cstr value) }
  | .name => { m with name := kstrlcpy value NAME_MAX }
  | .kernel => { m with kernelUrl := kstrlcpy value UPDATE_URL_MAX }
  | .kernelSize => { m with kernelSize := parseUint 0 (cstr value) }
  | .kernelSum => { m with kernelSum := parseHex 0 (cstr value) }
  | .initrd => { m with initrdUrl := kstrlcpy value UPDATE_URL_MAX }
  | .initrdSize => { m with initrdSize := parseUint 0 (cstr value) }
  | .initrdSum => { m with initrdSum := parseHex 0 (cstr value) }

/-- What a key and its value come to; an unknown key is skipped. -/
def assign (m : Named) (key value : Bytes) : Named :=
  match fieldOf key with
  | some f => m.set f value
  | none => m

/-- The loop of `parse_manifest`; each pass takes a byte at least. -/
def parseLoop : (fuel : Nat) → Bytes → Named → Named
  | 0, _, m => m
  | fuel + 1, text, m =>
    match skipBlank text with
    | [] => m
    | c :: text =>
      if c = HASH then parseLoop fuel (skipLine (c :: text)) m
      else
        let (key, text) := readKey (c :: text) (KEY_MAX - 1)
        if text.head? = some EQUALS then parseLoop fuel (skipLine text) (assign m key (readValue text.tail))
        else parseLoop fuel (skipLine text) m

def parseManifest (text : Bytes) : Named × Bool :=
  let m := parseLoop text.length text Named.empty
  (m, m.valid)

/-! ## Lines -/

/-- The lines of a text, with an end of line between them. -/
def join : List Bytes → Bytes
  | [] => []
  | [l] => l
  | l :: ls => l ++ NEWLINE :: join ls

/-- What a line comes to by itself: the field that its key names, and the value. -/
def spelled (line : Bytes) : Option (Field × Bytes) :=
  match line.dropWhile isSpace with
  | [] => none
  | c :: line =>
    if c = HASH then none
    else
      let (key, rest) := readKey (c :: line) (KEY_MAX - 1)
      if rest.head? = some EQUALS then (fieldOf key).map (·, readValue rest.tail) else none

/-- The manifest after a line. -/
def Named.after (m : Named) (line : Bytes) : Named :=
  match spelled line with
  | some (f, value) => m.set f value
  | none => m

/-- Where a line ends: at the end of the text or at the end of the line. -/
def AtEnd (rest : Bytes) : Prop := ∀ c ∈ rest.head?, c = NEWLINE

theorem atEnd_newline (rest : Bytes) : AtEnd (NEWLINE :: rest) := by simp [AtEnd]

theorem isSpace_newline : isSpace NEWLINE = false := rfl

variable {line rest : Bytes}

theorem readKey_append (hrest : AtEnd rest) (room : Nat) :
    readKey (line ++ rest) room = ((readKey line room).1, (readKey line room).2 ++ rest) := by
  induction line generalizing room with
  | nil =>
    cases rest with
    | nil => rfl
    | cons c rest =>
      have hc : c = NEWLINE := hrest c rfl
      simp [readKey, hc]
  | cons c line ih =>
    simp only [List.cons_append, readKey]
    split
    · rfl
    · split
      · exact ih room
      · rw [ih (room - 1)]

theorem dropWhile_append_end {p : UInt8 → Bool} (hp : p NEWLINE = false) (hrest : AtEnd rest) :
    (line ++ rest).dropWhile p = line.dropWhile p ++ rest := by
  induction line with
  | nil =>
    cases rest with
    | nil => rfl
    | cons c rest =>
      have hc : c = NEWLINE := hrest c rfl
      simp [hc, hp]
  | cons c line ih =>
    cases hc : p c <;> simp [hc, ih]

theorem takeWhile_append_end {p : UInt8 → Bool} (hp : p NEWLINE = false) (hrest : AtEnd rest) :
    (line ++ rest).takeWhile p = line.takeWhile p := by
  induction line with
  | nil =>
    cases rest with
    | nil => rfl
    | cons c rest =>
      have hc : c = NEWLINE := hrest c rfl
      simp [hc, hp]
  | cons c line ih =>
    cases hc : p c <;> simp [hc, ih]

theorem readValue_append (hrest : AtEnd rest) : readValue (line ++ rest) = readValue line := by
  unfold readValue
  rw [dropWhile_append_end isSpace_newline hrest, takeWhile_append_end (by decide) hrest]

theorem skipLine_append (hline : NEWLINE ∉ line) (hrest : AtEnd rest) :
    skipLine (line ++ rest) = rest := by
  unfold skipLine
  rw [dropWhile_append_end (by decide) hrest]
  have hnil : line.dropWhile (· ≠ NEWLINE) = [] := by
    simp only [List.dropWhile_eq_nil_iff, decide_eq_true_eq]
    exact fun c hc hn => hline (hn ▸ hc)
  rw [hnil, List.nil_append]

theorem mem_of_mem_readKey {room : Nat} {c : UInt8} (h : c ∈ (readKey line room).2) : c ∈ line := by
  induction line generalizing room with
  | nil => simp [readKey] at h
  | cons d line ih =>
    simp only [readKey] at h
    split at h
    · exact h
    · split at h
      · exact List.mem_cons_of_mem _ (ih h)
      · exact List.mem_cons_of_mem _ (ih h)

theorem skipBlank_append {line rest : Bytes} (hline : NEWLINE ∉ line) :
    skipBlank (line ++ rest) = match line.dropWhile isSpace with
      | [] => skipBlank rest
      | c :: line => c :: line ++ rest := by
  induction line with
  | nil => rfl
  | cons c line ih =>
    have hc : c ≠ NEWLINE := fun h => hline (by simp [h])
    cases hs : isSpace c with
    | true => simpa [skipBlank, hs] using ih fun h => hline (List.mem_cons_of_mem _ h)
    | false => simp [skipBlank, hs, hc]

theorem parseLoop_newline (fuel : Nat) (text : Bytes) (m : Named) :
    parseLoop (fuel + 1) (NEWLINE :: text) m = parseLoop (fuel + 1) text m := by
  have hskip : skipBlank (NEWLINE :: text) = skipBlank text := rfl
  simp only [parseLoop, hskip]

theorem parseLoop_line {line rest : Bytes} (hline : NEWLINE ∉ line) (hrest : AtEnd rest) (fuel : Nat) (m : Named) :
    parseLoop (fuel + 1) (line ++ rest) m =
      parseLoop (if line.dropWhile isSpace = [] then fuel + 1 else fuel) rest (m.after line) := by
  have hmem : ∀ {c}, c ∈ line.dropWhile isSpace → c ∈ line := fun h => (List.dropWhile_suffix _).subset h
  have hskip := @skipBlank_append line rest hline
  cases hd : line.dropWhile isSpace with
  | nil =>
    simp only [parseLoop, hskip, Named.after, spelled, hd, if_true]
  | cons c start =>
    rw [hd] at hskip hmem
    have hstart : NEWLINE ∉ c :: start := fun h => hline (hmem h)
    simp only [parseLoop, hskip, List.cons_append, reduceCtorEq, if_false, Named.after, spelled, hd]
    split
    · rw [← List.cons_append, skipLine_append hstart hrest]
    · rw [← List.cons_append, readKey_append hrest]
      rcases hk : readKey (c :: start) (KEY_MAX - 1) with ⟨key, after⟩
      have hafter : NEWLINE ∉ after := by
        intro h
        exact hstart (mem_of_mem_readKey (by rw [hk]; exact h))
      have hhead : (after ++ rest).head? = some EQUALS ↔ after.head? = some EQUALS := by
        cases after with
        | nil =>
          cases rest with
          | nil => rfl
          | cons d rest => simp [hrest d rfl, show NEWLINE ≠ EQUALS by decide]
        | cons d after => simp
      simp only [hhead, skipLine_append hafter hrest]
      split
      · rename_i hsign
        have htail : readValue (after ++ rest).tail = readValue after.tail := by
          cases after with
          | nil => simp at hsign
          | cons d after => exact readValue_append hrest
        rw [htail, assign]
        cases fieldOf key <;> rfl
      · rfl

theorem parseLoop_nil (fuel : Nat) (m : Named) : parseLoop fuel [] m = m := by cases fuel <;> rfl

theorem parseLoop_join {ls : List Bytes} (hls : ∀ l ∈ ls, NEWLINE ∉ l) {fuel : Nat} (hfuel : (join ls).length ≤ fuel)
    (m : Named) : parseLoop fuel (join ls) m = ls.foldl Named.after m := by
  induction ls generalizing fuel m with
  | nil => exact parseLoop_nil fuel m
  | cons l ls ih =>
    have hl : NEWLINE ∉ l := hls l (by simp)
    have hls' : ∀ l ∈ ls, NEWLINE ∉ l := fun l h => hls l (List.mem_cons_of_mem _ h)
    cases ls with
    | nil =>
      simp only [join, List.foldl_cons, List.foldl_nil] at hfuel ⊢
      cases fuel with
      | zero =>
        rw [List.eq_nil_of_length_eq_zero (Nat.le_zero.mp hfuel)]
        rfl
      | succ fuel =>
        have hpass := @parseLoop_line l [] hl (by simp [AtEnd]) fuel m
        rw [List.append_nil] at hpass
        rw [hpass, parseLoop_nil]
    | cons l' ls =>
      simp only [join, List.length_append, List.length_cons] at hfuel
      obtain ⟨n, rfl⟩ : ∃ n, fuel = n + 1 := ⟨fuel - 1, by omega⟩
      rw [join, parseLoop_line hl (atEnd_newline _) n m, List.foldl_cons]
      · split
        · rw [parseLoop_newline]
          exact ih hls' (by omega) _
        · rename_i hne
          have hlen : 0 < l.length := List.length_pos_iff.mpr fun h => hne (by simp [h])
          obtain ⟨k, rfl⟩ : ∃ k, n = k + 1 := ⟨n - 1, by omega⟩
          rw [parseLoop_newline]
          exact ih hls' (by omega) _
      · simp

theorem parseManifest_join {ls : List Bytes} (hls : ∀ l ∈ ls, NEWLINE ∉ l) :
    (parseManifest (join ls)).1 = ls.foldl Named.after Named.empty := parseLoop_join hls (Nat.le_refl _) _

end NovarisOS.Update
