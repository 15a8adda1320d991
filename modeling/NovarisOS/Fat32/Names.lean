/-
NovarisOS.Fat32.Names — names as a directory stores them: the 8.3 short
name with its two case flags, and the long-name entries in front of it.

A name is the bytes of a C string, without its terminator. An entry is the
32 bytes it has on the disk, as a `Mem` that is 0 behind them.
-/
import NovarisOS.Fat32.Volume

namespace NovarisOS.Fat32

abbrev ATTR_SYSTEM : UInt8 := 0x04
abbrev ATTR_VOLUME_ID : UInt8 := 0x08
abbrev ATTR_DIRECTORY : UInt8 := 0x10
abbrev ATTR_ARCHIVE : UInt8 := 0x20
abbrev ATTR_LFN : UInt8 := 0x0F

/-- The first byte of an entry that was never used, and of a deleted one. -/
abbrev ENTRY_END : UInt8 := 0x00
abbrev ENTRY_FREE : UInt8 := 0xE5

abbrev NT_LOWER_BASE : UInt8 := 0x08
abbrev NT_LOWER_EXT : UInt8 := 0x10

abbrev SPACE : UInt8 := 32
abbrev DOT : UInt8 := 46
abbrev UNDERSCORE : UInt8 := 95
abbrev TILDE : UInt8 := 126

def isUpper (c : UInt8) : Bool := decide (65 ≤ c) && decide (c ≤ 90)
def isLower (c : UInt8) : Bool := decide (97 ≤ c) && decide (c ≤ 122)
def toUpper (c : UInt8) : UInt8 := if isLower c then c - 32 else c
def toLower (c : UInt8) : UInt8 := if isUpper c then c + 32 else c

/-- What DOS allows in a short name beyond letters and digits: the bytes of
`$%'-_@~` and the ten behind it in `short_char_ok`. -/
def shortExtras : List UInt8 :=
  [36, 37, 39, 45, 95, 64, 126, 96, 33, 40, 41, 123, 125, 94, 35, 38]

def shortCharOk (c : UInt8) : Bool :=
  isUpper c || (decide (48 ≤ c) && decide (c ≤ 57)) || shortExtras.contains c

/-- `short_checksum`, over the eleven bytes of a short name. -/
def shortChecksum (short11 : List UInt8) : UInt8 :=
  short11.foldl (fun sum b => (if sum % 2 = 1 then 0x80 else 0) + sum / 2 + b) 0

/-- Where the last dot of a name is. -/
def lastDot : List UInt8 → Option Nat
  | [] => none
  | c :: rest =>
      match lastDot rest with
      | some i => some (i + 1)
      | none => if c = DOT then some 0 else none

/-- `s`, padded with spaces to `n` bytes. -/
def pad (n : Nat) (s : List UInt8) : List UInt8 := s ++ List.replicate (n - s.length) SPACE

/-- `make_short`: the eleven bytes and the case flags, or nothing for a name
that needs long entries. -/
def makeShort (name : List UInt8) : Option (List UInt8 × UInt8) :=
  if name.length = 0 ∨ name.length > 12 then none
  else if name = [DOT] ∨ name = [DOT, DOT] then none
  else if name.count DOT > 1 then none
  else if lastDot name = some 0 then none
  else
    let base := match lastDot name with | none => name | some i => name.take i
    let ext := match lastDot name with | none => [] | some i => name.drop (i + 1)
    if base.length = 0 ∨ base.length > 8 ∨ ext.length > 3 then none
    else if !(base.all fun c => shortCharOk (toUpper c)) then none
    else if !(ext.all fun c => shortCharOk (toUpper c)) then none
    else if base.any isLower && base.any isUpper then none
    else if ext.any isLower && ext.any isUpper then none
    else
      some (pad 8 (base.map toUpper) ++ pad 3 (ext.map toUpper),
        (if base.any isLower then NT_LOWER_BASE else 0) +
          (if ext.any isLower then NT_LOWER_EXT else 0))

/-- What a `char` array reads as: up to its terminator. -/
def cstr (s : List UInt8) : List UInt8 := s.takeWhile (· ≠ 0)

/-- `short_to_name`, as the string it leaves. -/
def shortToName (in11 : List UInt8) (ntflags : UInt8) : List UInt8 :=
  let base := (in11.take 8).takeWhile (· ≠ SPACE)
  let ext := ((in11.drop 8).take 3).takeWhile (· ≠ SPACE)
  let base := if ntflags &&& NT_LOWER_BASE ≠ 0 then base.map toLower else base
  let ext := if ntflags &&& NT_LOWER_EXT ≠ 0 then ext.map toLower else ext
  cstr (base ++ if in11.getD 8 0 ≠ SPACE then DOT :: ext else [])

def lfnSlotsFor (len : Nat) : Nat := (len + 12) / 13

/-- Where the thirteen characters of a long-name entry are. -/
def lfnOffsets : List Nat := [1, 3, 5, 7, 9, 14, 16, 18, 20, 22, 24, 28, 30]

/-! ## Generated short names -/

/-- The loop of `generate_short` that fills `base`. -/
def generatedBase (stem : List UInt8) : List UInt8 :=
  let kept := (((stem.map toUpper).filter fun c => c ≠ SPACE ∧ c ≠ DOT).take 6).map fun c =>
    if shortCharOk c then c else UNDERSCORE
  if kept = [] then [UNDERSCORE] else kept

/-- The loop that fills `ext`. -/
def generatedExt (rest : List UInt8) : List UInt8 :=
  pad 3 ((rest.take 3).map fun c => if shortCharOk (toUpper c) then toUpper c else UNDERSCORE)

/-- The decimal digits of a number that is not 0, lowest first. -/
def digitsRev : Nat → Nat → List UInt8
  | 0, _ => []
  | fuel + 1, v => if v = 0 then [] else UInt8.ofNat (48 + v % 10) :: digitsRev fuel (v / 10)

/-- The tail that makes a generated name unique. -/
def tildeTail (n : Nat) : List UInt8 := TILDE :: (digitsRev 7 n).reverse

/-- The `n`-th short name `generate_short` tries. -/
def generatedShort (name : List UInt8) (n : Nat) : List UInt8 :=
  let base := generatedBase (match lastDot name with | none => name | some i => name.take i)
  let ext := generatedExt (match lastDot name with | none => [] | some i => name.drop (i + 1))
  let tail := tildeTail n
  pad 8 ((base.take (8 - tail.length) ++ tail).take 8) ++ ext

/-! ## Entries -/

/-- `memcpy` of a few bytes to the start of a buffer. -/
def putBytes (m : Mem) (bytes : List UInt8) : Mem :=
  fun i => if i < bytes.length then bytes.getD i 0 else m i

/-- The long-name entry `ord` of `lfnCount`. -/
def lfnEntry (name : List UInt8) (sum : UInt8) (lfnCount ord : Nat) : Mem :=
  let chars := (List.range 13).foldl
    (fun (m : Mem) k =>
      let place := (ord - 1) * 13 + k
      m.wr16 (lfnOffsets.getD k 0)
        (if place < name.length then (name.getD place 0).toNat
          else if place = name.length then 0x0000 else 0xFFFF))
    (fun _ => 0)
  fun i =>
    if i = 0 then UInt8.ofNat (if ord = lfnCount then ord + 0x40 else ord)
    else if i = 11 then ATTR_LFN
    else if i = 12 then 0
    else if i = 13 then sum
    else chars i

/-- The two fields of a time stamp in every place a new entry has them. -/
def stamp (date time : Nat) (m : Mem) : Mem :=
  ((((m.wr16 14 time).wr16 16 date).wr16 18 date).wr16 22 time).wr16 24 date

/-- The short entry of a name. -/
def shortEntry (short11 : List UInt8) (attr ntflags : UInt8) (cluster size date time : Nat) : Mem :=
  let m := putBytes (fun _ => 0) short11
  let m : Mem := fun i => if i = 11 then attr else if i = 12 then ntflags else m i
  stamp date time (((m.wr16 20 (cluster / 65536)).wr16 26 (cluster % 65536)).wr32 28 size)

/-- `.` and `..` of a new directory. -/
def dotEntry (name : List UInt8) (cluster date time : Nat) : Mem :=
  let m := putBytes (fun _ => 0) (pad 11 name)
  let m : Mem := fun i => if i = 11 then ATTR_DIRECTORY else m i
  ((stamp date time m).wr16 20 (cluster / 65536)).wr16 26 (cluster % 65536)

end NovarisOS.Fat32
