/-
NovarisOS.Fat32.Dir — the slots of a directory: `dir_entry_at`,
`dir_entry_put` and the scans over them.

A directory is a chain of clusters full of 32-byte slots, numbered through
the whole chain. Every scan of the source goes from slot 0 until a slot is
not there; here it takes a number of rounds, `Vol.slotRounds`, which is more
than any chain that does not loop has slots. Both failures of `dir_entry_at`
are `none`: no caller tells them apart.
-/
import NovarisOS.Fat32.File
import NovarisOS.Fat32.Names

namespace NovarisOS.Fat32

/-- `dir_pos_t`: the sector of a slot, and where in it. -/
structure Pos where
  lba : Nat
  off : Nat
  deriving DecidableEq

abbrev PER_SECTOR : Nat := BLOCK_SECTOR_SIZE / DIRENT_SIZE

/-- Rounds for a scan of any directory. -/
def Vol.slotRounds (v : Vol) : Nat := v.totalClusters * v.perCluster + 1

def dirEntryAt (v : Vol) (firstCluster index : Nat) (fs : Fs) : Option (Mem × Pos) × Fs :=
  match chainNth v firstCluster (index / v.perCluster) fs with
  | (cluster, fs) =>
    if cluster = 0 then (none, fs)
    else
      let within := index % v.perCluster
      let lba := u32 (clusterLba v cluster + within / PER_SECTOR)
      let off := within % PER_SECTOR * DIRENT_SIZE
      match blockdevRead v lba 1 (fun _ => 0) 0 fs with
      | (false, _, fs) => (none, fs)
      | (true, sec, fs) =>
        (some (Mem.copyAt (fun _ => 0) 0 (sec.shift off) DIRENT_SIZE, ⟨lba, off⟩), fs)

def dirEntryPut (v : Vol) (pos : Pos) (ent : Mem) (fs : Fs) : Bool × Fs :=
  match blockdevRead v pos.lba 1 (fun _ => 0) 0 fs with
  | (false, _, fs) => (false, fs)
  | (true, sec, fs) => blockdevWrite v pos.lba 1 (sec.copyAt pos.off ent DIRENT_SIZE) fs

/-- One slot found and written: the pair of calls every writer makes. -/
def putSlot (v : Vol) (firstCluster index : Nat) (ent : Mem) (fs : Fs) : Option Pos × Fs :=
  match dirEntryAt v firstCluster index fs with
  | (none, fs) => (none, fs)
  | (some (_, pos), fs) =>
    match dirEntryPut v pos ent fs with
    | (false, fs) => (none, fs)
    | (true, fs) => (some pos, fs)

def isLfn (ent : Mem) : Bool := ent 11 &&& ATTR_LFN == ATTR_LFN

/-! ## Room for a name -/

/-- A slot number as an `int32_t`, of which a caller takes no negative one. -/
def slotNumber (i : Nat) : Option Nat := if i < 2147483648 then some i else none

/-- The scan of `dir_find_slots`, `left` slots before the end: the answer, or
the free run the directory ends with. -/
def findRun (v : Vol) (firstCluster count : Nat) : Nat → Nat → Nat → Fs → (Option Nat ⊕ Nat) × Fs
  | 0, _, run, fs => (.inr run, fs)
  | left + 1, i, run, fs =>
      match dirEntryAt v firstCluster i fs with
      | (none, fs) => (.inr run, fs)
      | (some (ent, _), fs) =>
        if ent 0 = ENTRY_END then
          if run + (left + 1) ≥ count then (.inl (slotNumber (i - run)), fs)
          else (.inr (run + (left + 1)), fs)
        else if ent 0 = ENTRY_FREE then
          if run + 1 ≥ count then (.inl (slotNumber (i + 1 - count)), fs)
          else findRun v firstCluster count left (i + 1) (run + 1) fs
        else findRun v firstCluster count left (i + 1) 0 fs

def dirFindSlots (v : Vol) (dir : Node) (count : Nat) (fs : Fs) : Option Nat × Node × Fs :=
  match chainLength v dir.fsCluster fs with
  | (clusters, fs) =>
    let total := u32 (clusters * v.perCluster)
    match findRun v dir.fsCluster count total 0 0 fs with
    | (.inl slot, fs) => (slot, dir, fs)
    | (.inr run, fs) =>
      let add := (count - run + v.perCluster - 1) / v.perCluster
      match ensureChain v dir (u32 (clusters + add)) fs with
      | (.error _, dir, fs) => (none, dir, fs)
      | (.ok _, dir, fs) =>
        match if dir.fsDirty then direntUpdate v dir fs else (true, dir, fs) with
        | (_, dir, fs) => (slotNumber (total - run), dir, fs)

/-! ## Writing a name -/

/-- The loop of `dir_write_entries` over the long entries, from `s` on. -/
def writeLfn (v : Vol) (firstCluster index : Nat) (name : List UInt8) (sum : UInt8)
    (lfnCount : Nat) : Nat → Nat → Fs → Bool × Fs
  | 0, _, fs => (true, fs)
  | left + 1, s, fs =>
      match putSlot v firstCluster (u32 (index + s)) (lfnEntry name sum lfnCount (lfnCount - s)) fs with
      | (none, fs) => (false, fs)
      | (some _, fs) => writeLfn v firstCluster index name sum lfnCount left (s + 1) fs

/-- `dir_write_entries`: where the short entry is, or nothing. -/
def dirWriteEntries (v : Vol) (firstCluster index : Nat) (name short11 : List UInt8)
    (ntflags attr : UInt8) (cluster size lfnCount : Nat) (fs : Fs) : Option Pos × Fs :=
  match writeLfn v firstCluster index name (shortChecksum short11) lfnCount lfnCount 0 fs with
  | (false, fs) => (none, fs)
  | (true, fs) =>
    let t := v.clock fs.ticks
    putSlot v firstCluster (u32 (index + lfnCount))
      (shortEntry short11 attr ntflags cluster size (fdate t) (ftime t))
      { fs with ticks := fs.ticks + 1 }

/-! ## Short names -/

def takenFrom (v : Vol) (firstCluster : Nat) (short11 : List UInt8) : Nat → Nat → Fs → Bool × Fs
  | 0, _, fs => (false, fs)
  | left + 1, i, fs =>
      match dirEntryAt v firstCluster i fs with
      | (none, fs) => (false, fs)
      | (some (ent, _), fs) =>
        if ent 0 = ENTRY_END then (false, fs)
        else if ent 0 ≠ ENTRY_FREE ∧ isLfn ent = false ∧ ent.bytes 0 11 = short11 then (true, fs)
        else takenFrom v firstCluster short11 left (i + 1) fs

def shortNameTaken (v : Vol) (firstCluster : Nat) (short11 : List UInt8) (fs : Fs) : Bool × Fs :=
  takenFrom v firstCluster short11 v.slotRounds 0 fs

/-- The loop of `generate_short`, from `n` on. -/
def generateFrom (v : Vol) (firstCluster : Nat) (name : List UInt8) :
    Nat → Nat → Fs → Option (List UInt8) × Fs
  | 0, _, fs => (none, fs)
  | left + 1, n, fs =>
      match shortNameTaken v firstCluster (generatedShort name n) fs with
      | (false, fs) => (some (generatedShort name n), fs)
      | (true, fs) => generateFrom v firstCluster name left (n + 1) fs

def generateShort (v : Vol) (firstCluster : Nat) (name : List UInt8) (fs : Fs) :
    Option (List UInt8) × Fs :=
  generateFrom v firstCluster name 999999 1 fs

/-- A generated short name, which needs the long entries. -/
def chooseGenerated (v : Vol) (firstCluster : Nat) (name : List UInt8) (fs : Fs) :
    Option (List UInt8 × UInt8 × Nat) × Fs :=
  match generateShort v firstCluster name fs with
  | (none, fs) => (none, fs)
  | (some short11, fs) => (some (short11, 0, lfnSlotsFor name.length), fs)

/-- The choice `fat_create` and `fat_rename` make: the short name, its case
flags and the number of long entries. -/
def chooseShort (v : Vol) (firstCluster : Nat) (name : List UInt8) (fs : Fs) :
    Option (List UInt8 × UInt8 × Nat) × Fs :=
  match makeShort name with
  | none => chooseGenerated v firstCluster name fs
  | some (short11, ntflags) =>
    match shortNameTaken v firstCluster short11 fs with
    | (false, fs) => (some (short11, ntflags, 0), fs)
    | (true, fs) => chooseGenerated v firstCluster name fs

/-! ## Deleting a name -/

/-- The inner loop of `dir_free_entries`. -/
def freeSlots (v : Vol) (firstCluster : Nat) : Nat → Nat → Fs → Except Int Unit × Fs
  | 0, _, fs => (.ok (), fs)
  | left + 1, k, fs =>
      match dirEntryAt v firstCluster k fs with
      | (none, fs) => (.error EIO, fs)
      | (some (ent, pos), fs) =>
        match dirEntryPut v pos (Function.update ent 0 ENTRY_FREE) fs with
        | (false, fs) => (.error EIO, fs)
        | (true, fs) => freeSlots v firstCluster left (k + 1) fs

/-! ## Reading a directory -/

/-- The long name being put together by `populate`. -/
structure Lfn where
  text : Mem
  len : Nat
  count : Nat
  sum : UInt8

/-- What `populate` makes of a short entry. -/
structure DirEntry where
  name : List UInt8
  attr : UInt8
  cluster : Nat
  size : Nat
  slots : Nat

/-- The inner loop of `populate` over the characters `ks` of a long entry. -/
def lfnChars (ent : Mem) (base : Nat) : List Nat → Lfn → Lfn
  | [], lfn => lfn
  | k :: ks, lfn =>
      let ch := ent.rd16 (lfnOffsets.getD k 0)
      if ch = 0x0000 ∨ ch = 0xFFFF then
        { lfn with len := if base + k < lfn.len then base + k else lfn.len }
      else
        lfnChars ent base ks
          (if base + k < VFS_NAME_MAX - 1 then
            { lfn with
              text := Function.update lfn.text (base + k)
                (if ch < 0x80 then UInt8.ofNat ch else 63) }
          else lfn)

/-- A long-name entry. -/
def lfnStep (lfn : Lfn) (ent : Mem) : Lfn :=
  let ord := (ent 0).toNat % 64
  let first := decide (ent 0 &&& 0x40 ≠ 0)
  if first && (decide (ord = 0) || decide (ord > 20)) then { lfn with count := 0 }
  else
    let lfn : Lfn := if first then ⟨fun _ => 0, ord * 13, ord, ent 13⟩ else lfn
    if lfn.count = 0 ∨ ord = 0 ∨ ord > lfn.count then { lfn with count := 0 }
    else if ent 13 ≠ lfn.sum then { lfn with count := 0 }
    else lfnChars ent ((ord - 1) * 13) (List.range 13) lfn

/-- The name and the slots of a short entry, with the long name in front of
it where that is one of its own and fits. -/
def entryName (lfn : Lfn) (ent : Mem) : List UInt8 × Nat :=
  if lfn.count ≠ 0 ∧ lfn.len < VFS_NAME_MAX ∧ shortChecksum (ent.bytes 0 11) = lfn.sum then
    (cstr (lfn.text.bytes 0 lfn.len), lfn.count + 1)
  else (shortToName (ent.bytes 0 11) (ent 12), 1)

/-- One round of `populate` on a slot that does not end the directory: the
long name so far, and the entry that makes a node. -/
def entryStep (lfn : Lfn) (ent : Mem) : Lfn × Option DirEntry :=
  if ent 0 = ENTRY_FREE then ({ lfn with count := 0 }, none)
  else if isLfn ent then (lfnStep lfn ent, none)
  else if ent 11 &&& ATTR_VOLUME_ID ≠ 0 then ({ lfn with count := 0 }, none)
  else
    let (name, slots) := entryName lfn ent
    if name = [] ∨ name = [DOT] ∨ name = [DOT, DOT] then ({ lfn with count := 0 }, none)
    else
      ({ lfn with count := 0 },
        some ⟨name, ent 11, ent.rd16 20 * 65536 + ent.rd16 26, ent.rd32 28, slots⟩)

/-- `NVSYMLNK`, which a link's bytes start with. -/
def SYMLINK_MAGIC : List UInt8 := [78, 86, 83, 89, 77, 76, 78, 75]

def looksLikeSymlink (v : Vol) (cluster size : Nat) (fs : Fs) : Bool × Fs :=
  if cluster < 2 then (false, fs)
  else if size ≤ SYMLINK_MAGIC_LEN ∨ size > SYMLINK_MAGIC_LEN + VFS_SYMLINK_MAX then (false, fs)
  else
    match blockdevRead v (clusterLba v cluster) 1 (fun _ => 0) 0 fs with
    | (false, _, fs) => (false, fs)
    | (true, sec, fs) => (sec.bytes 0 SYMLINK_MAGIC_LEN == SYMLINK_MAGIC, fs)

/-- The kind and the length `populate` gives an entry. -/
def entryKind (v : Vol) (e : DirEntry) (fs : Fs) : Kind × Nat × Fs :=
  if e.attr &&& ATTR_DIRECTORY ≠ 0 then (.directory, 0, fs)
  else if e.attr &&& ATTR_SYSTEM ≠ 0 then
    match looksLikeSymlink v e.cluster e.size fs with
    | (true, fs) => (.symlink, e.size - SYMLINK_MAGIC_LEN, fs)
    | (false, fs) => (.file, e.size, fs)
  else (.file, e.size, fs)

end NovarisOS.Fat32
