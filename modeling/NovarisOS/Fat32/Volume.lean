/-
NovarisOS.Fat32.Volume — the device, the cached FAT sector and the cluster
chains of `kernel/fat32.c`, over `kernel/blockdev.c`.

`Vol` is what `fat32_mount` works out once: the fields of `fat_vol_t` that
nothing changes afterwards, the size of the device and the clock. `Fs` is
what does change: the sectors, the one cached FAT sector, the memo of
`chain_nth`, the free hint and the free count.
-/
import NovarisOS.Lib.Bytes
import NovarisOS.Vfs.Basic

namespace NovarisOS.Fat32

abbrev BLOCK_SECTOR_SIZE : Nat := 512
abbrev DIRENT_SIZE : Nat := 32

/-- At or above this, the end of a chain. -/
abbrev FAT_EOC : Nat := 0x0FFFFFF8
abbrev FAT_BAD : Nat := 0x0FFFFFF7
abbrev FAT_MASK : Nat := 0x0FFFFFFF

structure RtcTime where
  year : Nat
  month : Nat
  day : Nat
  hour : Nat
  minute : Nat
  second : Nat

/-- `fat_vol_t` as mounted, with the device's size and the clock. -/
structure Vol where
  sectors : Nat
  sectorsPerCluster : Nat
  numFats : Nat
  fatSectors : Nat
  rootCluster : Nat
  fatLba : Nat
  dataLba : Nat
  totalClusters : Nat
  clock : Nat → RtcTime

def Vol.clusterBytes (v : Vol) : Nat := v.sectorsPerCluster * BLOCK_SECTOR_SIZE

/-- Entries of a FAT sector, and directory entries of a cluster. -/
abbrev PER_FAT_SECTOR : Nat := 128

def Vol.perCluster (v : Vol) : Nat := BLOCK_SECTOR_SIZE / DIRENT_SIZE * v.sectorsPerCluster

/-- How the device answers a request. -/
inductive Answer where
  | done
  | failed (junk : Mem)

structure Fs where
  disk : Nat → Mem
  images : List (Nat → Mem)
  answers : List Answer
  fatCache : Mem
  fatCacheLba : Nat
  fatCacheDirty : Bool
  memoFirst : Nat
  memoIndex : Nat
  memoCluster : Nat
  freeHint : Nat
  freeCount : Nat
  ticks : Nat

/-! ## `kernel/blockdev.c` -/

def inRange (v : Vol) (lba count : Nat) : Bool :=
  count ≠ 0 && decide (lba < v.sectors) && decide (count ≤ v.sectors - lba)

/-- The bytes from the start of sector `lba` on. -/
def Fs.sectorsFrom (fs : Fs) (lba : Nat) : Mem :=
  fun i => fs.disk (lba + i / BLOCK_SECTOR_SIZE) (i % BLOCK_SECTOR_SIZE)

def Fs.putSector (fs : Fs) (lba : Nat) (buf : Mem) : Fs :=
  { fs with disk := Function.update fs.disk lba buf, images := fs.disk :: fs.images }

def Fs.putSectors : Nat → Nat → Mem → Fs → Fs
  | 0, _, _, fs => fs
  | count + 1, lba, buf, fs =>
      Fs.putSectors count (lba + 1) (buf.shift BLOCK_SECTOR_SIZE) (fs.putSector lba buf)

/-- `blockdev_read` into `buf + off`. -/
def blockdevRead (v : Vol) (lba count : Nat) (buf : Mem) (off : Nat) (fs : Fs) : Bool × Mem × Fs :=
  if !inRange v lba count then (false, buf, fs)
  else
    match fs.answers with
    | .failed junk :: rest =>
        (false, buf.copyAt off junk (count * BLOCK_SECTOR_SIZE), { fs with answers := rest })
    | .done :: rest =>
        (true, buf.copyAt off (fs.sectorsFrom lba) (count * BLOCK_SECTOR_SIZE),
          { fs with answers := rest })
    | [] => (true, buf.copyAt off (fs.sectorsFrom lba) (count * BLOCK_SECTOR_SIZE), fs)

def blockdevWrite (v : Vol) (lba count : Nat) (buf : Mem) (fs : Fs) : Bool × Fs :=
  if !inRange v lba count then (false, fs)
  else
    match fs.answers with
    | .failed _ :: rest => (false, { fs with answers := rest })
    | .done :: rest => (true, Fs.putSectors count lba buf { fs with answers := rest })
    | [] => (true, Fs.putSectors count lba buf fs)

/-! ## The FAT -/

/-- The copies of the cached sector, from the `i`-th on. -/
def flushCopies (v : Vol) : Nat → Nat → Fs → Bool × Fs
  | 0, _, fs => (true, fs)
  | left + 1, i, fs =>
      match blockdevWrite v (fs.fatCacheLba + i * v.fatSectors) 1 fs.fatCache fs with
      | (false, fs) => (false, fs)
      | (true, fs) => flushCopies v left (i + 1) fs

def fatCacheFlush (v : Vol) (fs : Fs) : Bool × Fs :=
  if !fs.fatCacheDirty || fs.fatCacheLba == 0 then (true, fs)
  else
    match flushCopies v v.numFats 0 fs with
    | (false, fs) => (false, fs)
    | (true, fs) => (true, { fs with fatCacheDirty := false })

def fatCacheLoad (v : Vol) (cluster : Nat) (fs : Fs) : Bool × Fs :=
  if v.fatLba + cluster / PER_FAT_SECTOR = fs.fatCacheLba then (true, fs)
  else
    match fatCacheFlush v fs with
    | (false, fs) => (false, fs)
    | (true, fs) =>
      match blockdevRead v (v.fatLba + cluster / PER_FAT_SECTOR) 1 fs.fatCache 0 fs with
      | (false, buf, fs) => (false, { fs with fatCache := buf })
      | (true, buf, fs) =>
        (true, { fs with
          fatCache := buf
          fatCacheLba := v.fatLba + cluster / PER_FAT_SECTOR })

/-- `cluster < 2 || cluster >= vol.total_clusters + 2` is false. -/
def Vol.has (v : Vol) (cluster : Nat) : Bool :=
  decide (2 ≤ cluster) && decide (cluster < v.totalClusters + 2)

def fatGet (v : Vol) (cluster : Nat) (fs : Fs) : Nat × Fs :=
  if !v.has cluster then (FAT_EOC, fs)
  else
    match fatCacheLoad v cluster fs with
    | (false, fs) => (FAT_EOC, fs)
    | (true, fs) =>
      (fs.fatCache.rd32 (cluster % PER_FAT_SECTOR * 4) % 268435456, fs)

def chainMemoForget (fs : Fs) : Fs :=
  { fs with memoFirst := 0, memoIndex := 0, memoCluster := 0 }

/-- `fat_set`. The top four bits of an entry stay as they were found. -/
def fatSet (v : Vol) (cluster value : Nat) (fs : Fs) : Bool × Fs :=
  if !v.has cluster then (false, fs)
  else
    match fatCacheLoad v cluster
      (if value = 0 ∨ value = FAT_MASK then chainMemoForget fs else fs) with
    | (false, fs) => (false, fs)
    | (true, fs) =>
      let off := cluster % PER_FAT_SECTOR * 4
      let keep := fs.fatCache.rd32 off / 268435456 * 268435456
      (true, { fs with
        fatCache := fs.fatCache.wr32 off (keep + value % 268435456)
        fatCacheDirty := true })

def clusterLba (v : Vol) (cluster : Nat) : Nat :=
  u32 (v.dataLba + (cluster - 2) * v.sectorsPerCluster)

/-- The hint and the count after `c` was taken. -/
def took (c : Nat) (fs : Fs) : Fs :=
  { fs with
    freeHint := c + 1
    freeCount := if fs.freeCount ≠ 0xFFFFFFFF ∧ fs.freeCount ≠ 0 then fs.freeCount - 1
      else fs.freeCount }

/-- One pass of `alloc_cluster` over `left` clusters from `c` on. `none` is
a pass that found nothing. -/
def allocScan (v : Vol) (prev : Nat) : Nat → Nat → Fs → Option Nat × Fs
  | 0, _, fs => (none, fs)
  | left + 1, c, fs =>
      match fatGet v c fs with
      | (e, fs) =>
        if e ≠ 0 then allocScan v prev left (c + 1) fs
        else
          match fatSet v c FAT_MASK fs with
          | (false, fs) => (some 0, fs)
          | (true, fs) =>
            if prev = 0 then (some c, took c fs)
            else
              match fatSet v prev c fs with
              | (false, fs) => (some 0, fs)
              | (true, fs) => (some c, took c fs)

/-- `alloc_cluster`: 0 is a full volume. -/
def allocCluster (v : Vol) (prev : Nat) (fs : Fs) : Nat × Fs :=
  let start := if fs.freeHint < 2 then 2 else fs.freeHint
  match allocScan v prev (v.totalClusters + 2 - start) start fs with
  | (some c, fs) => (c, fs)
  | (none, fs) =>
    match allocScan v prev (start - 2) 2 fs with
    | (some c, fs) => (c, fs)
    | (none, fs) => (0, fs)

def zeroCluster (v : Vol) (cluster : Nat) (fs : Fs) : Bool × Fs :=
  blockdevWrite v (clusterLba v cluster) v.sectorsPerCluster (fun _ => 0) fs

/-- The loop of `free_chain`. -/
def freeLoop (v : Vol) : Nat → Nat → Fs → Fs
  | 0, _, fs => fs
  | fuel + 1, cluster, fs =>
      if 2 ≤ cluster ∧ cluster < FAT_BAD then
        match fatGet v cluster fs with
        | (next, fs) =>
          match fatSet v cluster 0 fs with
          | (false, fs) => fs
          | (true, fs) =>
            freeLoop v fuel next { fs with
              freeCount := if fs.freeCount ≠ 0xFFFFFFFF then fs.freeCount + 1 else fs.freeCount
              freeHint := if cluster < fs.freeHint then cluster else fs.freeHint }
      else fs

/-- `free_chain`. Every round but the last two clears an entry that was not
0, and there are `totalClusters` of them. -/
def freeChain (v : Vol) (cluster : Nat) (fs : Fs) : Fs :=
  freeLoop v (v.totalClusters + 2) cluster fs

/-! ## Chains -/

/-- `left` links from `cur` on. -/
def chainStep (v : Vol) : Nat → Nat → Fs → Option Nat × Fs
  | 0, cur, fs => (some cur, fs)
  | left + 1, cur, fs =>
      match fatGet v cur fs with
      | (next, fs) =>
        if next < 2 ∨ next ≥ FAT_BAD then (none, fs) else chainStep v left next fs

/-- `chain_nth`, from the memo where it helps. -/
def chainNth (v : Vol) (first index : Nat) (fs : Fs) : Nat × Fs :=
  if first < 2 then (0, fs)
  else
    let memo := decide (2 ≤ fs.memoCluster) && fs.memoFirst == first &&
      decide (fs.memoIndex ≤ index)
    let cur := if memo then fs.memoCluster else first
    let i := if memo then fs.memoIndex else 0
    match chainStep v (index - i) cur fs with
    | (none, fs) => (0, fs)
    | (some cur, fs) =>
      (cur, { fs with memoFirst := first, memoIndex := index, memoCluster := cur })

/-- The loop of `chain_length`, which the source stops after
`total_clusters + 1` rounds. -/
def chainCount (v : Vol) : Nat → Nat → Nat → Fs → Nat × Fs
  | 0, n, _, fs => (n, fs)
  | left + 1, n, cur, fs =>
      if 2 ≤ cur ∧ cur < FAT_BAD then
        match fatGet v cur fs with
        | (next, fs) => chainCount v left (n + 1) next fs
      else (n, fs)

def chainLength (v : Vol) (first : Nat) (fs : Fs) : Nat × Fs :=
  if first < 2 then (0, fs) else chainCount v (v.totalClusters + 1) 0 first fs

/-! ## Nodes -/

/-- The fields of `vfs_node_t` a FAT node uses. The sibling links are the
list `children` of the directory. -/
structure Node where
  name : List UInt8
  kind : Kind
  length : Nat
  data : Option Mem
  capacity : Nat
  inUse : Bool
  refs : Nat
  unlinked : Bool
  fsCluster : Nat
  fsDirentLba : Nat
  fsDirentOff : Nat
  fsSlots : Nat
  populated : Bool
  fsDirty : Bool
  children : List Nat

/-- `had - 1`, of a `uint32_t`. -/
def lastOf (had : Nat) : Nat := if had = 0 then 4294967295 else had - 1

/-- The block of `ensure_chain` that goes back to what was there before. -/
def rollback (v : Vol) (headWas had : Nat) (node : Node) (fs : Fs) : Node × Fs :=
  if headWas < 2 then
    ({ node with fsCluster := headWas, fsDirty := true }, freeChain v node.fsCluster fs)
  else
    match chainNth v headWas (lastOf had) fs with
    | (keep, fs) =>
      if keep = 0 then (node, fs)
      else
        match fatGet v keep fs with
        | (rest, fs) =>
          match fatSet v keep FAT_MASK fs with
          | (_, fs) => (node, if 2 ≤ rest ∧ rest < FAT_BAD then freeChain v rest fs else fs)

/-- The loop of `ensure_chain`. -/
def growChain (v : Vol) (headWas had : Nat) (node : Node) :
    Nat → Nat → Fs → Except Int Unit × Node × Fs
  | 0, _, fs => (.ok (), node, fs)
  | left + 1, cur, fs =>
      match allocCluster v cur fs with
      | (next, fs) =>
        match if next = 0 then (false, fs) else zeroCluster v next fs with
        | (true, fs) => growChain v headWas had node left next fs
        | (false, fs) =>
          match rollback v headWas had node fs with
          | (node, fs) => (.error ENOSPC, node, fs)

/-- The extension of a chain of `had` clusters. -/
def extendChain (v : Vol) (headWas had need : Nat) (node : Node) (fs : Fs) :
    Except Int Unit × Node × Fs :=
  match chainNth v node.fsCluster (lastOf had) fs with
  | (cur, fs) =>
    if cur = 0 then (.error EIO, node, fs)
    else growChain v headWas had node (need - had) cur fs

def ensureChain (v : Vol) (node : Node) (need : Nat) (fs : Fs) : Except Int Unit × Node × Fs :=
  if need = 0 then (.ok (), node, fs)
  else
    match chainLength v node.fsCluster fs with
    | (had, fs) =>
      if had ≥ need then (.ok (), node, fs)
      else if node.fsCluster < 2 then
        match allocCluster v 0 fs with
        | (first, fs) =>
          if first = 0 then (.error ENOSPC, node, fs)
          else
            match zeroCluster v first fs with
            | (false, fs) => (.error EIO, node, freeChain v first fs)
            | (true, fs) =>
              extendChain v node.fsCluster 1 need
                { node with fsCluster := first, fsDirty := true } fs
      else extendChain v node.fsCluster had need node fs

end NovarisOS.Fat32
