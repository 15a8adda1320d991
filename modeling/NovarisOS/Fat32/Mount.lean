/-
NovarisOS.Fat32.Mount — `fat32_mount`, `fat32_sync` and `fat32_unmount`.

`Kernel` is the one volume the kernel can have, `vol`, with the nodes and the
cached FAT sector beside it. `fat32_mount` clears `vol`, fills it from the
boot sector and empties the cached sector; the memo of `chain_nth` is not
among the things it looks at.
-/
import NovarisOS.Fat32.Driver

namespace NovarisOS.Fat32

structure Kernel where
  vol : Vol
  fsinfoLba : Nat
  mounted : Bool
  state : State

/-- A block device: its size, its sectors, and how it will answer. -/
structure Device where
  sectors : Nat
  disk : Nat → Mem
  answers : List Answer

/-! ## Mounting -/

/-- `vol` after `kmemset`, with the device that is being looked at. -/
def noVol (sectors : Nat) (clock : Nat → RtcTime) : Vol where
  sectors := sectors
  sectorsPerCluster := 0
  numFats := 0
  fatSectors := 0
  rootCluster := 0
  fatLba := 0
  dataLba := 0
  totalClusters := 0
  clock := clock

/-- The search of `find_partition`, from entry `i` on. -/
def partitionFrom (mbr : Mem) : Nat → Nat → Option Nat
  | 0, _ => none
  | left + 1, i =>
      let e := 446 + i * 16
      if (mbr (e + 4) = 0x0B ∨ mbr (e + 4) = 0x0C) ∧ mbr.rd32 (e + 8) ≠ 0 ∧ mbr.rd32 (e + 12) ≠ 0 then
        some (mbr.rd32 (e + 8))
      else partitionFrom mbr left (i + 1)

def findPartition (v : Vol) (fs : Fs) : Option Nat × Fs :=
  match blockdevRead v 0 1 (fun _ => 0) 0 fs with
  | (false, _, fs) => (none, fs)
  | (true, mbr, fs) => (if mbr.rd16 510 ≠ 0xAA55 then none else partitionFrom mbr 4 0, fs)

/-- What `read_bpb` refuses before it writes to `vol`. -/
def bpbOk (bs : Mem) : Bool :=
  let spc := (bs 13).toNat
  decide (bs.rd16 510 = 0xAA55) && decide (bs.rd16 11 = BLOCK_SECTOR_SIZE) &&
    decide (spc ≠ 0) && decide (spc ≤ 128) && decide (spc &&& (spc - 1) = 0) &&
    decide ((bs 16).toNat ≠ 0) && decide ((bs 16).toNat ≤ 4) &&
    decide (bs.rd16 17 = 0) && decide (bs.rd16 22 = 0) &&
    decide (bs.rd32 36 ≠ 0) && decide (bs.rd16 14 ≠ 0) && decide (2 ≤ bs.rd32 44)

/-- `read_bpb`: the answer, `vol` and where the FSInfo block is. -/
def readBpb (v : Vol) (lba : Nat) (fs : Fs) : Except Int Unit × Vol × Nat × Fs :=
  match blockdevRead v lba 1 (fun _ => 0) 0 fs with
  | (false, _, fs) => (.error EIO, v, 0, fs)
  | (true, bs, fs) =>
    let total := if bs.rd32 32 ≠ 0 then bs.rd32 32 else bs.rd16 19
    if !bpbOk bs || total == 0 then (.error EINVAL, v, 0, fs)
    else
      let spc := (bs 13).toNat
      let nfats := (bs 16).toNat
      let reserved := bs.rd16 14
      let fatSectors := bs.rd32 36
      let before := u32 (reserved + nfats * fatSectors)
      let fsinfo := if bs.rd16 48 ≠ 0 then u32 (lba + bs.rd16 48) else 0
      let v : Vol := { v with
        sectorsPerCluster := spc
        numFats := nfats
        fatSectors := fatSectors
        rootCluster := bs.rd32 44
        fatLba := u32 (lba + reserved)
        dataLba := u32 (lba + reserved + nfats * fatSectors) }
      if total ≤ before then (.error EINVAL, v, fsinfo, fs)
      else
        let clusters := (total - before) / spc
        if clusters = 0 then (.error EINVAL, v, fsinfo, fs)
        else
          let room := u32 (fatSectors * PER_FAT_SECTOR)
          (.ok (), { v with
            totalClusters := if u32 (clusters + 2) > room then u32 (room + 4294967296 - 2)
              else clusters }, fsinfo, fs)

/-- The hint and the count of the FSInfo block, where they are plausible. -/
def readFsinfo (v : Vol) (lba : Nat) (fs : Fs) : Fs :=
  if lba = 0 then fs
  else
    match blockdevRead v lba 1 (fun _ => 0) 0 fs with
    | (false, _, fs) => fs
    | (true, fi, fs) =>
      if fi.rd32 0 = 0x41615252 ∧ fi.rd32 484 = 0x61417272 then
        { fs with
          freeCount := if fi.rd32 488 ≤ v.totalClusters then fi.rd32 488 else fs.freeCount
          freeHint := if v.has (fi.rd32 492) then fi.rd32 492 else fs.freeHint }
      else fs

/-- The fields that `kmemset` clears, on a new device. -/
def onDevice (dev : Device) (fs : Fs) : Fs :=
  { fs with disk := dev.disk, images := [], answers := dev.answers, freeCount := 0, freeHint := 0 }

/-- The part of `fat32_mount` that looks at the device. -/
def probe (k : Kernel) (dev : Device) : Except Int Unit × Vol × Nat × Fs :=
  let v := noVol dev.sectors k.vol.clock
  match findPartition v (onDevice dev k.state.fs) with
  | (some lba, fs) => readBpb v lba fs
  | (none, fs) => readBpb v 0 fs

/-- `fat32_mount`. `grant` is whether there is memory for the cluster buffer. -/
def fat32Mount (k : Kernel) (dir : Nat) (dev : Device) (grant : Bool) : Except Int Unit × Kernel :=
  if (k.state.nodes dir).kind ≠ .directory then (.error ENOTDIR, k)
  else if (k.state.nodes dir).children ≠ [] then (.error EBUSY, k)
  else if k.mounted then (.error EBUSY, k)
  else
    match probe k dev with
    | (.error e, v, fsinfo, fs) =>
      (.error e, { k with vol := v, fsinfoLba := fsinfo, state := k.state.onDisk fs })
    | (.ok _, v, fsinfo, fs) =>
      if !grant then
        (.error ENOMEM, { k with vol := v, fsinfoLba := fsinfo, state := k.state.onDisk fs })
      else
        let fs := { fs with
          fatCacheLba := 0, fatCacheDirty := false, freeCount := 0xFFFFFFFF, freeHint := 2 }
        let s := (k.state.onDisk fs).set dir { k.state.nodes dir with
          fsCluster := v.rootCluster, populated := false, kind := .directory }
        let s := populate v dir { s with root := dir }
        (.ok (), ⟨v, fsinfo, true, s.onDisk (readFsinfo v fsinfo s.fs)⟩)

/-! ## Unmounting -/

def fat32Sync (k : Kernel) : Bool × Kernel :=
  if !k.mounted then (true, k)
  else
    match fatCacheFlush k.vol k.state.fs with
    | (false, fs) => (false, { k with state := k.state.onDisk fs })
    | (true, fs) =>
      if k.fsinfoLba = 0 then (true, { k with state := k.state.onDisk fs })
      else
        match blockdevRead k.vol k.fsinfoLba 1 (fun _ => 0) 0 fs with
        | (false, _, fs) => (true, { k with state := k.state.onDisk fs })
        | (true, fi, fs) =>
          if fi.rd32 0 = 0x41615252 then
            match blockdevWrite k.vol k.fsinfoLba 1
              ((fi.wr32 488 fs.freeCount).wr32 492 fs.freeHint) fs with
            | (ok, fs) => (ok, { k with state := k.state.onDisk fs })
          else (true, { k with state := k.state.onDisk fs })

/-- The first loop of `drop_subtree`, over the children `cs`. -/
def dropScan (drop : Nat → State → Bool × State) : List Nat → State → Bool × State
  | [], s => (true, s)
  | c :: cs, s =>
      if (s.nodes c).refs ≠ 0 then (false, s)
      else if (s.nodes c).kind = .directory then
        match drop c s with
        | (false, s) => (false, s)
        | (true, s) => dropScan drop cs s
      else dropScan drop cs s

/-- The second loop. -/
def releaseAll : List Nat → State → State
  | [], s => s
  | c :: cs, s => releaseAll cs (nodeRelease c s)

/-- `drop_subtree`, so many levels down. -/
def dropSubtree : Nat → Nat → State → Bool × State
  | 0, _, s => (true, s)
  | levels + 1, dir, s =>
      match dropScan (dropSubtree levels) (s.nodes dir).children s with
      | (false, s) => (false, s)
      | (true, s) =>
        let s := releaseAll (s.nodes dir).children s
        (true, s.set dir { s.nodes dir with children := [] })

/-- A new directory in the place of the mount point. -/
def remakeMountPoint (parent mp : Nat) (s : State) : State :=
  let name := (s.nodes mp).name
  match nodeAlloc (nodeRelease mp (dirRemove parent mp s)) with
  | (none, s) => s
  | (some n, s) =>
    dirAppend parent n (s.set n { blank with inUse := true, name := name, kind := .directory })

def fat32Unmount (k : Kernel) (parent : Nat) : Except Int Unit × Kernel :=
  if !k.mounted then (.error EINVAL, k)
  else if (k.state.nodes k.state.root).refs ≠ 0 then (.error EBUSY, k)
  else
    match dropSubtree (VFS_MAX_BLOCKS * VFS_NODES_PER_BLOCK) k.state.root k.state with
    | (false, s) => (.error EBUSY, { k with state := s })
    | (true, s) =>
      let k := (fat32Sync { k with state := s }).2
      let s := remakeMountPoint parent k.state.root k.state
      (.ok (), ⟨noVol 0 k.vol.clock, 0, false,
        s.onDisk { s.fs with fatCacheLba := 0, fatCacheDirty := false }⟩)

end NovarisOS.Fat32
