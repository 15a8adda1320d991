/-
NovarisOS.Fat32.File — the bytes of a file on the volume: `fat_read_raw`,
`fat_write_raw`, `fat_write`, `fat_truncate` and what they need of the
directory entry, `dirent_update`.

A file's bytes are never cached: a call walks the chain and goes to the
sectors, whole ones in one transfer and parts of one by reading, changing and
writing it.
-/
import NovarisOS.Fat32.Volume
import NovarisOS.Lib.ByteFile
import NovarisOS.Lib.Machine

namespace NovarisOS.Fat32

abbrev SYMLINK_MAGIC_LEN : Nat := 8

/-- `link_off`: a link's target starts behind its header. -/
def linkOff (node : Node) : Nat := if node.kind = .symlink then SYMLINK_MAGIC_LEN else 0

/-! ## The directory entry -/

/-- The date field of an entry. -/
def fdate (t : RtcTime) : Nat :=
  u32 (t.year + 4294967296 - 1980) % 128 * 512 + t.month % 16 * 32 + t.day % 32

/-- The time field of an entry. -/
def ftime (t : RtcTime) : Nat := t.hour % 32 * 2048 + t.minute % 64 * 32 + t.second / 2 % 32

/-- The fields `dirent_update` patches, in the entry at `e`. -/
def direntPatch (v : Vol) (node : Node) (fs : Fs) (sec : Mem) : Mem :=
  let e := node.fsDirentOff
  let t := v.clock fs.ticks
  let sec := (sec.wr16 (e + 20) (node.fsCluster / 65536)).wr16 (e + 26) (node.fsCluster % 65536)
  let sec := if node.kind = .directory then sec
    else sec.wr32 (e + 28) (u32 (node.length + linkOff node))
  ((sec.wr16 (e + 22) (ftime t)).wr16 (e + 24) (fdate t)).wr16 (e + 18) (fdate t)

def direntUpdate (v : Vol) (node : Node) (fs : Fs) : Bool × Node × Fs :=
  if node.fsDirentLba = 0 then (true, node, fs)
  else
    match blockdevRead v node.fsDirentLba 1 (fun _ => 0) 0 fs with
    | (false, _, fs) => (false, node, fs)
    | (true, sec, fs) =>
      match blockdevWrite v node.fsDirentLba 1 (direntPatch v node fs sec)
        { fs with ticks := fs.ticks + 1 } with
      | (ok, fs) => (ok, { node with fsDirty := false }, fs)

/-! ## Reading -/

/-- The loop of `fat_read_raw`, with `done` bytes in the buffer. -/
def readLoop (v : Vol) (head offset size : Nat) : Nat → Nat → Mem → Fs → Nat × Mem × Fs
  | 0, done, buf, fs => (done, buf, fs)
  | fuel + 1, done, buf, fs =>
      if done < size then
        let pos := u32 (offset + done)
        match chainNth v head (pos / v.clusterBytes) fs with
        | (cluster, fs) =>
          if cluster = 0 then (done, buf, fs)
          else
            let within := pos % v.clusterBytes
            let lba := u32 (clusterLba v cluster + within / BLOCK_SECTOR_SIZE)
            let secOff := within % BLOCK_SECTOR_SIZE
            let chunk := min (BLOCK_SECTOR_SIZE - secOff) (size - done)
            if secOff = 0 ∧ chunk = BLOCK_SECTOR_SIZE then
              let want := min ((size - done) / BLOCK_SECTOR_SIZE)
                ((v.clusterBytes - within) / BLOCK_SECTOR_SIZE)
              match blockdevRead v lba want buf done fs with
              | (false, buf, fs) => (done, buf, fs)
              | (true, buf, fs) =>
                readLoop v head offset size fuel (done + want * BLOCK_SECTOR_SIZE) buf fs
            else
              match blockdevRead v lba 1 (fun _ => 0) 0 fs with
              | (false, _, fs) => (done, buf, fs)
              | (true, sec, fs) =>
                readLoop v head offset size fuel (done + chunk)
                  (buf.copyAt done (sec.shift secOff) chunk) fs
      else (done, buf, fs)

/-- `fat_read_raw`: the count, and the buffer it filled. -/
def fatReadRaw (v : Vol) (node : Node) (offset size : Nat) (fs : Fs) : Nat × Mem × Fs :=
  readLoop v node.fsCluster offset size size 0 (fun _ => 0) fs

/-- `fat_read_node`. A count of 2^31 or more is negative as an `int32_t` and
becomes 0. -/
def fatReadNode (v : Vol) (node : Node) (offset size : Nat) (fs : Fs) : Nat × Mem × Fs :=
  if node.kind = .directory then (0, fun _ => 0, fs)
  else if offset ≥ node.length then (0, fun _ => 0, fs)
  else
    let size := if size > node.length - offset then node.length - offset else size
    if size = 0 then (0, fun _ => 0, fs)
    else
      match fatReadRaw v node (u32 (offset + linkOff node)) size fs with
      | (got, buf, fs) => (if got ≥ 2147483648 then 0 else got, buf, fs)

/-! ## Writing -/

/-- The loop of `fat_write_raw`. -/
def writeLoop (v : Vol) (head offset size : Nat) (buffer : Mem) : Nat → Nat → Fs → Nat × Fs
  | 0, done, fs => (done, fs)
  | fuel + 1, done, fs =>
      if done < size then
        let pos := u32 (offset + done)
        match chainNth v head (pos / v.clusterBytes) fs with
        | (cluster, fs) =>
          if cluster = 0 then (done, fs)
          else
            let within := pos % v.clusterBytes
            let lba := u32 (clusterLba v cluster + within / BLOCK_SECTOR_SIZE)
            let secOff := within % BLOCK_SECTOR_SIZE
            let chunk := min (BLOCK_SECTOR_SIZE - secOff) (size - done)
            if secOff = 0 ∧ chunk = BLOCK_SECTOR_SIZE then
              let want := min ((size - done) / BLOCK_SECTOR_SIZE)
                ((v.clusterBytes - within) / BLOCK_SECTOR_SIZE)
              match blockdevWrite v lba want (buffer.shift done) fs with
              | (false, fs) => (done, fs)
              | (true, fs) =>
                writeLoop v head offset size buffer fuel (done + want * BLOCK_SECTOR_SIZE) fs
            else
              match blockdevRead v lba 1 (fun _ => 0) 0 fs with
              | (false, _, fs) => (done, fs)
              | (true, sec, fs) =>
                match blockdevWrite v lba 1 (sec.copyAt secOff (buffer.shift done) chunk) fs with
                | (false, fs) => (done, fs)
                | (true, fs) => writeLoop v head offset size buffer fuel (done + chunk) fs
      else (done, fs)

/-- The clusters `bytes` bytes take, as the source counts them in 32 bits. -/
def clustersFor (v : Vol) (bytes : Nat) : Nat := u32 (bytes + v.clusterBytes - 1) / v.clusterBytes

def fatWriteRaw (v : Vol) (node : Node) (offset size : Nat) (buffer : Mem) (fs : Fs) :
    Except Int Nat × Node × Fs :=
  match ensureChain v node (clustersFor v (u32 (offset + size))) fs with
  | (.error e, node, fs) => (.error e, node, fs)
  | (.ok _, node, fs) =>
    match writeLoop v node.fsCluster offset size buffer size 0 fs with
    | (done, fs) => (.ok done, node, fs)

/-- The copy a mapping works on, after `done` bytes were written. -/
def mirror (node : Node) (offset done : Nat) (buffer : Mem) : Option Mem :=
  node.data.map fun m =>
    if offset < node.capacity then
      m.copyAt offset buffer (if done > node.capacity - offset then node.capacity - offset else done)
    else m

/-- The FAT before the directory entry, which is how every change ends. -/
def commit (v : Vol) (r : Nat) (node : Node) (fs : Fs) : Except Int Nat × Node × Fs :=
  match fatCacheFlush v fs with
  | (false, fs) => (.error EIO, node, fs)
  | (true, fs) =>
    match direntUpdate v node fs with
    | (false, node, fs) => (.error EIO, node, fs)
    | (true, node, fs) => (.ok r, node, fs)

/-- `fat_write`. A count of 2^31 or more is a negative `int32_t`, which it
takes for an error. -/
def fatWrite (v : Vol) (node : Node) (offset size : Nat) (buffer : Mem) (fs : Fs) :
    Except Int Nat × Node × Fs :=
  if node.kind = .directory then (.error EISDIR, node, fs)
  else
    match fatWriteRaw v node (u32 (offset + linkOff node)) size buffer fs with
    | (.error e, node, fs) => (.error e, node, fs)
    | (.ok done, node, fs) =>
      if done = 0 then (.error ENOSPC, node, fs)
      else if done ≥ 2147483648 then (.error (4294967296 - done), node, fs)
      else
        commit v done
          { node with
            length := if u32 (offset + done) > node.length then u32 (offset + done)
              else node.length
            data := mirror node offset done buffer } fs

/-! ## Cutting and growing -/

/-- The loop of `fat_truncate` that zeroes what the old last cluster holds
behind the old end, a sector's worth at a time. -/
def zeroGap (v : Vol) (gapEnd : Nat) : Nat → Nat → Node → Fs → Except Int Unit × Node × Fs
  | 0, _, node, fs => (.ok (), node, fs)
  | fuel + 1, p, node, fs =>
      if p < gapEnd then
        let n := if gapEnd - p > BLOCK_SECTOR_SIZE then BLOCK_SECTOR_SIZE else gapEnd - p
        match fatWriteRaw v node p n (fun _ => 0) fs with
        | (.error _, node, fs) => (.error EIO, node, fs)
        | (.ok _, node, fs) => zeroGap v gapEnd fuel (p + n) node fs
      else (.ok (), node, fs)

/-- The branch of `fat_truncate` for a larger length. -/
def growTo (v : Vol) (node : Node) (raw : Nat) (fs : Fs) : Except Int Unit × Node × Fs :=
  let oldRaw := u32 (node.length + linkOff node)
  match chainLength v node.fsCluster fs with
  | (n, fs) =>
    let oldAllocEnd := u32 (n * v.clusterBytes)
    match ensureChain v node (clustersFor v raw) fs with
    | (.error e, node, fs) => (.error e, node, fs)
    | (.ok _, node, fs) =>
      let gapEnd := if raw < oldAllocEnd then raw else oldAllocEnd
      zeroGap v gapEnd (gapEnd - oldRaw) oldRaw node fs

/-- The branch for a smaller one. -/
def shrinkTo (v : Vol) (node : Node) (raw : Nat) (fs : Fs) : Node × Fs :=
  if clustersFor v raw = 0 then
    ({ node with fsCluster := 0 }, freeChain v node.fsCluster fs)
  else
    match chainNth v node.fsCluster (clustersFor v raw - 1) fs with
    | (last, fs) =>
      if last = 0 then (node, fs)
      else
        match fatGet v last fs with
        | (rest, fs) =>
          if 2 ≤ rest ∧ rest < FAT_BAD then
            match fatSet v last FAT_MASK fs with
            | (_, fs) => (node, freeChain v rest fs)
          else (node, fs)

def fatTruncate (v : Vol) (node : Node) (length : Nat) (fs : Fs) : Except Int Nat × Node × Fs :=
  if node.kind = .directory then (.error EISDIR, node, fs)
  else
    let raw := u32 (length + linkOff node)
    if length > node.length then
      match growTo v node raw fs with
      | (.error e, node, fs) => (.error e, node, fs)
      | (.ok _, node, fs) => commit v 0 { node with length := length } fs
    else if length < node.length then
      match shrinkTo v node raw fs with
      | (node, fs) => commit v 0 { node with length := length } fs
    else commit v 0 { node with length := length } fs

/-! ## The calls on one node -/

def vfsWrite (v : Vol) (node : Node) (offset size : Nat) (buffer : Mem) (fs : Fs) :
    Except Int Nat × Node × Fs :=
  if node.kind = .directory then (.error EISDIR, node, fs)
  else if size = 0 then (.ok 0, node, fs)
  else if u32 (offset + size) < offset then (.error EINVAL, node, fs)
  else fatWrite v node offset size buffer fs

def vfsTruncate (v : Vol) (node : Node) (length : Nat) (fs : Fs) : Except Int Nat × Node × Fs :=
  if node.kind = .directory then (.error EISDIR, node, fs) else fatTruncate v node length fs

inductive FileOp where
  | write (offset size : UInt32) (buffer : Mem)
  | truncate (length : UInt32)
  | read (offset size : UInt32)

inductive FileOut where
  | ret (r : Except Int Nat)
  | bytes (n : Nat) (b : List UInt8)
  deriving DecidableEq

/-- A file open on a volume: its node, and the volume. -/
structure Open where
  node : Node
  fs : Fs

def Open.call (v : Vol) (o : Open) : FileOp → Open × FileOut
  | .write offset size buffer =>
      match vfsWrite v o.node offset.toNat size.toNat buffer o.fs with
      | (r, node, fs) => (⟨node, fs⟩, .ret r)
  | .truncate length =>
      match vfsTruncate v o.node length.toNat o.fs with
      | (r, node, fs) => (⟨node, fs⟩, .ret r)
  | .read offset size =>
      match fatReadNode v o.node offset.toNat size.toNat o.fs with
      | (n, buf, fs) => (⟨o.node, fs⟩, .bytes n (buf.bytes 0 n))

/-- The calls on one file of a volume. -/
def files (v : Vol) : Machine Open FileOp FileOut := ⟨Open.call v⟩

/-- What the calls mean for the file: a write or a truncate that succeeded
changes the bytes, nothing else does, and a read returns the slice the file
has there. -/
def contents : Spec (List UInt8) FileOp FileOut where
  next a op out :=
    match op, out with
    | .write offset size buffer, .ret (.ok n) =>
        if n = 0 then a else ByteFile.write a offset.toNat (buffer.bytes 0 size.toNat)
    | .truncate length, .ret (.ok _) => ByteFile.resize a length.toNat
    | _, _ => a
  Allows a op out :=
    match op with
    | .read offset size =>
        out = .bytes (min size.toNat (a.length - offset.toNat))
          (ByteFile.read a offset.toNat size.toNat)
    | _ => True

instance (a : List UInt8) : (op : FileOp) → (out : FileOut) → Decidable (contents.Allows a op out)
  | .write .., _ => inferInstanceAs (Decidable True)
  | .truncate _, _ => inferInstanceAs (Decidable True)
  | .read .., _ => inferInstanceAs (Decidable (_ = _))

end NovarisOS.Fat32
