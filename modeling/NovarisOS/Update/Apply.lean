/-
NovarisOS.Update.Apply — the updater, `kernel/update.c`, from the manifest on.

What the network, the heap and the volume answer are arguments: a download is
what `http_get_progress` returned, and for each file that is written there is
whether it could be created, how many bytes the volume stored and whether the
write said so.
-/
import NovarisOS.Lib.Machine
import NovarisOS.Vfs.Basic

namespace NovarisOS.Update

/-- `update_manifest_t`. -/
structure Manifest where
  version : UInt32
  kernelUrl : Bytes
  kernelSize : UInt32
  kernelSum : UInt32
  initrdUrl : Bytes
  initrdSize : UInt32
  initrdSum : UInt32

/-- `valid`, as `parse_manifest` sets it. -/
def Manifest.valid (m : Manifest) : Bool :=
  m.version ≠ 0 && m.kernelUrl ≠ [] && m.initrdUrl ≠ [] && m.kernelSize ≠ 0 && m.initrdSize ≠ 0

def updateFnv1a (data : Bytes) : UInt32 :=
  data.foldl (fun h b => (h ^^^ b.toUInt32) * 16777619) 2166136261

/-! ## Downloading -/

/-- The outcome of `kmalloc` and `http_get_progress`. -/
structure Download where
  memory : Bool
  ok : Bool
  status : Nat
  body : Bytes

def downloadVerified (d : Download) (size sum : UInt32) : Option Bytes :=
  if !d.memory then none
  else if !d.ok || d.status ≠ 200 then none
  else if d.body.length ≠ size.toNat || (sum ≠ 0 && updateFnv1a d.body ≠ sum) then none
  else some d.body

/-! ## `/disk/boot` -/

/-- What a name stands for. -/
inductive Entry where
  | absent
  | directory
  | file (bytes : Bytes)
  deriving DecidableEq

inductive Boot where
  | absent
  | notDirectory
  | dir (kernel initrd version : Entry)
  deriving DecidableEq

/-- The three names in it. -/
inductive Name where
  | kernel
  | initrd
  | version

namespace Boot

def entry : Boot → Name → Entry
  | .dir k _ _, .kernel => k
  | .dir _ i _, .initrd => i
  | .dir _ _ v, .version => v
  | _, _ => .absent

def put : Boot → Name → Bytes → Boot
  | .dir _ i v, .kernel, bytes => .dir (.file bytes) i v
  | .dir k _ v, .initrd, bytes => .dir k (.file bytes) v
  | .dir k i _, .version, bytes => .dir k i (.file bytes)
  | b, _, _ => b

/-- The two images. -/
def images (b : Boot) : Entry × Entry := (b.entry .kernel, b.entry .initrd)

end Boot

/-! ## Writing -/

/-- What the volume does for one file. -/
structure Volume where
  created : Bool
  stored : Nat
  failed : Bool

/-- `vfs_truncate` and `vfs_write` of a node that is a file. -/
def replace (b : Boot) (name : Name) (data : Bytes) (vol : Volume) : Bool × List Boot :=
  let done := min vol.stored data.length
  (!vol.failed && 0 ≤ int32 done && done = data.length,
    [b.put name [], (b.put name []).put name (data.take done)])

def writeFile (b : Boot) (name : Name) (data : Bytes) (vol : Volume) : Bool × List Boot :=
  match b with
  | .dir _ _ _ =>
    match b.entry name with
    | .absent =>
      if vol.created then
        let (ok, points) := replace (b.put name []) name data vol
        (ok, b.put name [] :: points)
      else (false, [])
    | .directory => (false, [])
    | .file _ => replace b name data vol
  | _ => (false, [])

/-- `ku32_to_dec` and a newline. -/
def stamp (version : UInt32) : Bytes :=
  (Nat.toDigits 10 version.toNat).map (fun c => c.toNat.toUInt8) ++ [10]

/-- Everything outside that an attempt meets. -/
structure Attempt where
  manifest : Manifest
  disk : Bool
  kernel : Download
  initrd : Download
  mkdir : Bool
  kernelVolume : Volume
  initrdVolume : Volume
  versionVolume : Volume

/-- The images that were downloaded and verified, when all is well so far. -/
def Attempt.verified (a : Attempt) : Option (Bytes × Bytes) :=
  if !a.manifest.valid || !a.disk then none
  else
    match downloadVerified a.kernel a.manifest.kernelSize a.manifest.kernelSum with
    | none => none
    | some kernel =>
      match downloadVerified a.initrd a.manifest.initrdSize a.manifest.initrdSum with
      | none => none
      | some initrd => some (kernel, initrd)

/-- The directory, made if there is none. -/
def makeBoot (b : Boot) (mkdir : Bool) : List Boot :=
  match b with
  | .absent => if mkdir then [.dir .absent .absent .absent] else []
  | _ => []

def updateApply (b : Boot) (a : Attempt) : Bool × List Boot :=
  match a.verified with
  | none => (false, [])
  | some (kernel, initrd) =>
    let made := makeBoot b a.mkdir
    let b := made.getLastD b
    let (ok, first) := writeFile b .kernel kernel a.kernelVolume
    if !ok then (false, made ++ first)
    else
      let b := first.getLastD b
      let (ok, second) := writeFile b .initrd initrd a.initrdVolume
      if !ok then (false, made ++ first ++ second)
      else
        let b := second.getLastD b
        (true, made ++ first ++ second ++ (writeFile b .version (stamp a.manifest.version) a.versionVolume).2)

end NovarisOS.Update
