import HorizonOs.Keybuild.FatGeometry
import HorizonOs.Lib.Machine

/-!
# The writer with its words and slices checked

`geometry` and `format` once more, each operation on a machine integer and each
access to a slice as the source performs it: one that leaves its range is a fault,
which a checked build answers with a panic. Casts cut a number to their width.
What does not depend on the size of the volume, the names and their entries, is
shared with the plain writer.
-/

namespace HorizonOs.Keybuild.Fat

open HorizonOs.Lib.ByteCodec HorizonOs.Lib.Buffer HorizonOs.Lib.Text HorizonOs.Lib.Machine

set_option autoImplicit false

/-- How the writer stops short. -/
inductive Stop where
  | refused (error : Error)
  | fault
  deriving DecidableEq

namespace Checked

/-! ## Words and slices -/

abbrev add64 (x y : Nat) : Except Stop Nat := checkedAdd .fault 64 x y
abbrev add32 (x y : Nat) : Except Stop Nat := checkedAdd .fault 32 x y
abbrev mul64 (x y : Nat) : Except Stop Nat := checkedMul .fault 64 x y
abbrev sub (x y : Nat) : Except Stop Nat := checkedSub .fault x y

abbrev copy (image : Bytes) (offset : Nat) (bytes : Bytes) : Except Stop Bytes :=
  checkedPut .fault image offset bytes

/-! ## The geometry -/

def fatSizeSectors (totalSectors spc numFats reserved rootDirSectors : Nat) (fatType : FatType) :
    Except Stop Nat := do
  let overhead ← add64 reserved rootDirSectors
  let tmp1 ← sub totalSectors overhead
  let entries ← mul64 256 spc
  let tmp2 ← add64 entries numFats
  let tmp2 := if fatType = .fat32 then tmp2 / 2 else tmp2
  .ok (divCeil tmp1 tmp2)

def fat32Geometry (totalSectors : Nat) : Except Stop Geometry := do
  let spc := fat32Spc totalSectors
  let reserved := 32
  let fatSize ← fatSizeSectors totalSectors spc numFats reserved 0 .fat32
  let fats ← mul64 numFats fatSize
  let overhead ← add64 reserved fats
  let data ← sub totalSectors overhead
  .ok ⟨.fat32, spc, reserved, numFats, 0, 0, fatSize, totalSectors, data / spc⟩

def fat16Geometry (totalSectors spc : Nat) : Except Stop Geometry := do
  let reserved := 1
  let fatSize ← fatSizeSectors totalSectors spc numFats reserved fat16RootDirSectors .fat16
  let fats ← mul64 numFats fatSize
  let front ← add64 reserved fats
  let overhead ← add64 front fat16RootDirSectors
  let data ← sub totalSectors overhead
  .ok ⟨.fat16, spc, reserved, numFats, fat16RootEntries, fat16RootDirSectors, fatSize,
    totalSectors, data / spc⟩

/-- The loop that doubles the cluster size, from 1 to at most 64 sectors. -/
def fat16Search (totalSectors : Nat) : List Nat → Except Stop Geometry
  | [] => do
      let bytes ← mul64 totalSectors sector
      .error (.refused (.espTooSmall bytes))
  | spc :: rest => do
      let geom ← fat16Geometry totalSectors spc
      if geom.clusterCount ≤ 65524 then .ok geom else fat16Search totalSectors rest

def geometry (totalSectors : Nat) : Except Stop Geometry :=
  if 64 * 2048 ≤ totalSectors then fat32Geometry totalSectors
  else fat16Search totalSectors [1, 2, 4, 8, 16, 32, 64]

section Offsets

variable (geom : Geometry)

def clusterBytes : Except Stop Nat := mul64 geom.sectorsPerCluster sector

def rootStartSector : Except Stop Nat := do
  let fats ← mul64 geom.numFats geom.fatSize
  add64 geom.reservedSectors fats

def dataStartSector : Except Stop Nat := do
  let root ← rootStartSector geom
  add64 root geom.rootDirSectors

def clusterOffset (n : Nat) : Except Stop Nat := do
  let start ← dataStartSector geom
  let index ← sub n 2
  let skipped ← mul64 index geom.sectorsPerCluster
  let first ← add64 start skipped
  mul64 first sector

def maxCluster : Except Stop Nat := add64 geom.clusterCount 1

end Offsets

/-! ## The builder -/

def contentSlots (dir : Dir) (isRoot : Bool) : Except Stop Nat := do
  let slots ← dir.names.foldlM (fun sum name => do
    let child ← add64 1 (lfnSlots name)
    add64 sum child) 0
  add64 (if isRoot then 1 else 2) slots

def dirClusters (geom : Geometry) (dir : Dir) (isRoot : Bool) : Except Stop Nat := do
  let slots ← contentSlots dir isRoot
  let bytes ← mul64 slots 32
  let wide ← clusterBytes geom
  .ok (max (divCeil bytes wide) 1)

def linkChain (eoc : Nat) : List Nat → List Nat → Except Stop (List Nat)
  | fat, [] => .ok fat
  | fat, [c] => checkedSet .fault fat c eoc
  | fat, c :: next :: rest => do
      let fat ← checkedSet .fault fat c next
      linkChain eoc fat (next :: rest)

/-- Whether a chain of `n` clusters would run past the last. -/
def isFull (geom : Geometry) (b : Builder) (n : Nat) : Except Stop Bool :=
  if n = 0 then .ok true
  else do
    let stop ← add64 b.nextFree n
    let last ← sub stop 1
    let max ← maxCluster geom
    .ok (max < last)

def allocChain (geom : Geometry) (b : Builder) (n : Nat) : Except Stop (List Nat × Builder) := do
  let full ← isFull geom b n
  if full then
    let used ← sub b.nextFree 2
    let needed ← add64 used n
    .error (.refused (.espFull needed geom.clusterCount))
  else
    -- `n as u32`
    let count := n % 2 ^ 32
    let stop ← add32 b.nextFree count
    let chain := List.range' b.nextFree count
    let fat ← linkChain geom.eoc b.fat chain
    .ok (chain, ⟨b.image, fat, stop⟩)

/-- The loop over the chain, at its cluster `i`. -/
def writeClusters (geom : Geometry) (data : Bytes) : Nat → Bytes → List Nat → Except Stop Bytes
  | _, image, [] => .ok image
  | i, image, c :: chain => do
      let wide ← clusterBytes geom
      let offset ← clusterOffset geom c
      let start ← mul64 i wide
      if data.length ≤ start then .ok image
      else
        let stop ← add64 start wide
        let size ← sub (min stop data.length) start
        let image ← copy image offset (slice data start size)
        writeClusters geom data (i + 1) image chain

def storeDir (geom : Geometry) (b : Builder) (chain : Option (List Nat)) (buf : Bytes) :
    Except Stop Builder :=
  match chain with
  | some chain => do
      let image ← writeClusters geom buf 0 b.image chain
      .ok { b with image := image }
  | none => do
      let root ← rootStartSector geom
      let offset ← mul64 root sector
      let image ← copy b.image offset buf
      .ok { b with image := image }

mutual

def renderChildren (geom : Geometry) (params : Params) (b : Builder) (childDotdot : Nat)
    (plan : List (Bytes × Option String)) (dir : Dir) : Except Stop (Bytes × Builder) := do
  match dir, plan with
  | .cons _ _ node rest, (field, long) :: plan =>
      let (buf, b) ← renderNode geom params b childDotdot field long node
      let (more, b) ← renderChildren geom params b childDotdot plan rest
      .ok (buf ++ more, b)
  | _, _ => .ok ([], b)

def renderNode (geom : Geometry) (params : Params) (b : Builder) (childDotdot : Nat)
    (field : Bytes) (long : Option String) (node : Node) : Except Stop (Bytes × Builder) := do
  match node with
  | .file data =>
      if data = [] then
        .ok (longEntries long field ++ entry field 0 0 attrArchive, b)
      else
        let wide ← clusterBytes geom
        let (chain, b) ← allocChain geom b (divCeil data.length wide)
        let image ← writeClusters geom data 0 b.image chain
        let first ← checkedHead .fault chain
        .ok (longEntries long field ++ entry field first data.length attrArchive,
          { b with image := image })
  | .dir sub =>
      let clusters ← dirClusters geom sub false
      let (chain, b) ← allocChain geom b clusters
      let first ← checkedHead .fault chain
      match planChildren sub with
      | none => .error (.refused .panicked)
      | some plan =>
          let (buf, b) ← renderChildren geom params b first plan sub
          let b ← storeDir geom b (some chain) (openingEntries params false first childDotdot ++ buf)
          .ok (longEntries long field ++ entry field first 0 attrDirectory, b)

end

def renderDir (geom : Geometry) (params : Params) (b : Builder) (chain : Option (List Nat))
    (selfFirst parentFirst : Nat) (isRoot : Bool) (dir : Dir) : Except Stop Builder :=
  match planChildren dir with
  | none => .error (.refused .panicked)
  | some plan => do
      let childDotdot := if isRoot then 0 else selfFirst
      let (buf, b) ← renderChildren geom params b childDotdot plan dir
      storeDir geom b chain (openingEntries params isRoot selfFirst parentFirst ++ buf)

/-! ## The table and the sectors in front -/

def writeFats (geom : Geometry) (b : Builder) : Except Stop Builder := do
  let _ ← mul64 b.fat.length 4
  let bytes := fatBytes geom.fatType b.fat
  let image ← (List.range geom.numFats).foldlM (fun image i => do
    let skipped ← mul64 i geom.fatSize
    let start ← add64 geom.fatStartSector skipped
    let offset ← mul64 start sector
    copy image offset bytes) b.image
  .ok { b with image := image }

def writeBootSector (geom : Geometry) (params : Params) (b : Builder) : Except Stop Builder := do
  let s := bootSector geom params
  let image ← copy b.image 0 s
  let image ← if geom.fatType = .fat32 then copy image (6 * sector) s else .ok image
  .ok { b with image := image }

def fsinfoSector (free nextFree : Nat) : Bytes :=
  let s := List.replicate sector 0
  let s := put s 0 (encodeLE 4 0x41615252)
  let s := put s 484 (encodeLE 4 0x61417272)
  let s := put s 488 (encodeLE 4 free)
  let s := put s 492 (encodeLE 4 nextFree)
  put s 508 (encodeLE 4 0xAA550000)

def writeFsinfo (geom : Geometry) (b : Builder) : Except Stop Builder := do
  let used ← sub b.nextFree 2
  let s := fsinfoSector (geom.clusterCount - used) b.nextFree
  let image ← copy b.image sector s
  let image ← copy image (7 * sector) s
  .ok { b with image := image }

def finish (geom : Geometry) (params : Params) (b : Builder) : Except Stop Bytes := do
  let b ← writeFats geom b
  let b ← writeBootSector geom params b
  let b ← if geom.fatType = .fat32 then writeFsinfo geom b else .ok b
  .ok b.image

def renderRoot (geom : Geometry) (params : Params) (b : Builder) (root : Dir) :
    Except Stop Builder :=
  match geom.fatType with
  | .fat16 => do
      let count ← contentSlots root true
      if geom.rootEntries < count then .error (.refused (.espFull count geom.rootEntries))
      else renderDir geom params b none 0 0 true root
  | .fat32 => do
      let clusters ← dirClusters geom root true
      let (chain, b) ← allocChain geom b clusters
      -- `debug_assert_eq!(chain[0], FAT32_ROOT_CLUSTER)`
      let _ ← checkedHead .fault chain
      renderDir geom params b (some chain) fat32RootCluster 0 true root

/-- The builder's buffers; `vec!` panics at more than `isize::MAX` bytes. -/
def allocate (geom : Geometry) (totalBytes : Nat) : Except Stop Builder := do
  let entries ← add64 geom.clusterCount 2
  if totalBytes < 2 ^ 63 ∧ entries * 4 < 2 ^ 63 then .ok (blank geom totalBytes)
  else .error .fault

def format (totalBytes : Nat) (root : Dir) (params : Params) : Except Stop Bytes :=
  if totalBytes % sector ≠ 0 then .error (.refused (.espTooSmall totalBytes))
  else do
    let geom ← geometry (totalBytes / sector)
    if ¬countAgrees geom then .error (.refused (.espTooSmall totalBytes))
    else
      let b ← allocate geom totalBytes
      let b ← renderRoot geom params b root
      finish geom params b

end Checked

end HorizonOs.Keybuild.Fat
