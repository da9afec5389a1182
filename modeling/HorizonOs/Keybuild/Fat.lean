import HorizonOs.Keybuild.FatNames

/-!
# Laying a tree into a FAT volume

The geometry of a volume from its size, and the builder that hands out clusters,
writes files and directories into them and serializes the allocation table. Sector
and cluster numbers are natural numbers; a number written to a field of the volume
is cut to the field's width, as the source's casts cut it.
-/

namespace HorizonOs.Keybuild.Fat

open HorizonOs.Lib.ByteCodec HorizonOs.Lib.Buffer HorizonOs.Lib.Text

set_option autoImplicit false

def sector : Nat := 512
def media : UInt8 := 0xF8
def fat16RootEntries : Nat := 512
def fat32RootCluster : Nat := 2

inductive FatType where
  | fat16
  | fat32
  deriving DecidableEq

structure Params where
  oemName : FixedBytes 8
  volumeLabel : FixedBytes 11
  volumeId : Nat

/-- A label cut to 11 bytes, in upper case, padded with spaces. -/
def labelField (label : String) : FixedBytes 11 :=
  FixedBytes.ofBytes 11
    (((utf8 label).take 11).map (fun b => if 0x61 ≤ b ∧ b ≤ 0x7A then b - 0x20 else b) ++
      List.replicate 11 0x20)

def Params.forLabel (sha256 : Bytes → FixedBytes 32) (label : String) : Params where
  oemName := FixedBytes.ofBytes 8 (utf8 "HORIZON ")
  volumeLabel := labelField label
  volumeId := decodeLE ((sha256 (utf8 "horizon-fat:" ++ utf8 label)).bytes.take 4)

inductive Error where
  | badName (name : String)
  | espFull (needed available : Nat)
  | espTooSmall (bytes : Nat)
  | panicked
  deriving DecidableEq

/-! ## The tree -/

mutual

/-- A file with its bytes, or a directory. -/
inductive Node where
  | file (data : Bytes)
  | dir (entries : Dir)

/-- The map of a directory in the order of its keys, the names in upper case; beside each
the name as it was requested. -/
inductive Dir where
  | nil
  | cons (key name : String) (node : Node) (rest : Dir)

end

def Dir.find (key : String) : Dir → Option Node
  | .nil => none
  | .cons other _ node rest => if key = other then some node else rest.find key

/-- Insert or replace; a replaced child keeps its place. -/
def Dir.insert (key name : String) (node : Node) : Dir → Dir
  | .nil => .cons key name node .nil
  | .cons other otherName otherNode rest =>
      if key = other then .cons key name node rest
      else if key < other then .cons key name node (.cons other otherName otherNode rest)
      else .cons other otherName otherNode (rest.insert key name node)

/-- Replace the node of a key that is there, its name as it is. -/
def Dir.setNode (key : String) (node : Node) : Dir → Dir
  | .nil => .nil
  | .cons other name old rest =>
      if key = other then .cons other name node rest
      else .cons other name old (rest.setNode key node)

def Dir.names : Dir → List String
  | .nil => []
  | .cons _ name _ rest => name :: rest.names

def keyOf (name : String) : String := String.ofList (upper name)

/-- Descend into the directories of a path, making those that are missing, and act on the
last one. What was made before an error stays. -/
def Dir.within (act : Dir → Dir × Except Error Unit) : List String → Dir → Dir × Except Error Unit
  | [], dir => act dir
  | name :: path, dir =>
      if ¬validateName name then (dir, .error (.badName name))
      else
        match dir.find (keyOf name) with
        | none =>
            let (sub, done) := Dir.within act path .nil
            (dir.insert (keyOf name) name (.dir sub), done)
        | some (.dir sub) =>
            let (sub, done) := Dir.within act path sub
            (dir.setNode (keyOf name) (.dir sub), done)
        | some (.file _) => (dir, .error (.badName name))

/-- `path.split('/')` without the empty parts. -/
def components (path : String) : List String :=
  ((path.toList.splitOn '/').filter (· ≠ [])).map String.ofList

def Dir.insertFile (dir : Dir) (path : String) (data : Bytes) : Dir × Except Error Unit :=
  match (components path).getLast? with
  | none => (dir, .error (.badName path))
  | some file =>
      Dir.within (fun last =>
        if ¬validateName file then (last, .error (.badName file))
        else (last.insert (keyOf file) file (.file data), .ok ())) (components path).dropLast dir

def Dir.mkdir (dir : Dir) (path : String) : Dir × Except Error Unit :=
  Dir.within (fun last => (last, .ok ())) (components path) dir

/-! ## The geometry -/

structure Geometry where
  fatType : FatType
  sectorsPerCluster : Nat
  reservedSectors : Nat
  numFats : Nat
  rootEntries : Nat
  rootDirSectors : Nat
  fatSize : Nat
  totalSectors : Nat
  clusterCount : Nat
  deriving DecidableEq

namespace Geometry

variable (geom : Geometry)

def clusterBytes : Nat := geom.sectorsPerCluster * sector

def fatStartSector : Nat := geom.reservedSectors

def rootStartSector : Nat := geom.reservedSectors + geom.numFats * geom.fatSize

def dataStartSector : Nat := geom.rootStartSector + geom.rootDirSectors

/-- The byte offset of a cluster; the first has number 2. -/
def clusterOffset (n : Nat) : Nat :=
  (geom.dataStartSector + (n - 2) * geom.sectorsPerCluster) * sector

def maxCluster : Nat := geom.clusterCount + 1

def eoc : Nat :=
  match geom.fatType with
  | .fat16 => 0xFFFF
  | .fat32 => 0x0FFFFFFF

end Geometry

/-- Sectors per cluster by the volume's size in MiB. -/
def fat32Spc (totalSectors : Nat) : Nat :=
  let mib := totalSectors / 2048
  if mib ≤ 256 then 1 else if mib ≤ 512 then 2 else 8

/-- The formula for the sectors of one FAT copy. -/
def fatSizeSectors (totalSectors spc numFats reserved rootDirSectors : Nat) (fatType : FatType) :
    Nat :=
  let tmp1 := totalSectors - (reserved + rootDirSectors)
  let tmp2 := 256 * spc + numFats
  let tmp2 := if fatType = .fat32 then tmp2 / 2 else tmp2
  (tmp1 + (tmp2 - 1)) / tmp2

def numFats : Nat := 2

def fat32Geometry (totalSectors : Nat) : Geometry :=
  let spc := fat32Spc totalSectors
  let reserved := 32
  let fatSize := fatSizeSectors totalSectors spc numFats reserved 0 .fat32
  let clusterCount := (totalSectors - (reserved + numFats * fatSize)) / spc
  ⟨.fat32, spc, reserved, numFats, 0, 0, fatSize, totalSectors, clusterCount⟩

def fat16RootDirSectors : Nat := fat16RootEntries * 32 / sector

def fat16Geometry (totalSectors spc : Nat) : Geometry :=
  let reserved := 1
  let fatSize := fatSizeSectors totalSectors spc numFats reserved fat16RootDirSectors .fat16
  let clusterCount :=
    (totalSectors - (reserved + numFats * fatSize + fat16RootDirSectors)) / spc
  ⟨.fat16, spc, reserved, numFats, fat16RootEntries, fat16RootDirSectors, fatSize, totalSectors,
    clusterCount⟩

/-- The loop that doubles the cluster size, from 1 to at most 64 sectors. -/
def fat16Search (totalSectors : Nat) : List Nat → Except Error Geometry
  | [] => .error (.espTooSmall (totalSectors * sector))
  | spc :: rest =>
      let geom := fat16Geometry totalSectors spc
      if geom.clusterCount ≤ 65524 then .ok geom else fat16Search totalSectors rest

/-- Where the source's subtraction would wrap, on volumes below 37 sectors, the count here
is zero and the volume refused all the same. -/
def geometry (totalSectors : Nat) : Except Error Geometry :=
  if 64 * 2048 ≤ totalSectors then .ok (fat32Geometry totalSectors)
  else fat16Search totalSectors [1, 2, 4, 8, 16, 32, 64]

/-! ## The builder -/

/-- The slots of a directory's contents: the label or the dot entries, and for each child
its short entry and its long-name slots. -/
def contentSlots (dir : Dir) (isRoot : Bool) : Nat :=
  (if isRoot then 1 else 2) + (dir.names.map fun name => 1 + lfnSlots name).sum

/-- The short field of each child, with its whole name where that needs long-name slots;
none when an alias cannot be found. -/
def planFields (taken : List Bytes) : List String → Option (List (Bytes × Option String))
  | [] => some []
  | name :: names =>
      match fits83 name with
      | some field => (planFields taken names).map ((field, none) :: ·)
      | none => do
          let field ← shortAlias name taken
          let plan ← planFields (field :: taken) names
          some ((field, some name) :: plan)

def planChildren (dir : Dir) : Option (List (Bytes × Option String)) :=
  planFields (dir.names.filterMap fits83) dir.names

structure Builder where
  image : Bytes
  fat : List Nat
  nextFree : Nat

/-- The links of a chain: each cluster to the next, the last to the end marker. -/
def linkChain (eoc : Nat) : List Nat → List Nat → List Nat
  | fat, [] => fat
  | fat, [c] => fat.set c eoc
  | fat, c :: next :: rest => linkChain eoc (fat.set c next) (next :: rest)

def allocChain (geom : Geometry) (b : Builder) (n : Nat) : Except Error (List Nat × Builder) :=
  if n = 0 ∨ geom.maxCluster < b.nextFree + n - 1 then
    .error (.espFull (b.nextFree - 2 + n) geom.clusterCount)
  else
    let chain := List.range' b.nextFree n
    .ok (chain, ⟨b.image, linkChain geom.eoc b.fat chain, b.nextFree + n⟩)

/-- Write data across the clusters of a chain, as far as it reaches. -/
def writeClusters (geom : Geometry) (image : Bytes) : List Nat → Bytes → Bytes
  | [], _ => image
  | c :: chain, data =>
      if data = [] then image
      else writeClusters geom (put image (geom.clusterOffset c) (data.take geom.clusterBytes)) chain
        (data.drop geom.clusterBytes)

def divCeil (x a : Nat) : Nat := (x + (a - 1)) / a

/-- The clusters of a file, none when it is empty. -/
def fileClusters (geom : Geometry) (data : Bytes) : Nat := divCeil data.length geom.clusterBytes

def dirClusters (geom : Geometry) (dir : Dir) (isRoot : Bool) : Nat :=
  max (divCeil (contentSlots dir isRoot * 32) geom.clusterBytes) 1

def longEntries (long : Option String) (field : Bytes) : Bytes :=
  match long with
  | none => []
  | some name => lfnEntries name field

/-- The entries a directory opens with: the volume label, or `.` and `..`. -/
def openingEntries (params : Params) (isRoot : Bool) (selfFirst parentFirst : Nat) : Bytes :=
  if isRoot then entry params.volumeLabel.bytes 0 0 attrVolumeId
  else entry (dotName ".") selfFirst 0 attrDirectory ++ entry (dotName "..") parentFirst 0 attrDirectory

/-- A directory's buffer into its own storage: its clusters, or the FAT16 root region. -/
def storeDir (geom : Geometry) (b : Builder) (chain : Option (List Nat)) (buf : Bytes) : Builder :=
  match chain with
  | some chain => { b with image := writeClusters geom b.image chain buf }
  | none => { b with image := put b.image (geom.rootStartSector * sector) buf }

mutual

/-- The loop over the planned children: their entries, and all they hold written. -/
def renderChildren (geom : Geometry) (params : Params) (b : Builder) (childDotdot : Nat)
    (plan : List (Bytes × Option String)) (dir : Dir) : Except Error (Bytes × Builder) := do
  match dir, plan with
  | .cons _ _ node rest, (field, long) :: plan =>
      let (buf, b) ← renderNode geom params b childDotdot field long node
      let (more, b) ← renderChildren geom params b childDotdot plan rest
      .ok (buf ++ more, b)
  | _, _ => .ok ([], b)

/-- One child. A subdirectory's buffer is stored once everything in it has been. -/
def renderNode (geom : Geometry) (params : Params) (b : Builder) (childDotdot : Nat)
    (field : Bytes) (long : Option String) (node : Node) : Except Error (Bytes × Builder) := do
  match node with
  | .file data =>
      if data = [] then
        .ok (longEntries long field ++ entry field 0 0 attrArchive, b)
      else
        let (chain, b) ← allocChain geom b (fileClusters geom data)
        let image := writeClusters geom b.image chain data
        .ok (longEntries long field ++ entry field (chain.headD 0) data.length attrArchive,
          { b with image := image })
  | .dir sub =>
      let (chain, b) ← allocChain geom b (dirClusters geom sub false)
      let first := chain.headD 0
      match planChildren sub with
      | none => .error .panicked
      | some plan =>
          let (buf, b) ← renderChildren geom params b first plan sub
          .ok (longEntries long field ++ entry field first 0 attrDirectory,
            storeDir geom b (some chain) (openingEntries params false first childDotdot ++ buf))

end

/-- `render_dir`, for the root and for what `renderNode` does to a subdirectory. -/
def renderDir (geom : Geometry) (params : Params) (b : Builder) (chain : Option (List Nat))
    (selfFirst parentFirst : Nat) (isRoot : Bool) (dir : Dir) : Except Error Builder :=
  match planChildren dir with
  | none => .error .panicked
  | some plan => do
      let childDotdot := if isRoot then 0 else selfFirst
      let (buf, b) ← renderChildren geom params b childDotdot plan dir
      .ok (storeDir geom b chain (openingEntries params isRoot selfFirst parentFirst ++ buf))

/-- A subdirectory is a chain of its own, rendered into. -/
theorem render_node_dir (geom : Geometry) (params : Params) (b : Builder) (childDotdot : Nat)
    (field : Bytes) (long : Option String) (sub : Dir) :
    renderNode geom params b childDotdot field long (.dir sub) = (do
      let (chain, b) ← allocChain geom b (dirClusters geom sub false)
      let b ← renderDir geom params b (some chain) (chain.headD 0) childDotdot false sub
      .ok (longEntries long field ++ entry field (chain.headD 0) 0 attrDirectory, b)) := by
  rw [renderNode]
  cases allocChain geom b (dirClusters geom sub false) with
  | error error => rfl
  | ok allocated =>
      simp only [renderDir, bind, Except.bind]
      cases planChildren sub with
      | none => rfl
      | some plan =>
          simp only [Bool.false_eq_true, if_false]
          cases renderChildren geom params allocated.2 (allocated.1.headD 0) plan sub <;> rfl

/-! ## The table and the boot sector -/

def fatEntryBytes (fatType : FatType) (e : Nat) : Bytes :=
  match fatType with
  | .fat16 => encodeLE 2 e
  | .fat32 => encodeLE 4 (e % 2 ^ 28)

def fatBytes (fatType : FatType) (fat : List Nat) : Bytes := fat.flatMap (fatEntryBytes fatType)

/-- The identical copies of the table, one after the other. -/
def writeFats (geom : Geometry) (b : Builder) : Builder :=
  let bytes := fatBytes geom.fatType b.fat
  let image := (List.range geom.numFats).foldl (fun image i =>
    put image ((geom.fatStartSector + i * geom.fatSize) * sector) bytes) b.image
  { b with image := image }

def fat16Tail (params : Params) (s : Bytes) : Bytes :=
  let s := put s 36 [0x80]
  let s := put s 38 [0x29]
  let s := put s 39 (encodeLE 4 params.volumeId)
  let s := put s 43 params.volumeLabel.bytes
  put s 54 (utf8 "FAT16   ")

def fat32Tail (geom : Geometry) (params : Params) (s : Bytes) : Bytes :=
  let s := put s 36 (encodeLE 4 geom.fatSize)
  let s := put s 44 (encodeLE 4 fat32RootCluster)
  let s := put s 48 (encodeLE 2 1)
  let s := put s 50 (encodeLE 2 6)
  let s := put s 64 [0x80]
  let s := put s 66 [0x29]
  let s := put s 67 (encodeLE 4 params.volumeId)
  let s := put s 71 params.volumeLabel.bytes
  put s 82 (utf8 "FAT32   ")

/-- The boot sector with its parameter block. -/
def bootSector (geom : Geometry) (params : Params) : Bytes :=
  let s := List.replicate sector 0
  let s := put s 0 (if geom.fatType = .fat16 then [0xEB, 0x3C, 0x90] else [0xEB, 0x58, 0x90])
  let s := put s 3 params.oemName.bytes
  let s := put s 11 (encodeLE 2 sector)
  let s := put s 13 (encodeLE 1 geom.sectorsPerCluster)
  let s := put s 14 (encodeLE 2 geom.reservedSectors)
  let s := put s 16 (encodeLE 1 geom.numFats)
  let s := put s 17 (encodeLE 2 geom.rootEntries)
  let small := geom.fatType = .fat16 ∧ geom.totalSectors < 0x10000
  let s := put s 19 (encodeLE 2 (if small then geom.totalSectors else 0))
  let s := put s 21 [media]
  let s := put s 22 (encodeLE 2 (if geom.fatType = .fat16 then geom.fatSize else 0))
  let s := put s 24 (encodeLE 2 32)
  let s := put s 26 (encodeLE 2 64)
  let s := put s 32 (encodeLE 4 (if small then 0 else geom.totalSectors))
  let s := match geom.fatType with
    | .fat16 => fat16Tail params s
    | .fat32 => fat32Tail geom params s
  put s 510 [0x55, 0xAA]

/-- The boot sector and, on FAT32, its backup at sector 6. -/
def writeBootSector (geom : Geometry) (params : Params) (b : Builder) : Builder :=
  let s := bootSector geom params
  let image := put b.image 0 s
  { b with image := if geom.fatType = .fat32 then put image (6 * sector) s else image }

/-- The FSInfo sector at sector 1 and its backup at sector 7. -/
def writeFsinfo (geom : Geometry) (b : Builder) : Builder :=
  let used := b.nextFree - 2
  let free := geom.clusterCount - used
  let s := List.replicate sector 0
  let s := put s 0 (encodeLE 4 0x41615252)
  let s := put s 484 (encodeLE 4 0x61417272)
  let s := put s 488 (encodeLE 4 free)
  let s := put s 492 (encodeLE 4 b.nextFree)
  let s := put s 508 (encodeLE 4 0xAA550000)
  { b with image := put (put b.image sector s) (7 * sector) s }

/-- The cluster counts that agree with the type. -/
def countAgrees (geom : Geometry) : Bool :=
  match geom.fatType with
  | .fat16 => 4085 ≤ geom.clusterCount && geom.clusterCount ≤ 65524
  | .fat32 => 65525 ≤ geom.clusterCount

/-- An empty volume: zeros, and a table with its two reserved entries. -/
def blank (geom : Geometry) (totalBytes : Nat) : Builder where
  image := List.replicate totalBytes 0
  fat := ((List.replicate (geom.clusterCount + 2) 0).set 0
    (match geom.fatType with | .fat16 => 0xFFF8 | .fat32 => 0x0FFFFFF8)).set 1 geom.eoc
  nextFree := 2

/-- The root directory, in the fixed region or in a chain of its own. -/
def renderRoot (geom : Geometry) (params : Params) (b : Builder) (root : Dir) :
    Except Error Builder :=
  match geom.fatType with
  | .fat16 =>
      if geom.rootEntries < contentSlots root true then
        .error (.espFull (contentSlots root true) geom.rootEntries)
      else renderDir geom params b none 0 0 true root
  | .fat32 => do
      let (chain, b) ← allocChain geom b (dirClusters geom root true)
      renderDir geom params b (some chain) fat32RootCluster 0 true root

/-- The table, the boot sector and on FAT32 the FSInfo, over what was rendered. -/
def finish (geom : Geometry) (params : Params) (b : Builder) : Bytes :=
  let b := writeFats geom b
  let b := writeBootSector geom params b
  let b := if geom.fatType = .fat32 then writeFsinfo geom b else b
  b.image

def format (totalBytes : Nat) (root : Dir) (params : Params) : Except Error Bytes := do
  if totalBytes % sector ≠ 0 then .error (.espTooSmall totalBytes)
  else
    let geom ← geometry (totalBytes / sector)
    if ¬countAgrees geom then .error (.espTooSmall totalBytes)
    else
      let b ← renderRoot geom params (blank geom totalBytes) root
      .ok (finish geom params b)

end HorizonOs.Keybuild.Fat
