import HorizonOs.Keybuild.Fat

/-!
# Reading a FAT volume

A reader of its own, after the published layout of FAT16 and FAT32 and with nothing of
the writer but its constants: the parameter block, chains through the allocation table,
directory entries with short and long names, and from them the tree of a volume.
-/

namespace HorizonOs.Keybuild.Fat

open HorizonOs.Lib.ByteCodec HorizonOs.Lib.Buffer HorizonOs.Lib.Utf16

set_option autoImplicit false

/-- An unsigned number of a record. -/
def field (bytes : Bytes) (offset width : Nat) : Nat := decodeLE (slice bytes offset width)

/-! ## The parameter block -/

/-- What a reader needs to know of a volume; offsets and sizes in bytes. -/
structure Volume where
  fatType : FatType
  fatOffset : Nat
  rootOffset : Nat
  rootBytes : Nat
  dataOffset : Nat
  clusterBytes : Nat
  clusterCount : Nat
  rootCluster : Nat
  deriving DecidableEq

/-- The most clusters whose numbers stay below the marks of a FAT32 table. -/
def maxClusterCount : Nat := 0x0FFFFFF5

/-- Read the block. The count of clusters alone decides the type; a volume of FAT12, one
that says another size than it has and one with too many clusters is refused. -/
def readVolume (image : Bytes) : Option Volume :=
  let sectorBytes := field image 11 2
  let sectorsPerCluster := field image 13 1
  let reserved := field image 14 2
  let fats := field image 16 1
  let rootEntries := field image 17 2
  let total := if field image 19 2 = 0 then field image 32 4 else field image 19 2
  let fatSize := if field image 22 2 = 0 then field image 36 4 else field image 22 2
  let rootStart := reserved + fats * fatSize
  let dataStart := rootStart + divCeil (rootEntries * 32) sectorBytes
  let count := (total - dataStart) / sectorsPerCluster
  if field image 510 2 ≠ 0xAA55 ∨ sectorsPerCluster = 0 ∨ total * sectorBytes ≠ image.length ∨
      total < dataStart ∨ count < 4085 ∨ maxClusterCount < count then none
  else
    some
      { fatType := if count < 65525 then .fat16 else .fat32
        fatOffset := reserved * sectorBytes
        rootOffset := rootStart * sectorBytes
        rootBytes := rootEntries * 32
        dataOffset := dataStart * sectorBytes
        clusterBytes := sectorsPerCluster * sectorBytes
        clusterCount := count
        rootCluster := field image 44 4 }

/-! ## Clusters -/

namespace Volume

variable (volume : Volume) (image : Bytes)

/-- The entry of the table for a cluster. -/
def next (cluster : Nat) : Nat :=
  match volume.fatType with
  | .fat16 => field image (volume.fatOffset + cluster * 2) 2
  | .fat32 => field image (volume.fatOffset + cluster * 4) 4 % 2 ^ 28

/-- Whether an entry marks the end of a chain. -/
def isEoc (entry : Nat) : Bool :=
  match volume.fatType with
  | .fat16 => 0xFFF8 ≤ entry
  | .fat32 => 0x0FFFFFF8 ≤ entry

/-- The chain from a cluster on, with as many as there can be as fuel. -/
def chain : Nat → Nat → Option (List Nat)
  | 0, _ => none
  | fuel + 1, cluster =>
      if cluster < 2 ∨ volume.clusterCount + 1 < cluster then none
      else if volume.isEoc (volume.next image cluster) then some [cluster]
      else (chain fuel (volume.next image cluster)).map (cluster :: ·)

def chainFrom (cluster : Nat) : Option (List Nat) :=
  volume.chain image volume.clusterCount cluster

def cluster (number : Nat) : Bytes :=
  slice image (volume.dataOffset + (number - 2) * volume.clusterBytes) volume.clusterBytes

def contents (clusters : List Nat) : Bytes := clusters.flatMap (volume.cluster image)

end Volume

/-! ## Directory entries -/

/-- A part of a long name. -/
structure Slot where
  seq : Nat
  last : Bool
  checksum : Nat
  units : List UInt16
  deriving DecidableEq

structure DirEntry where
  field : Bytes
  name : String
  isDir : Bool
  first : Nat
  size : Nat
  deriving DecidableEq

def decodeUnits : Bytes → List UInt16
  | low :: high :: rest => UInt16.ofNat (decodeLE [low, high]) :: decodeUnits rest
  | _ => []

def slotOf (record : Bytes) : Slot where
  seq := field record 0 1 % 64
  last := field record 0 1 / 64 % 2 = 1
  checksum := field record 13 1
  units := decodeUnits (slice record 1 10 ++ slice record 14 12 ++ slice record 28 4)

/-- The name that the slots before an entry carry, the last one read first, when they are
a whole name and belong to its short field. -/
def longName (slots : List Slot) (short : Bytes) : Option String :=
  if slots.map Slot.seq = List.range' 1 slots.length ∧
      slots.map Slot.last = (List.range' 1 slots.length).map (decide <| · = slots.length) ∧
        slots ≠ [] ∧ ∀ slot ∈ slots, slot.checksum = (lfnChecksum short).toNat then
    decodeUtf16 ((slots.flatMap Slot.units).takeWhile (· ≠ 0))
  else none

/-- Without the spaces at the end. -/
def trimField (bytes : Bytes) : Bytes := (bytes.reverse.dropWhile (· = 0x20)).reverse

def fieldChars (bytes : Bytes) : List Char := (trimField bytes).map fun b => Char.ofNat b.toNat

/-- The name of a short field: its base, and a dot before its extension. -/
def shortName (short : Bytes) : String :=
  let base := fieldChars (slice short 0 8)
  let ext := fieldChars (slice short 8 3)
  String.ofList (if ext = [] then base else base ++ '.' :: ext)

def dirEntry (slots : List Slot) (record : Bytes) : DirEntry where
  field := slice record 0 11
  name := (longName slots (slice record 0 11)).getD (shortName (slice record 0 11))
  isDir := field record 11 1 / 16 % 2 = 1
  first := field record 20 2 * 2 ^ 16 + field record 26 2
  size := field record 28 4

def records (bytes : Bytes) : List Bytes :=
  (List.range (bytes.length / 32)).map fun i => slice bytes (i * 32) 32

/-- The entries of a directory: up to the first free record, without deleted ones and the
volume's label; slots of long names gather until the entry they precede. -/
def parseEntries : List Slot → List Bytes → List DirEntry
  | _, [] => []
  | slots, record :: rest =>
      if field record 0 1 = 0 then []
      else if field record 0 1 = 0xE5 then parseEntries [] rest
      else if field record 11 1 % 64 = 0x0F then parseEntries (slotOf record :: slots) rest
      else if field record 11 1 / 8 % 2 = 1 then parseEntries [] rest
      else dirEntry slots record :: parseEntries [] rest

def entriesOf (bytes : Bytes) : List DirEntry := parseEntries [] (records bytes)

/-! ## The tree -/

/-- What a reader finds: a file with its chain, or a directory with its chain, the clusters
that its `.` and `..` name, and the rest of its entries under their names. -/
inductive Found where
  | file (chain : List Nat) (data : Bytes)
  | dir (chain : List Nat) (dot dotdot : Nat) (entries : List (String × Found))

section Read

variable (volume : Volume) (image : Bytes)

/-- A child, with the reading of a directory's entries as an argument. -/
def readChild (readEntries : List DirEntry → Option (List (String × Found))) (e : DirEntry) :
    Option Found :=
  if e.isDir then do
    let chain ← volume.chainFrom image e.first
    match entriesOf (volume.contents image chain) with
    | dot :: dotdot :: rest =>
        if dot.field = dotName "." ∧ dotdot.field = dotName ".." then do
          let entries ← readEntries rest
          some (.dir chain dot.first dotdot.first entries)
        else none
    | _ => none
  else if e.size = 0 then some (.file [] [])
  else do
    let chain ← volume.chainFrom image e.first
    let bytes := volume.contents image chain
    if bytes.length < e.size then none else some (.file chain (bytes.take e.size))

/-- Entries of directories that are as deep in one another as the fuel allows. -/
def readEntries : Nat → List DirEntry → Option (List (String × Found))
  | 0, _ => none
  | fuel + 1, entries =>
      entries.mapM fun e => (readChild volume image (readEntries fuel) e).map (Prod.mk e.name)

end Read

/-- The chain of the root directory, none on FAT16, and the tree under it. -/
def readTree (image : Bytes) : Option (List Nat × List (String × Found)) := do
  let volume ← readVolume image
  let depth := volume.clusterCount + 1
  match volume.fatType with
  | .fat16 =>
      let entries ← readEntries volume image depth
        (entriesOf (slice image volume.rootOffset volume.rootBytes))
      some ([], entries)
  | .fat32 =>
      let chain ← volume.chainFrom image volume.rootCluster
      let entries ← readEntries volume image depth (entriesOf (volume.contents image chain))
      some (chain, entries)

/-! ## A tree recovered -/

/-- The name a reader sees: the one requested, or its upper-case 8.3 form. -/
def shownName (name : String) : String :=
  match canon83 name with
  | some canon => String.ofList canon
  | none => name

mutual

/-- A node has been found as it was. -/
def SameNode : Node → Found → Prop
  | .file data, .file _ read => read = data
  | .dir sub, .dir _ _ _ entries => SameDir sub entries
  | .file _, .dir _ _ _ _ => False
  | .dir _, .file _ _ => False

def SameDir : Dir → List (String × Found) → Prop
  | .nil, [] => True
  | .cons _ name node rest, (shown, found) :: entries =>
      shown = shownName name ∧ SameNode node found ∧ SameDir rest entries
  | .nil, _ :: _ => False
  | .cons _ _ _ _, [] => False

end

mutual

/-- `.` names the directory itself and `..` the one above it, the root as 0. -/
def Found.Dotted (parent : Nat) : Found → Prop
  | .file _ _ => True
  | .dir chain dot dotdot entries =>
      chain.head? = some dot ∧ dotdot = parent ∧ DottedAll dot entries

def DottedAll (parent : Nat) : List (String × Found) → Prop
  | [] => True
  | (_, found) :: entries => found.Dotted parent ∧ DottedAll parent entries

end

mutual

/-- All the clusters of a tree. -/
def Found.clusters : Found → List Nat
  | .file chain _ => chain
  | .dir chain _ _ entries => chain ++ clustersAll entries

def clustersAll : List (String × Found) → List Nat
  | [] => []
  | (_, found) :: entries => found.clusters ++ clustersAll entries

end

/-- The tree of the image is the one that was laid into it, no cluster used twice. -/
def Recovers (image : Bytes) (root : Dir) : Prop :=
  ∃ chain entries, readTree image = some (chain, entries) ∧ SameDir root entries ∧
    DottedAll 0 entries ∧ (chain ++ clustersAll entries).Nodup

end HorizonOs.Keybuild.Fat
