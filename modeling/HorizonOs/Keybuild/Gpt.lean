import HorizonOs.Lib.Buffer
import HorizonOs.Lib.Text
import HorizonOs.Lib.Utf16

/-!
# The partition table of a disk

`build` lays the partitions at 1 MiB boundaries one after the other, frames them
with a primary table at the start and a backup at the end, and `write_disk` stamps
the two and streams every image to its place. Sector numbers and byte offsets are
natural numbers here; the results assume a disk whose size a u64 can hold, where
none of the source's sums and products wraps.
-/

namespace HorizonOs.Keybuild.Gpt

open HorizonOs.Lib.ByteCodec HorizonOs.Lib.Buffer HorizonOs.Lib.Text HorizonOs.Lib.Utf16

set_option autoImplicit false

def sector : Nat := 512

/-- Partition alignment, in sectors: 1 MiB. -/
def alignSectors : Nat := 2048

def entryCount : Nat := 128
def entrySize : Nat := 128

/-- The size of the entry array, in sectors. -/
def entryArraySectors : Nat := entryCount * entrySize / sector

def headerSize : Nat := 92

/-- A GUID in its on-disk byte order. -/
abbrev Guid := FixedBytes 16

/-- A GUID derived from a seed: SHA-256 with the version and variant bits set. -/
def Guid.derive (sha256 : Bytes → FixedBytes 32) (seed : String) : Guid :=
  let digest := (sha256 (utf8 "horizon-gpt:" ++ utf8 seed)).bytes.take 16
  FixedBytes.ofBytes 16
    ((digest.modify 6 fun b => b &&& 0x0f ||| 0x40).modify 8 fun b => b &&& 0x3f ||| 0x80)

/-- A partition to place: its GUIDs, its name and the size of its image in bytes. -/
structure PartSpec where
  typeGuid : Guid
  uniqueGuid : Guid
  name : String
  size : Nat

structure Placed where
  firstLba : Nat
  lastLba : Nat
  offset : Nat
  size : Nat
  deriving DecidableEq

structure Disk where
  totalBytes : Nat
  parts : List Placed
  front : Bytes
  back : Bytes
  backOffset : Nat

def divCeil (x a : Nat) : Nat := (x + (a - 1)) / a

def alignUp (x a : Nat) : Nat := divCeil x a * a

/-! ## Checksums -/

def crcBit (crc : UInt32) : UInt32 := (crc >>> 1) ^^^ (0xEDB88320 &&& (0 - (crc &&& 1)))

/-- CRC-32, the reflected polynomial the header and the entry array use. -/
def crc32 (data : Bytes) : UInt32 :=
  ~~~(data.foldl (fun crc b => (List.range 8).foldl (fun crc _ => crcBit crc)
    (crc ^^^ b.toUInt32)) 0xFFFFFFFF)

example : crc32 (utf8 "123456789") = 0xCBF43926 := by decide +kernel

/-! ## The table -/

structure HeaderArgs where
  myLba : Nat
  altLba : Nat
  firstUsable : Nat
  lastUsable : Nat
  diskGuid : Guid
  entriesLba : Nat
  entryCrc : UInt32

/-- The header's sector before its own checksum is filled in. -/
def headerFields (a : HeaderArgs) : Bytes :=
  let s := List.replicate sector 0
  let s := put s 0 (utf8 "EFI PART")
  let s := put s 8 [0x00, 0x00, 0x01, 0x00] -- revision 1.0
  let s := put s 12 (encodeLE 4 headerSize)
  let s := put s 24 (encodeLE 8 a.myLba)
  let s := put s 32 (encodeLE 8 a.altLba)
  let s := put s 40 (encodeLE 8 a.firstUsable)
  let s := put s 48 (encodeLE 8 a.lastUsable)
  let s := put s 56 a.diskGuid.bytes
  let s := put s 72 (encodeLE 8 a.entriesLba)
  let s := put s 80 (encodeLE 4 entryCount)
  let s := put s 84 (encodeLE 4 entrySize)
  put s 88 (encodeLE 4 a.entryCrc.toNat)

/-- One sector with a header in its first 92 bytes; the checksum covers those bytes
with its own field zero. -/
def header (a : HeaderArgs) : Bytes :=
  let s := headerFields a
  put s 16 (encodeLE 4 (crc32 (slice s 0 headerSize)).toNat)

/-- One entry of the array. The attribute flags stay zero. -/
def entryBytes (p : PartSpec) (pl : Placed) : Bytes :=
  let e := List.replicate entrySize 0
  let e := put e 0 p.typeGuid.bytes
  let e := put e 16 p.uniqueGuid.bytes
  let e := put e 32 (encodeLE 8 pl.firstLba)
  let e := put e 40 (encodeLE 8 pl.lastLba)
  put e 56 (((encodeUtf16 p.name).take 36).flatMap fun u => encodeLE 2 u.toNat)

/-- The entries from the `i`-th on, written into the array. -/
def putEntries (array : Bytes) (i : Nat) : List (PartSpec × Placed) → Bytes
  | [] => array
  | (p, pl) :: rest => putEntries (put array (i * entrySize) (entryBytes p pl)) (i + 1) rest

/-- The whole array; an entry past its end is a slice out of range, a panic. -/
def buildEntries (parts : List PartSpec) (placed : List Placed) : Option Bytes :=
  if (parts.zip placed).length ≤ entryCount then
    some (putEntries (List.replicate (entryCount * entrySize) 0) 0 (parts.zip placed))
  else none

/-- The protective record over the whole disk and the boot signature, in LBA 0. -/
def writePmbr (s : Bytes) (totalSectors : Nat) : Bytes :=
  let span := min (totalSectors - 1) 0xFFFFFFFF
  let s := put s 447 [0x00, 0x02, 0x00]
  let s := put s 450 [0xEE]
  let s := put s 451 [0xFF, 0xFF, 0xFF]
  let s := put s 454 (encodeLE 4 1)
  let s := put s 458 (encodeLE 4 span)
  put s 510 [0x55, 0xAA]

/-- The sectors a partition of this many bytes gets. -/
def regionSectors (size : Nat) : Nat := alignUp (max (divCeil size sector) 1) alignSectors

/-- The loop over the partitions: where each lands, and the sector after the last. -/
def place (cursor : Nat) : List PartSpec → List Placed × Nat
  | [] => ([], cursor)
  | p :: parts =>
      let sectors := regionSectors p.size
      let first := cursor
      let last := first + sectors - 1
      let (placed, cursor) := place (last + 1) parts
      (⟨first, last, first * sector, sectors * sector⟩ :: placed, cursor)

def entriesLba : Nat := 2
def firstUsable : Nat := entriesLba + entryArraySectors

/-- The second half of `build`: the two headers and the bytes that frame the partitions,
the backup right after the last of them. -/
def frame (diskGuid : Guid) (placed : List Placed) (cursor : Nat) (entryArray : Bytes) : Disk :=
  let backupEntriesLba := cursor
  let totalSectors := backupEntriesLba + entryArraySectors + 1
  let backupHeaderLba := totalSectors - 1
  let lastUsable := backupEntriesLba - 1
  let entryCrc := crc32 entryArray
  let primaryHeader :=
    header ⟨1, backupHeaderLba, firstUsable, lastUsable, diskGuid, entriesLba, entryCrc⟩
  let backupHeader :=
    header ⟨backupHeaderLba, 1, firstUsable, lastUsable, diskGuid, backupEntriesLba, entryCrc⟩
  let front := writePmbr (List.replicate (firstUsable * sector) 0) totalSectors
  let front := put front sector primaryHeader
  let front := put front (sector * 2) entryArray
  let back := List.replicate ((entryArraySectors + 1) * sector) 0
  let back := put back 0 entryArray
  let back := put back (entryArraySectors * sector) backupHeader
  ⟨totalSectors * sector, placed, front, back, backupEntriesLba * sector⟩

def build (diskGuid : Guid) (parts : List PartSpec) : Option Disk :=
  let (placed, cursor) := place (alignUp firstUsable alignSectors) parts
  (buildEntries parts placed).map (frame diskGuid placed cursor)

/-! ## The disk image -/

/-- An image file with its type and its partition name. -/
structure DiskPart where
  image : String
  typeGuid : Guid
  name : String

structure Placement where
  name : String
  offset : Nat
  size : Nat

inductive DiskError where
  | noImage (path : String)
  | io (path : String)
  | panicked
  deriving DecidableEq

/-- The files of the host, by path. -/
abbrev Files := String → Option Bytes

/-- What `write_disk` did: the table, each write with its offset, and where the
images went. -/
structure DiskRun where
  disk : Disk
  writes : List (Nat × Bytes)
  placements : List Placement

def sizeParts (sha256 : Bytes → FixedBytes 32) (files : Files) :
    List DiskPart → Except DiskError (List PartSpec)
  | [] => .ok []
  | p :: parts =>
      match files p.image with
      | none => .error (.noImage p.image)
      | some content => do
          let specs ← sizeParts sha256 files parts
          .ok (⟨p.typeGuid, Guid.derive sha256 p.name, p.name, content.length⟩ :: specs)

/-- Each image streamed to the offset of its partition. -/
def streamParts (files : Files) :
    List (DiskPart × Placed) → Except DiskError (List (Nat × Bytes) × List Placement)
  | [] => .ok ([], [])
  | (p, placed) :: rest =>
      match files p.image with
      | none => .error (.io p.image)
      | some content => do
          let (writes, placements) ← streamParts files rest
          .ok ((placed.offset, content) :: writes,
            ⟨p.name, placed.offset, placed.size⟩ :: placements)

/-- The images are sized first; then the file at `out` is made anew, all zeros, so an
image read after that is read as the files are then. -/
def writeDisk (sha256 : Bytes → FixedBytes 32) (files : Files) (out : String)
    (parts : List DiskPart) : Except DiskError DiskRun := do
  let specs ← sizeParts sha256 files parts
  match build (Guid.derive sha256 "horizon-key-disk") specs with
  | none => .error .panicked
  | some disk =>
      let files := Function.update files out (some (List.replicate disk.totalBytes 0))
      let (writes, placements) ← streamParts files (parts.zip disk.parts)
      .ok ⟨disk, (0, disk.front) :: (disk.backOffset, disk.back) :: writes, placements⟩

end HorizonOs.Keybuild.Gpt
