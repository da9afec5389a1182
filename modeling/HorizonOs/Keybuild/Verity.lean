import HorizonOs.Lib.HashTree
import HorizonOs.Lib.Text

/-!
# The hash device of the immutable base

`format` hashes the base block by block, packs the digests into hash blocks, hashes these
in their turn until one is left, and lays the levels top first after the superblock. An
index out of range is a panic, and a hash block with room for one digest makes the loop
over the levels endless: both are `none` here.
-/

namespace HorizonOs.Keybuild.DmVerity

open HorizonOs.Lib.ByteCodec HorizonOs.Lib.Buffer HorizonOs.Lib.Text HorizonOs.Lib.HashTree

set_option autoImplicit false

/-- SHA-256 digest length. -/
def digestSize : Nat := 32

def defaultBlockSize : UInt32 := 4096

structure VerityParams where
  dataBlockSize : UInt32
  hashBlockSize : UInt32
  salt : Bytes
  uuid : FixedBytes 16

/-- `VerityParams::default`. -/
def defaultParams : VerityParams where
  dataBlockSize := defaultBlockSize
  hashBlockSize := defaultBlockSize
  salt := utf8 "horizon-os immutable base verity"
  uuid := FixedBytes.ofBytes 16 (utf8 "horizonbaseverit")

structure Verity where
  hashDevice : Bytes
  rootHash : FixedBytes 32
  dataBlocks : Nat
  levels : Nat
  dataBlockSize : UInt32
  hashBlockSize : UInt32
  salt : Bytes
  uuid : FixedBytes 16

section Build

variable (sha256 : Bytes → FixedBytes 32)

/-- SHA-256 of the salt and the block. -/
def hashBlock (salt block : Bytes) : FixedBytes 32 := sha256 (salt ++ block)

/-- A short block is filled with zeros first. -/
def hashDataBlock (salt block : Bytes) (dataBlockSize : Nat) : FixedBytes 32 :=
  if block.length = dataBlockSize then hashBlock sha256 salt block
  else hashBlock sha256 salt (pad 0 dataBlockSize block)

/-- The kernel's `struct verity_sb`, at the start of one hash block. -/
def superblock (params : VerityParams) (dataBlocks : Nat) : Option Bytes :=
  let salt := params.salt.take (min params.salt.length 256)
  if 88 + salt.length ≤ params.hashBlockSize.toNat then
    let sb := List.replicate params.hashBlockSize.toNat 0
    let sb := put sb 0 (utf8 "verity\x00\x00")
    let sb := put sb 8 (encodeLE 4 1)
    let sb := put sb 12 (encodeLE 4 1)
    let sb := put sb 16 params.uuid.bytes
    let sb := put sb 32 (utf8 "sha256")
    let sb := put sb 64 (encodeLE 4 params.dataBlockSize.toNat)
    let sb := put sb 68 (encodeLE 4 params.hashBlockSize.toNat)
    let sb := put sb 72 (encodeLE 8 dataBlocks)
    let sb := put sb 80 (encodeLE 2 salt.length)
    some (put sb 88 salt)
  else none

/-- The digest of the data block at an index, the last one cut where the data ends. -/
def leafDigest (params : VerityParams) (data : Bytes) (i : Nat) : Bytes :=
  let dbs := params.dataBlockSize.toNat
  (hashDataBlock sha256 params.salt (slice data (i * dbs) dbs) dbs).bytes

/-- The leaves and the levels over them, leaves first. The loop ends within as many rounds
as there are leaf blocks, or never. -/
def treeLevels (params : VerityParams) (data : Bytes) (dataBlocks : Nat) : Option (List Bytes) :=
  let hbs := params.hashBlockSize.toNat
  let leafBlocks := dataBlocks ⌈/⌉ (hbs / digestSize)
  let leaves := level digestSize hbs 0 (leafDigest sha256 params data) (List.range dataBlocks)
  stack digestSize hbs 0 (fun block => (hashBlock sha256 params.salt block).bytes) leafBlocks leaves

/-- At least one block, also of an empty base. -/
def dataBlocks (params : VerityParams) (data : Bytes) : Nat :=
  max (data.length ⌈/⌉ params.dataBlockSize.toNat) 1

def format (params : VerityParams) (data : Bytes) : Option Verity :=
  let dbs := params.dataBlockSize.toNat
  let hashesPerBlock := params.hashBlockSize.toNat / digestSize
  let dataBlocks := dataBlocks params data
  if dbs = 0 then none
  else if dataBlocks = 1 then do
    let rootHash := hashDataBlock sha256 params.salt (data.take (min data.length dbs)) dbs
    let hashDevice ← superblock params dataBlocks
    some {
      hashDevice
      rootHash
      dataBlocks
      levels := 0
      dataBlockSize := params.dataBlockSize
      hashBlockSize := params.hashBlockSize
      salt := params.salt
      uuid := params.uuid }
  else if hashesPerBlock = 0 then none
  else do
    let levels ← treeLevels sha256 params data dataBlocks
    let top ← levels.getLast?
    let rootHash := hashBlock sha256 params.salt top
    let first ← superblock params dataBlocks
    some {
      hashDevice := first ++ levels.reverse.flatten
      rootHash
      dataBlocks
      levels := levels.length
      dataBlockSize := params.dataBlockSize
      hashBlockSize := params.hashBlockSize
      salt := params.salt
      uuid := params.uuid }

end Build

/-! ## The image in whole blocks -/

/-- The base filled with zeros to whole blocks. -/
def image (params : VerityParams) (data : Bytes) : Bytes :=
  pad 0 (dataBlocks params data * params.dataBlockSize.toNat) data

def dataBlock (params : VerityParams) (data : Bytes) (i : Nat) : Bytes :=
  slice (image params data) (i * params.dataBlockSize.toNat) params.dataBlockSize.toNat

theorem length_image (params : VerityParams) (data : Bytes)
    (wide : 0 < params.dataBlockSize.toNat) :
    (image params data).length = dataBlocks params data * params.dataBlockSize.toNat := by
  apply length_pad
  have enough : data.length ≤ params.dataBlockSize.toNat *
      (data.length ⌈/⌉ params.dataBlockSize.toNat) := by
    rw [← ceilDiv_le_iff_le_mul wide]
  calc
    data.length ≤ params.dataBlockSize.toNat * (data.length ⌈/⌉ params.dataBlockSize.toNat) := enough
    _ ≤ params.dataBlockSize.toNat * dataBlocks params data :=
      Nat.mul_le_mul_left _ (Nat.le_max_left _ _)
    _ = dataBlocks params data * params.dataBlockSize.toNat := Nat.mul_comm _ _

/-- A slice of a filled buffer is the slice, filled. -/
theorem slice_pad (filler : UInt8) (total offset count : Nat) (bytes : Bytes)
    (fits : bytes.length ≤ total) (inside : offset + count ≤ total) :
    slice (pad filler total bytes) offset count = pad filler count (slice bytes offset count) := by
  apply List.ext_getElem?
  intro i
  have cut : (slice bytes offset count).length = min count (bytes.length - offset) := by
    rw [slice, List.length_take, List.length_drop]
  rw [get_slice, pad, pad, List.getElem?_append, List.getElem?_append, get_slice, cut]
  by_cases read : i < count
  · rw [if_pos read]
    by_cases stored : offset + i < bytes.length
    · rw [if_pos stored, if_pos (by omega), if_pos read]
    · rw [if_neg stored, if_neg (by omega), List.getElem?_replicate_of_lt (by omega),
        List.getElem?_replicate_of_lt (by omega)]
  · rw [if_neg read, if_neg (by omega), List.getElem?_eq_none]
    rw [List.length_replicate]
    omega

/-- Every block the leaves are made of is a block of the filled image. -/
theorem hash_data_block_filled (sha256 : Bytes → FixedBytes 32) (params : VerityParams)
    (data : Bytes) (wide : 0 < params.dataBlockSize.toNat) (i : Nat)
    (inside : i < dataBlocks params data) :
    hashDataBlock sha256 params.salt
        (slice data (i * params.dataBlockSize.toNat) params.dataBlockSize.toNat)
        params.dataBlockSize.toNat =
      hashBlock sha256 params.salt (dataBlock params data i) := by
  have fits := length_image params data wide
  have within : i * params.dataBlockSize.toNat + params.dataBlockSize.toNat ≤
      dataBlocks params data * params.dataBlockSize.toNat := by
    rw [← Nat.succ_mul]
    exact Nat.mul_le_mul_right _ inside
  rw [dataBlock, image, slice_pad, hashDataBlock]
  · by_cases whole : (slice data (i * params.dataBlockSize.toNat)
        params.dataBlockSize.toNat).length = params.dataBlockSize.toNat
    · rw [if_pos whole, pad_whole 0 _ _ whole]
    · rw [if_neg whole]
  · rw [image, pad, List.length_append, List.length_replicate] at fits
    omega
  · exact within

/-! ## The superblock -/

/-- What a reader finds in the first block of a device. -/
structure SuperblockReads (params : VerityParams) (blocks : Nat) (device : Bytes) : Prop where
  signature : slice device 0 8 = utf8 "verity\x00\x00"
  version : decodeLE (slice device 8 4) = 1
  hashType : decodeLE (slice device 12 4) = 1
  uuid : slice device 16 16 = params.uuid.bytes
  algorithm : slice device 32 6 = utf8 "sha256" ∧ slice device 38 26 = List.replicate 26 0
  dataBlockSize : decodeLE (slice device 64 4) = params.dataBlockSize.toNat
  hashBlockSize : decodeLE (slice device 68 4) = params.hashBlockSize.toNat
  dataBlocks : decodeLE (slice device 72 8) = blocks % 2 ^ 64
  salt : slice device 88 (decodeLE (slice device 80 2)) = params.salt

theorem length_superblock {params : VerityParams} (blocks : Nat) (first : Bytes)
    (built : superblock params blocks = some first) :
    first.length = params.hashBlockSize.toNat := by
  rw [superblock] at built
  by_cases room : 88 + (params.salt.take (min params.salt.length 256)).length ≤
      params.hashBlockSize.toNat
  · rw [if_pos room] at built
    rw [← Option.some.inj built]
    simp only [length_put, List.length_replicate]
  · rw [if_neg room] at built
    cases built

theorem superblock_fits {params : VerityParams} (blocks : Nat)
    (room : 344 ≤ params.hashBlockSize.toNat) : ∃ first, superblock params blocks = some first := by
  rw [superblock, if_pos]
  · exact ⟨_, rfl⟩
  · rw [List.length_take]
    omega

theorem verity_text_lengths :
    (utf8 "verity\x00\x00").length = 8 ∧ (utf8 "sha256").length = 6 := by decide

/-- The fields of the superblock, each read where it was written. -/
theorem superblock_fields {params : VerityParams} (blocks : Nat) (first : Bytes)
    (built : superblock params blocks = some first) (salt : params.salt.length ≤ 256) :
    slice first 0 8 = utf8 "verity\x00\x00" ∧ slice first 8 4 = encodeLE 4 1 ∧
      slice first 12 4 = encodeLE 4 1 ∧ slice first 16 16 = params.uuid.bytes ∧
      slice first 32 6 = utf8 "sha256" ∧ slice first 38 26 = List.replicate 26 0 ∧
      slice first 64 4 = encodeLE 4 params.dataBlockSize.toNat ∧
      slice first 68 4 = encodeLE 4 params.hashBlockSize.toNat ∧
      slice first 72 8 = encodeLE 8 blocks ∧ slice first 80 2 = encodeLE 2 params.salt.length ∧
      slice first 88 params.salt.length = params.salt ∧ 88 + params.salt.length ≤ first.length := by
  have size := length_superblock blocks first built
  have whole : params.salt.take (min params.salt.length 256) = params.salt := by
    rw [Nat.min_eq_left salt, List.take_length]
  rw [superblock, whole] at built
  by_cases room : 88 + params.salt.length ≤ params.hashBlockSize.toNat
  · rw [if_pos room] at built
    have blank : slice (List.replicate params.hashBlockSize.toNat (0 : UInt8)) 38 26 =
        List.replicate 26 0 := slice_replicate 0 _ 38 26 (by omega)
    have length : (List.replicate params.hashBlockSize.toNat (0 : UInt8)).length =
        params.hashBlockSize.toNat := List.length_replicate
    rw [size]
    rw [← Option.some.inj built]
    generalize List.replicate params.hashBlockSize.toNat (0 : UInt8) = sb at *
    have texts := verity_text_lengths
    refine ⟨?_, ?_, ?_, ?_, ?_, ?_, ?_, ?_, ?_, ?_, ?_, room⟩ <;>
      simp (disch := simp [texts, length]; try omega) only
        [slice_put_apart, slice_put_self, blank]
  · rw [if_neg room] at built
    cases built

/-- A salt that fits its field is read back with all the others. -/
theorem superblock_reads {params : VerityParams} (blocks : Nat) (first rest : Bytes)
    (built : superblock params blocks = some first) (salt : params.salt.length ≤ 256) :
    SuperblockReads params blocks (first ++ rest) := by
  obtain ⟨signature, version, kind, uuid, name, zeros, data, hash, count, width, stored, room⟩ :=
    superblock_fields blocks first built salt
  have unit : decodeLE (encodeLE 4 1) = 1 := decode_encode_le_of_lt 4 1 (by decide)
  have within : ∀ offset count, offset + count ≤ 88 →
      slice (first ++ rest) offset count = slice first offset count :=
    fun offset count inside => slice_append_left first rest offset count (by omega)
  have size : decodeLE (slice (first ++ rest) 80 2) = params.salt.length := by
    rw [within 80 2 (by omega), width]
    exact decode_encode_le_of_lt 2 _ (by omega)
  constructor
  · rw [within 0 8 (by omega), signature]
  · rw [within 8 4 (by omega), version, unit]
  · rw [within 12 4 (by omega), kind, unit]
  · rw [within 16 16 (by omega), uuid]
  · rw [within 32 6 (by omega), within 38 26 (by omega)]
    exact ⟨name, zeros⟩
  · rw [within 64 4 (by omega), data]
    exact decode_encode_le_of_lt 4 _ params.dataBlockSize.toNat_lt
  · rw [within 68 4 (by omega), hash]
    exact decode_encode_le_of_lt 4 _ params.hashBlockSize.toNat_lt
  · rw [within 72 8 (by omega), count, decode_encode_le]
    exact congrArg (blocks % ·) (by decide)
  · rw [size, slice_append_left first rest 88 _ room, stored]

end HorizonOs.Keybuild.DmVerity
