import Mathlib.Algebra.BigOperators.Ring.List
import Mathlib.Order.Bounds.Defs
import HorizonOs.Keybuild.Verity

/-!
# What the kernel makes of a hash device

The kernel's target reads a digest of the tree at a place it computes from the number of
data blocks alone, and checks a block from the root down. Every block of the image a device
was built over passes, and the root of a device pins the image.
-/

namespace HorizonOs.Keybuild.DmVerity

open HorizonOs.Lib.ByteCodec HorizonOs.Lib.Buffer HorizonOs.Lib.HashTree

set_option autoImplicit false

/-! ## The target -/

/-- The geometry the target is opened with. The tree starts after one block, the superblock. -/
structure Target where
  dataBlocks : Nat
  hashBlockSize : Nat
  levels : Nat
  salt : Bytes

namespace Target

variable (target : Target)

/-- Digests of a hash block, as a power of two. -/
def hashPerBlockBits : Nat := Nat.log2 (target.hashBlockSize / digestSize)

/-- The entry of a level that a data block is under. -/
def positionAtLevel (block level : Nat) : Nat := block >>> (level * target.hashPerBlockBits)

def levelBlocks (level : Nat) : Nat :=
  (target.dataBlocks + 2 ^ ((level + 1) * target.hashPerBlockBits) - 1) >>>
    ((level + 1) * target.hashPerBlockBits)

/-- The first block of a level: those above it lie before it. -/
def hashLevelBlock (level : Nat) : Nat :=
  1 + (((List.range target.levels).drop (level + 1)).map target.levelBlocks).sum

/-- A hash block of a level. -/
def blockAt (device : Bytes) (level index : Nat) : Bytes :=
  slice device ((target.hashLevelBlock level + index) * target.hashBlockSize) target.hashBlockSize

/-- The digest at a position of a level: the high bits name the block, the low ones the slot,
and slots are as wide as a power of two. -/
def digestAt (device : Bytes) (level position : Nat) : Bytes :=
  let slot := position &&& (2 ^ target.hashPerBlockBits - 1)
  slice (target.blockAt device level (position >>> target.hashPerBlockBits))
    (slot <<< (Nat.log2 target.hashBlockSize - target.hashPerBlockBits)) digestSize

variable (sha256 : Bytes → FixedBytes 32)

/-- The hash block over a data block must have the digest wanted of it; what it says of the
block below is wanted next. -/
def verifyLevel (device : Bytes) (block : Nat) (want : Bytes) (level : Nat) : Option Bytes :=
  let position := target.positionAtLevel block level
  let found := target.blockAt device level (position >>> target.hashPerBlockBits)
  if (hashBlock sha256 target.salt found).bytes = want then
    some (target.digestAt device level position)
  else none

/-- From the root down: the digest a data block must have. -/
def hashForBlock (device root : Bytes) (block : Nat) : Option Bytes :=
  (List.range target.levels).reverse.foldlM (target.verifyLevel sha256 device block) root

/-- Whether the target gives out this content of a data block. -/
def verifies (device root : Bytes) (block : Nat) (content : Bytes) : Prop :=
  target.hashForBlock sha256 device root block =
    some (hashBlock sha256 target.salt content).bytes

/-- A device with the digests where the target reads them, under one root. -/
structure Holds (device root : Bytes) (content : Nat → Bytes) : Prop where
  /-- Over the data blocks, where a level is stored. -/
  leaves : 0 < target.levels → ∀ block < target.dataBlocks,
    target.digestAt device 0 block = (hashBlock sha256 target.salt (content block)).bytes
  inner : ∀ level, level + 1 < target.levels → ∀ index < target.levelBlocks level,
    target.digestAt device (level + 1) index =
      (hashBlock sha256 target.salt (target.blockAt device level index)).bytes
  top : ∀ level, level + 1 = target.levels → target.levelBlocks level = 1 ∧
    root = (hashBlock sha256 target.salt (target.blockAt device level 0)).bytes
  /-- No level is stored over a single data block. -/
  single : target.levels = 0 → target.dataBlocks = 1 ∧
    root = (hashBlock sha256 target.salt (content 0)).bytes

end Target

/-- The target a device is opened as. -/
def Verity.target (verity : Verity) : Target where
  dataBlocks := verity.dataBlocks
  hashBlockSize := verity.hashBlockSize.toNat
  levels := verity.levels
  salt := verity.salt

/-! ## What format builds -/

section Build

variable {sha256 : Bytes → FixedBytes 32} {params : VerityParams} {data : Bytes}

/-- What `format` returns over these levels. -/
structure TreeBuilt (sha256 : Bytes → FixedBytes 32) (params : VerityParams) (data : Bytes)
    (verity : Verity) (levels : List Bytes) (top first : Bytes) : Prop where
  slots : 0 < params.hashBlockSize.toNat / digestSize
  tree : treeLevels sha256 params data (dataBlocks params data) = some levels
  last : levels.getLast? = some top
  superblock : superblock params (dataBlocks params data) = some first
  root : verity.rootHash = hashBlock sha256 params.salt top
  device : verity.hashDevice = first ++ levels.reverse.flatten
  height : verity.levels = levels.length

theorem format_wide {verity : Verity} (built : format sha256 params data = some verity) :
    0 < params.dataBlockSize.toNat := by
  by_contra none
  rw [format, if_pos (by omega)] at built
  cases built

theorem format_single {verity : Verity} (built : format sha256 params data = some verity)
    (single : dataBlocks params data = 1) :
    superblock params 1 = some verity.hashDevice ∧ verity.levels = 0 ∧
      verity.rootHash = hashBlock sha256 params.salt (dataBlock params data 0) ∧
      verity.target = ⟨dataBlocks params data, params.hashBlockSize.toNat, 0, params.salt⟩ := by
  have wide := format_wide built
  rw [format, if_neg (by omega), if_pos single, single, Option.bind_eq_bind,
    Option.bind_eq_some_iff] at built
  obtain ⟨device, framed, shape⟩ := built
  cases shape
  have start : data.take (min data.length params.dataBlockSize.toNat) =
      slice data (0 * params.dataBlockSize.toNat) params.dataBlockSize.toNat := by
    rw [Nat.zero_mul, slice, List.drop_zero, Nat.min_comm,
      ← List.take_eq_take_min]
  rw [single]
  refine ⟨framed, rfl, ?_, rfl⟩
  rw [start]
  exact hash_data_block_filled sha256 params data wide 0 (by omega)

theorem format_tree {verity : Verity} (built : format sha256 params data = some verity)
    (several : dataBlocks params data ≠ 1) :
    (∃ levels top first, TreeBuilt sha256 params data verity levels top first) ∧
      verity.target =
        ⟨dataBlocks params data, params.hashBlockSize.toNat, verity.levels, params.salt⟩ := by
  have wide := format_wide built
  rw [format, if_neg (by omega), if_neg several] at built
  by_cases slots : params.hashBlockSize.toNat / digestSize = 0
  · rw [if_pos slots] at built
    cases built
  · rw [if_neg slots] at built
    simp only [Option.bind_eq_bind, Option.bind_eq_some_iff] at built
    obtain ⟨levels, tree, top, last, first, framed, shape⟩ := built
    cases shape
    exact ⟨⟨levels, top, first, Nat.pos_of_ne_zero slots, tree, last, framed, rfl, rfl, rfl⟩, rfl⟩

/-- The blocks a target is opened over. -/
theorem format_blocks {verity : Verity} (built : format sha256 params data = some verity) :
    verity.dataBlocks = dataBlocks params data := by
  by_cases single : dataBlocks params data = 1
  · exact congrArg Target.dataBlocks (format_single built single).2.2.2
  · exact congrArg Target.dataBlocks (format_tree built single).2

section Tree

variable (sha256 params data)

/-- The leaves of the tree. -/
abbrev leaves : Bytes :=
  level digestSize params.hashBlockSize.toNat 0 (leafDigest sha256 params data)
    (List.range (dataBlocks params data))

abbrev blockDigest (block : Bytes) : Bytes := (hashBlock sha256 params.salt block).bytes

theorem length_leaf_digest (i : Nat) : (leafDigest sha256 params data i).length = digestSize :=
  FixedBytes.size _

theorem length_block_digest (block : Bytes) :
    (blockDigest sha256 params block).length = digestSize :=
  FixedBytes.size _

theorem length_leaves (slots : 0 < params.hashBlockSize.toNat / digestSize) :
    (leaves sha256 params data).length =
      dataBlocks params data ⌈/⌉ (params.hashBlockSize.toNat / digestSize) *
        params.hashBlockSize.toNat := by
  rw [leaves, length_level params.hashBlockSize.toNat 0 (leafDigest sha256 params data)
    (length_leaf_digest sha256 params data) _ slots, List.length_range]

end Tree

theorem slots_size (slots : 0 < params.hashBlockSize.toNat / digestSize) :
    0 < params.hashBlockSize.toNat :=
  Nat.pos_of_ne_zero fun empty => absurd slots (by rw [empty, Nat.zero_div]; omega)

theorem tree_tower {levels : List Bytes}
    (tree : treeLevels sha256 params data (dataBlocks params data) = some levels) :
    Tower digestSize params.hashBlockSize.toNat 0 (blockDigest sha256 params)
      (leaves sha256 params data) levels :=
  tower_of_stack _ _ _ tree

/-- Where a hash block holds two digests and the superblock fits, `format` returns. -/
theorem format_fits (wide : 0 < params.dataBlockSize.toNat)
    (slots : 2 ≤ params.hashBlockSize.toNat / digestSize) {first : Bytes}
    (framed : superblock params (dataBlocks params data) = some first) :
    ∃ verity, format sha256 params data = some verity := by
  rw [format, if_neg (by omega)]
  by_cases single : dataBlocks params data = 1
  · rw [if_pos single, framed]
    exact ⟨_, rfl⟩
  · obtain ⟨levels, tree⟩ : ∃ levels,
        treeLevels sha256 params data (dataBlocks params data) = some levels :=
      stack_ends (length_block_digest sha256 params) _ (leaves sha256 params data) _
        (length_leaves sha256 params data (by omega)) (slots_size (by omega)) slots (Nat.le_succ _)
    obtain ⟨top, last, _⟩ := tower_top (tree_tower tree)
    rw [if_neg single, if_neg (by omega), tree, framed]
    simp only [Option.bind_eq_bind, Option.bind_some, last]
    exact ⟨_, rfl⟩

theorem format_ends (wide : 0 < params.dataBlockSize.toNat)
    (room : 344 ≤ params.hashBlockSize.toNat) :
    ∃ verity, format sha256 params data = some verity := by
  have slots : 2 ≤ params.hashBlockSize.toNat / digestSize := by
    rw [Nat.le_div_iff_mul_le (by decide), digestSize]
    omega
  obtain ⟨first, framed⟩ := superblock_fits (dataBlocks params data) room
  exact format_fits wide slots framed

end Build

/-! ## Where the target looks -/

section Geometry

variable (target : Target) (bits : Nat) (wide : target.hashBlockSize = 2 ^ (bits + 5))

include wide

theorem hash_per_block_bits : target.hashPerBlockBits = bits := by
  rw [Target.hashPerBlockBits, wide, digestSize, Nat.pow_add, Nat.mul_div_cancel _ (by decide),
    Nat.log2_two_pow]

theorem level_blocks (level : Nat) :
    target.levelBlocks level = target.dataBlocks ⌈/⌉ (2 ^ bits) ^ (level + 1) := by
  rw [Target.levelBlocks, hash_per_block_bits target bits wide, Nat.shiftRight_eq_div_pow,
    Nat.ceilDiv_eq_add_pred_div, ← pow_mul, Nat.mul_comm]

/-- A digest is read at its place in the level, where the level's blocks are found. -/
theorem digest_at (device stored : Bytes) (level position count : Nat)
    (inside : position / 2 ^ bits < count)
    (found : ∀ index < count, target.blockAt device level index =
      slice stored (index * target.hashBlockSize) target.hashBlockSize) :
    target.digestAt device level position = slice stored (position * digestSize) digestSize := by
  have slots : target.hashBlockSize = 2 ^ bits * digestSize := by
    rw [wide, pow_add]
    rfl
  have slot : position % 2 ^ bits < 2 ^ bits := Nat.mod_lt _ (by positivity)
  have width : Nat.log2 (2 ^ (bits + 5)) - bits = 5 := by
    rw [Nat.log2_two_pow]
    omega
  have unit : 2 ^ 5 = digestSize := rfl
  have fits : position % 2 ^ bits * digestSize + digestSize ≤ target.hashBlockSize := by
    rw [slots, ← Nat.succ_mul]
    exact Nat.mul_le_mul_right digestSize slot
  have place : position / 2 ^ bits * target.hashBlockSize + position % 2 ^ bits * digestSize =
      position * digestSize := by
    rw [slots, ← Nat.mul_assoc, ← Nat.add_mul, Nat.div_add_mod']
  rw [Target.digestAt, hash_per_block_bits target bits wide, Nat.shiftRight_eq_div_pow,
    found _ inside, Nat.and_two_pow_sub_one_eq_mod, wide, width, Nat.shiftLeft_eq, ← wide,
    unit, slice_slice _ _ _ _ _ fits, place]

/-- The digest wanted below a level, on the way to a data block. -/
def wanted (sha256 : Bytes → FixedBytes 32) (target : Target) (device : Bytes)
    (content : Nat → Bytes) (block : Nat) : Nat → Bytes
  | 0 => (hashBlock sha256 target.salt (content block)).bytes
  | level + 1 =>
      (hashBlock sha256 target.salt
        (target.blockAt device level (block / (2 ^ bits) ^ (level + 1)))).bytes

variable {sha256 : Bytes → FixedBytes 32} {device root : Bytes} {content : Nat → Bytes}
  (holds : target.Holds sha256 device root content)

include holds

theorem verify_level (block : Nat) (inside : block < target.dataBlocks) (level : Nat)
    (stored : level < target.levels) :
    target.verifyLevel sha256 device block
        (wanted bits sha256 target device content block (level + 1)) level =
      some (wanted bits sha256 target device content block level) := by
  have position : target.positionAtLevel block level = block / (2 ^ bits) ^ level := by
    rw [Target.positionAtLevel, hash_per_block_bits target bits wide, Nat.shiftRight_eq_div_pow,
      ← pow_mul, Nat.mul_comm]
  have above : (block / (2 ^ bits) ^ level) >>> target.hashPerBlockBits =
      block / (2 ^ bits) ^ (level + 1) := by
    rw [hash_per_block_bits target bits wide, Nat.shiftRight_eq_div_pow, Nat.div_div_eq_div_mul,
      ← pow_succ]
  rw [Target.verifyLevel, position, above, wanted, if_pos rfl]
  apply congrArg some
  cases level with
  | zero =>
      rw [pow_zero, Nat.div_one]
      exact holds.leaves stored block inside
  | succ level =>
      apply holds.inner level stored
      rw [level_blocks target bits wide]
      exact div_lt_ceil_div _ _ _ inside (by positivity)

/-- From the root of the tree to the digest of any data block. -/
theorem verifies_of_holds (block : Nat) (inside : block < target.dataBlocks) :
    target.verifies sha256 device root block (content block) := by
  have walk : ∀ count ≤ target.levels,
      (List.range count).reverse.foldlM (target.verifyLevel sha256 device block)
          (wanted bits sha256 target device content block count) =
        some (wanted bits sha256 target device content block 0) := by
    intro count
    induction count with
    | zero => exact fun _ => rfl
    | succ count ih =>
        intro stored
        rw [List.range_succ, List.reverse_append, List.reverse_singleton, List.singleton_append,
          List.foldlM_cons, verify_level target bits wide holds block inside count stored]
        exact ih (Nat.le_of_succ_le stored)
  have start : root = wanted bits sha256 target device content block target.levels := by
    rcases Nat.eq_zero_or_pos target.levels with none | stored
    · obtain ⟨single, root⟩ := holds.single none
      have only : block = 0 := by omega
      rw [root, none, only, wanted]
    · obtain ⟨level, height⟩ : ∃ level, level + 1 = target.levels := ⟨_, Nat.sub_add_cancel stored⟩
      obtain ⟨single, root⟩ := holds.top level height
      have only : block / (2 ^ bits) ^ (level + 1) = 0 := by
        have below := div_lt_ceil_div block target.dataBlocks ((2 ^ bits) ^ (level + 1)) inside
          (by positivity)
        rw [← level_blocks target bits wide, single] at below
        exact Nat.lt_one_iff.mp below
      rw [root, ← height, wanted, only]
  rw [Target.verifies, Target.hashForBlock, start]
  exact walk target.levels le_rfl

end Geometry

section Layout

variable {sha256 : Bytes → FixedBytes 32} {params : VerityParams} {data : Bytes} {verity : Verity}
  {levels : List Bytes} {top first : Bytes}
  (built : TreeBuilt sha256 params data verity levels top first)
  (geometry : verity.target =
    ⟨dataBlocks params data, params.hashBlockSize.toNat, verity.levels, params.salt⟩)
  (bits : Nat) (wide : params.hashBlockSize.toNat = 2 ^ (bits + 5))

include wide

theorem slots_eq : params.hashBlockSize.toNat / digestSize = 2 ^ bits := by
  rw [wide, pow_add]
  exact Nat.mul_div_cancel _ (by decide)

include geometry

theorem level_count (level : Nat) :
    verity.target.levelBlocks level =
      dataBlocks params data ⌈/⌉ (2 ^ bits) ^ (level + 1) := by
  rw [level_blocks verity.target bits (by rw [geometry]; exact wide), geometry]

/-- A position of one level lies in a block of the next. -/
theorem over_inside (level index : Nat) (inside : index < verity.target.levelBlocks level) :
    index / 2 ^ bits < verity.target.levelBlocks (level + 1) := by
  rw [level_count geometry bits wide] at inside ⊢
  rw [pow_succ _ (level + 1), ← ceil_div_ceil_div _ _ _ (by positivity) (by positivity)]
  exact div_lt_ceil_div index _ _ inside (by positivity)

include built

theorem tree_level (level : Nat) (stored : Bytes) (found : levels[level]? = some stored) :
    stored.length = verity.target.levelBlocks level * params.hashBlockSize.toNat := by
  have leaves := length_leaves sha256 params data built.slots
  rw [level_count geometry bits wide,
    tower_lengths (length_block_digest sha256 params) (tree_tower built.tree) _ leaves
      (slots_size built.slots) built.slots level stored found, slots_eq bits wide,
    ceil_div_ceil_div _ _ _ (by positivity) (by positivity), pow_succ']

theorem tree_lengths :
    levels.map List.length = (List.range verity.target.levels).map
      fun level => verity.target.levelBlocks level * params.hashBlockSize.toNat := by
  have height : verity.target.levels = levels.length :=
    (congrArg Target.levels geometry).trans built.height
  apply List.ext_getElem
  · rw [List.length_map, List.length_map, List.length_range, height]
  · intro i left right
    rw [List.getElem_map, List.getElem_map, List.getElem_range]
    rw [List.length_map] at left
    exact tree_level built geometry bits wide i levels[i] (List.getElem?_eq_getElem left)

/-- The levels lie where the target looks for them. -/
theorem block_at (level : Nat) (stored : Bytes) (found : levels[level]? = some stored)
    (index : Nat) (inside : index < verity.target.levelBlocks level) :
    verity.target.blockAt verity.hashDevice level index =
      slice stored (index * verity.target.hashBlockSize) verity.target.hashBlockSize := by
  have size : verity.target.hashBlockSize = params.hashBlockSize.toNat :=
    congrArg Target.hashBlockSize geometry
  have above : ((levels.drop (level + 1)).map List.length).sum =
      (((List.range verity.target.levels).drop (level + 1)).map verity.target.levelBlocks).sum *
        params.hashBlockSize.toNat := by
    rw [List.map_drop, tree_lengths built geometry bits wide, ← List.map_drop,
      List.sum_map_mul_right]
  have within : index * params.hashBlockSize.toNat + params.hashBlockSize.toNat ≤
      stored.length := by
    rw [tree_level built geometry bits wide level stored found, ← Nat.succ_mul]
    exact Nat.mul_le_mul_right _ inside
  have laid := slice_reverse_flatten levels level stored found
    (index * params.hashBlockSize.toNat) params.hashBlockSize.toNat within
  have place : (verity.target.hashLevelBlock level + index) * params.hashBlockSize.toNat =
      first.length + (((levels.drop (level + 1)).map List.length).sum +
        index * params.hashBlockSize.toNat) := by
    rw [Target.hashLevelBlock, above, length_superblock _ first built.superblock]
    ring
  rw [Target.blockAt, size, built.device, place, slice_append_right, laid]

/-- The levels end at the first that is one block. -/
theorem tree_height :
    (∀ level, level + 1 < levels.length → 1 < verity.target.levelBlocks level) ∧
      ∃ last, levels.length = last + 1 ∧ verity.target.levelBlocks last = 1 := by
  have leaves := length_leaves sha256 params data built.slots
  have combine : ∀ level,
      dataBlocks params data ⌈/⌉ (params.hashBlockSize.toNat / digestSize) ⌈/⌉
          (params.hashBlockSize.toNat / digestSize) ^ level =
        verity.target.levelBlocks level := by
    intro level
    rw [level_count geometry bits wide, slots_eq bits wide,
      ceil_div_ceil_div _ _ _ (by positivity) (by positivity), pow_succ']
  have height := tower_height (length_block_digest sha256 params) (tree_tower built.tree) _ leaves
    (slots_size built.slots) built.slots
  simp only [combine] at height
  obtain ⟨wider, last, length, single⟩ := height
  have some : 1 ≤ verity.target.levelBlocks last := by
    rw [level_count geometry bits wide]
    exact one_le_ceil_div _ _ (Nat.le_max_right _ 1) (by positivity)
  exact ⟨wider, last, length, Nat.le_antisymm single some⟩

/-- Over the data blocks. -/
theorem leaves_hold (page : 0 < params.dataBlockSize.toNat) (block : Nat)
    (inside : block < dataBlocks params data) :
    verity.target.digestAt verity.hashDevice 0 block =
      (hashBlock sha256 params.salt (dataBlock params data block)).bytes := by
  have size : verity.target.hashBlockSize = 2 ^ (bits + 5) := by rw [geometry]; exact wide
  have start : block / 2 ^ bits < verity.target.levelBlocks 0 := by
    rw [level_count geometry bits wide, Nat.zero_add, pow_one]
    exact div_lt_ceil_div block _ _ inside (by positivity)
  have lowest := tower_head (tree_tower built.tree)
  rw [digest_at verity.target bits size verity.hashDevice _ 0 block _ start
      (block_at built geometry bits wide 0 _ lowest),
    slice_level params.hashBlockSize.toNat 0 (leafDigest sha256 params data)
      (length_leaf_digest sha256 params data) _ block block (List.getElem?_range inside),
    leafDigest, hash_data_block_filled sha256 params data page block inside]

/-- Over the blocks of a level. -/
theorem inner_holds (level : Nat) (stored : level + 1 < levels.length) (index : Nat)
    (inside : index < verity.target.levelBlocks level) :
    verity.target.digestAt verity.hashDevice (level + 1) index =
      (hashBlock sha256 params.salt
        (verity.target.blockAt verity.hashDevice level index)).bytes := by
  have size : verity.target.hashBlockSize = 2 ^ (bits + 5) := by rw [geometry]; exact wide
  have lower : levels[level]? = some levels[level] := List.getElem?_eq_getElem (by omega)
  have upper : levels[level + 1]? = some levels[level + 1] := List.getElem?_eq_getElem stored
  have entry := get_blocks params.hashBlockSize.toNat levels[level] index (by
    rw [tree_level built geometry bits wide level _ lower,
      Nat.mul_div_cancel _ (slots_size built.slots)]
    exact inside)
  rw [digest_at verity.target bits size verity.hashDevice _ (level + 1) index _
      (over_inside geometry bits wide level index inside)
      (block_at built geometry bits wide (level + 1) _ upper),
    block_at built geometry bits wide level _ lower index inside,
    tower_link (tree_tower built.tree) level _ _ lower upper, above,
    slice_level params.hashBlockSize.toNat 0 (blockDigest sha256 params)
      (length_block_digest sha256 params) _ index _ entry, geometry]

/-- The top is one block, and the root is its digest. -/
theorem top_holds (level : Nat) (last : level + 1 = levels.length) :
    verity.target.levelBlocks level = 1 ∧
      verity.rootHash =
        hashBlock sha256 params.salt (verity.target.blockAt verity.hashDevice level 0) := by
  obtain ⟨_, final, length, single⟩ := tree_height built geometry bits wide
  have same : final = level := by omega
  rw [same] at single
  have found : levels[level]? = some top := by
    rw [← built.last, List.getLast?_eq_getElem?, ← last, Nat.add_sub_cancel]
  have whole := tree_level built geometry bits wide level top found
  rw [single, Nat.one_mul] at whole
  apply And.intro single
  rw [built.root, block_at built geometry bits wide level top found 0 (by omega), Nat.zero_mul,
    slice_whole top _ (by rw [whole, geometry])]

/-- The digests stand where the target reads them. -/
theorem tree_holds (page : 0 < params.dataBlockSize.toNat) :
    verity.target.Holds sha256 verity.hashDevice verity.rootHash.bytes
      (dataBlock params data) := by
  have salt : verity.target.salt = params.salt := by rw [geometry]
  have amount : verity.target.dataBlocks = dataBlocks params data := by rw [geometry]
  have height : verity.target.levels = levels.length := by rw [geometry]; exact built.height
  obtain ⟨_, final, length, _⟩ := tree_height built geometry bits wide
  constructor
  · intro _ block inside
    rw [salt]
    exact leaves_hold built geometry bits wide page block (amount ▸ inside)
  · intro level stored
    rw [salt]
    exact inner_holds built geometry bits wide level (height ▸ stored)
  · intro level last
    rw [salt]
    obtain ⟨single, root⟩ := top_holds built geometry bits wide level (last.trans height)
    exact ⟨single, congrArg FixedBytes.bytes root⟩
  · intro none
    omega

end Layout

/-! ## Every block of the image passes -/

/-- A device the kernel opens: its superblock says how it was built, its tree has the levels
the target counts and fills the rest of it, and every data block verifies. -/
structure Opens (sha256 : Bytes → FixedBytes 32) (params : VerityParams) (data : Bytes)
    (verity : Verity) : Prop where
  blocks : verity.dataBlocks = dataBlocks params data
  target : verity.target =
    ⟨verity.dataBlocks, params.hashBlockSize.toNat, verity.levels, params.salt⟩
  superblock : SuperblockReads params verity.dataBlocks verity.hashDevice
  height : IsLeast {levels | (verity.dataBlocks - 1) >>>
    (verity.target.hashPerBlockBits * levels) = 0} verity.levels
  size : verity.hashDevice.length =
    (1 + ((List.range verity.levels).map verity.target.levelBlocks).sum) *
      params.hashBlockSize.toNat
  holds : verity.target.Holds sha256 verity.hashDevice verity.rootHash.bytes
    (dataBlock params data)
  verifies : ∀ block < verity.dataBlocks,
    verity.target.verifies sha256 verity.hashDevice verity.rootHash.bytes block
      (dataBlock params data block)

/-- The count of the kernel's loop and the count of blocks at its end. -/
theorem shift_zero_iff (bits blocks levels : Nat) (some : 1 ≤ blocks) :
    (blocks - 1) >>> (bits * levels) = 0 ↔ blocks ⌈/⌉ (2 ^ bits) ^ levels ≤ 1 := by
  rw [Nat.shiftRight_eq_div_pow, Nat.div_eq_zero_iff_lt (by positivity), pow_mul,
    ceilDiv_le_iff_le_mul (by positivity), Nat.mul_one]
  omega

section Opening

variable {sha256 : Bytes → FixedBytes 32} {params : VerityParams} {data : Bytes} {verity : Verity}
  (built : format sha256 params data = some verity) (bits : Nat)
  (wide : params.hashBlockSize.toNat = 2 ^ (bits + 5)) (salt : params.salt.length ≤ 256)

include built wide salt

theorem opens_single (single : dataBlocks params data = 1) : Opens sha256 params data verity := by
  obtain ⟨framed, none, root, geometry⟩ := format_single built single
  have blocks := format_blocks built
  have reads := superblock_reads 1 verity.hashDevice [] framed salt
  rw [List.append_nil] at reads
  have holds : verity.target.Holds sha256 verity.hashDevice verity.rootHash.bytes
      (dataBlock params data) := by
    rw [geometry]
    constructor
    · exact fun stored => absurd stored (Nat.lt_irrefl 0)
    · exact fun _ stored => absurd stored (Nat.not_lt_zero _)
    · exact fun _ last => absurd last (Nat.succ_ne_zero _)
    · exact fun _ => ⟨single, congrArg FixedBytes.bytes root⟩
  constructor
  · exact blocks
  · rw [geometry, blocks, none]
  · rw [blocks, single]
    exact reads
  · rw [none, blocks, single]
    exact ⟨Nat.zero_shiftRight _, fun _ _ => Nat.zero_le _⟩
  · rw [none, length_superblock 1 _ framed, List.range_zero, List.map_nil, List.sum_nil,
      Nat.add_zero, Nat.one_mul]
  · exact holds
  · intro block inside
    apply verifies_of_holds verity.target bits (by rw [geometry]; exact wide) holds
    rw [geometry, ← blocks]
    exact inside

theorem opens_tree (page : 0 < params.dataBlockSize.toNat) (several : dataBlocks params data ≠ 1) :
    Opens sha256 params data verity := by
  obtain ⟨⟨levels, top, first, tree⟩, geometry⟩ := format_tree built several
  have blocks := format_blocks built
  have some : 1 ≤ dataBlocks params data := Nat.le_max_right _ 1
  have reads := superblock_reads _ first levels.reverse.flatten tree.superblock salt
  have holds := tree_holds tree geometry bits wide page
  have size : verity.target.hashBlockSize = 2 ^ (bits + 5) := by rw [geometry]; exact wide
  obtain ⟨wider, last, length, single⟩ := tree_height tree geometry bits wide
  constructor
  · exact blocks
  · rw [geometry, blocks]
  · rw [blocks, tree.device]
    exact reads
  · rw [blocks, hash_per_block_bits verity.target bits size, tree.height]
    constructor
    · rw [level_count geometry bits wide] at single
      rw [Set.mem_ofPred_eq, shift_zero_iff bits _ _ some, length]
      exact single.le
    · intro count ends
      rw [Set.mem_ofPred_eq, shift_zero_iff bits _ _ some] at ends
      by_contra fewer
      cases count with
      | zero =>
          rw [pow_zero, ceilDiv_one] at ends
          omega
      | succ level =>
          have more := wider level (by omega)
          rw [level_count geometry bits wide] at more
          omega
  · have levels_eq : verity.levels = verity.target.levels := by rw [geometry]
    rw [tree.device, List.length_append, length_superblock _ first tree.superblock,
      List.length_flatten, List.map_reverse, List.sum_reverse,
      tree_lengths tree geometry bits wide, List.sum_map_mul_right, Nat.add_mul, Nat.one_mul,
      levels_eq]
  · exact holds
  · intro block inside
    apply verifies_of_holds verity.target bits size holds
    rw [geometry, ← blocks]
    exact inside

end Opening

theorem every_block_verifies (sha256 : Bytes → FixedBytes 32) (params : VerityParams)
    (data : Bytes) (dataPower : ∃ j, params.dataBlockSize.toNat = 2 ^ j)
    (hashPower : ∃ k, params.hashBlockSize.toNat = 2 ^ k)
    (dataWide : 512 ≤ params.dataBlockSize.toNat) (hashWide : 512 ≤ params.hashBlockSize.toNat)
    (salt : params.salt.length ≤ 256) :
    ∃ verity, format sha256 params data = some verity ∧ Opens sha256 params data verity := by
  obtain ⟨verity, built⟩ := @format_ends sha256 params data (by omega) (by omega)
  obtain ⟨k, power⟩ := hashPower
  have enough : 9 ≤ k := by
    rw [power] at hashWide
    exact (Nat.pow_le_pow_iff_right Nat.one_lt_two).mp hashWide
  have wide : params.hashBlockSize.toNat = 2 ^ (k - 5 + 5) := by
    rw [power, Nat.sub_add_cancel (by omega)]
  refine ⟨verity, built, ?_⟩
  by_cases single : dataBlocks params data = 1
  · exact opens_single built (k - 5) wide salt single
  · exact opens_tree built (k - 5) wide salt (by omega) single

/-- A base of a few bytes under the defaults. -/
theorem default_image_verifies :
    ∃ verity, format (fun bytes => FixedBytes.ofBytes 32 bytes) defaultParams [1, 2, 3] =
      some verity ∧
        Opens (fun bytes => FixedBytes.ofBytes 32 bytes) defaultParams [1, 2, 3] verity :=
  every_block_verifies _ defaultParams [1, 2, 3] ⟨12, by decide⟩ ⟨12, by decide⟩ (by decide)
    (by decide) (by decide)

end HorizonOs.Keybuild.DmVerity
