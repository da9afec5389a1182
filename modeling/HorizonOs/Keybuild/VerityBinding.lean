import HorizonOs.Keybuild.VerityPath

/-!
# What a root hash pins

Two images with one root are one image, as long as no two of the blocks that were hashed for
them collide under the salt.
-/

namespace HorizonOs.Keybuild.DmVerity

open HorizonOs.Lib.ByteCodec HorizonOs.Lib.Buffer HorizonOs.Lib.HashTree

set_option autoImplicit false

/-- Every block `format` hashes: the data blocks, and over two or more the blocks of the tree. -/
def hashedBlocks (sha256 : Bytes → FixedBytes 32) (params : VerityParams) (data : Bytes) :
    Set Bytes :=
  {block | (∃ i < dataBlocks params data, block = dataBlock params data i) ∨
    (dataBlocks params data ≠ 1 ∧
      ∃ levels, treeLevels sha256 params data (dataBlocks params data) = some levels ∧
        ∃ level ∈ levels, block ∈ blocks params.hashBlockSize.toNat level)}

section Tree

variable {sha256 : Bytes → FixedBytes 32} {params : VerityParams} {data : Bytes} {tree : Verity}
  {levels : List Bytes} {top first : Bytes}
  (built : TreeBuilt sha256 params data tree levels top first)

include built

theorem block_hashed (several : dataBlocks params data ≠ 1) (level : Bytes)
    (member : level ∈ levels) (block : Bytes)
    (inside : block ∈ blocks params.hashBlockSize.toNat level) :
    block ∈ hashedBlocks sha256 params data :=
  Or.inr ⟨several, levels, built.tree, level, member, inside⟩

theorem top_hashed (several : dataBlocks params data ≠ 1) :
    top ∈ hashedBlocks sha256 params data := by
  have slots := built.slots
  have whole : top.length = params.hashBlockSize.toNat :=
    tower_top_whole (length_block_digest sha256 params) (tree_tower built.tree) _
      (length_leaves sha256 params data slots)
      (one_le_ceil_div _ _ (Nat.le_max_right _ 1) slots) (slots_size slots) slots top built.last
  apply block_hashed built several top (List.mem_of_getLast? built.last)
  rw [blocks_single _ _ (slots_size slots) whole]
  exact List.mem_singleton_self top

end Tree

section Binding

variable {sha256 : Bytes → FixedBytes 32} {params : VerityParams} {left right : Bytes}
  (same : dataBlocks params left = dataBlocks params right)

include same

/-- An image is its blocks. -/
theorem image_eq_of_blocks (wide : 0 < params.dataBlockSize.toNat)
    (equal : ∀ i < dataBlocks params left, dataBlock params left i = dataBlock params right i) :
    image params left = image params right := by
  have leftWhole := length_image params left wide
  have rightWhole := length_image params right wide
  rw [← same] at rightWhole
  apply eq_of_blocks _ _ _ _ wide leftWhole rightWhole
  apply List.ext_getElem?
  intro i
  by_cases inside : i < dataBlocks params left
  · rw [get_blocks _ _ i (by rw [leftWhole, Nat.mul_div_cancel _ wide]; exact inside),
      get_blocks _ _ i (by rw [rightWhole, Nat.mul_div_cancel _ wide]; exact inside)]
    exact congrArg some (equal i inside)
  · rw [List.getElem?_eq_none, List.getElem?_eq_none]
    · rw [length_blocks, rightWhole, Nat.mul_div_cancel _ wide]
      omega
    · rw [length_blocks, leftWhole, Nat.mul_div_cancel _ wide]
      omega

variable
  (apart : Set.InjOn (hashBlock sha256 params.salt)
    (hashedBlocks sha256 params left ∪ hashedBlocks sha256 params right))

include apart

/-- Equal digests of a data block are digests of one block. -/
theorem data_block_bound (i : Nat) (inside : i < dataBlocks params left)
    (equal : hashBlock sha256 params.salt (dataBlock params left i) =
      hashBlock sha256 params.salt (dataBlock params right i)) :
    dataBlock params left i = dataBlock params right i :=
  apart (Or.inl (Or.inl ⟨i, inside, rfl⟩)) (Or.inr (Or.inl ⟨i, same ▸ inside, rfl⟩)) equal

variable {leftTree rightTree : Verity} {leftLevels rightLevels : List Bytes}
  {leftTop leftFirst rightTop rightFirst : Bytes}
  (leftBuilt : TreeBuilt sha256 params left leftTree leftLevels leftTop leftFirst)
  (rightBuilt : TreeBuilt sha256 params right rightTree rightLevels rightTop rightFirst)
  (several : dataBlocks params left ≠ 1)

include leftBuilt rightBuilt several

theorem top_bound (root : leftTree.rootHash = rightTree.rootHash) : leftTop = rightTop := by
  rw [leftBuilt.root, rightBuilt.root] at root
  exact apart (Or.inl (top_hashed leftBuilt several))
    (Or.inr (top_hashed rightBuilt (same ▸ several))) root

theorem leaves_bound (root : leftTree.rootHash = rightTree.rootHash) :
    leaves sha256 params left = leaves sha256 params right := by
  have slots := leftBuilt.slots
  have leftWhole := length_leaves sha256 params left slots
  have rightWhole := length_leaves sha256 params right slots
  rw [← same] at rightWhole
  have hashed : ∀ block, (∃ level ∈ leftLevels, block ∈ blocks params.hashBlockSize.toNat level) ∨
      (∃ level ∈ rightLevels, block ∈ blocks params.hashBlockSize.toNat level) →
        block ∈ hashedBlocks sha256 params left ∪ hashedBlocks sha256 params right := by
    intro block member
    rcases member with ⟨level, member, inside⟩ | ⟨level, member, inside⟩
    · exact Or.inl (block_hashed leftBuilt several level member block inside)
    · exact Or.inr (block_hashed rightBuilt (same ▸ several) level member block inside)
  apply tower_binds (length_block_digest sha256 params) (tree_tower leftBuilt.tree)
    (tree_tower rightBuilt.tree) _ leftWhole rightWhole (slots_size slots) slots
  · intro block member other inside equal
    exact apart (hashed block member) (hashed other inside) (FixedBytes.ext equal)
  · rw [leftBuilt.last, rightBuilt.last,
      top_bound same apart leftBuilt rightBuilt several root]

theorem digests_bound (wide : 0 < params.dataBlockSize.toNat)
    (root : leftTree.rootHash = rightTree.rootHash) (i : Nat)
    (inside : i < dataBlocks params left) :
    hashBlock sha256 params.salt (dataBlock params left i) =
      hashBlock sha256 params.salt (dataBlock params right i) := by
  have packed := leaves_bound same apart leftBuilt rightBuilt several root
  have leftSlot := slice_level params.hashBlockSize.toNat 0 (leafDigest sha256 params left)
    (length_leaf_digest sha256 params left) (List.range (dataBlocks params left)) i i
    (List.getElem?_range inside)
  have rightSlot := slice_level params.hashBlockSize.toNat 0 (leafDigest sha256 params right)
    (length_leaf_digest sha256 params right) (List.range (dataBlocks params right)) i i
    (List.getElem?_range (same ▸ inside))
  rw [leaves, leaves] at packed
  rw [packed, rightSlot, leafDigest, leafDigest,
    hash_data_block_filled sha256 params right wide i (same ▸ inside),
    hash_data_block_filled sha256 params left wide i inside] at leftSlot
  exact FixedBytes.ext leftSlot.symm

end Binding

/-- The root pins the image: where it is the same the images are, and a data block that
differs moves it. -/
theorem root_binds_image (sha256 : Bytes → FixedBytes 32) (params : VerityParams)
    (left right : Bytes) (leftTree rightTree : Verity)
    (leftBuilt : format sha256 params left = some leftTree)
    (rightBuilt : format sha256 params right = some rightTree)
    (same : leftTree.dataBlocks = rightTree.dataBlocks)
    (apart : Set.InjOn (hashBlock sha256 params.salt)
      (hashedBlocks sha256 params left ∪ hashedBlocks sha256 params right)) :
    (leftTree.rootHash = rightTree.rootHash → image params left = image params right) ∧
      ∀ i < leftTree.dataBlocks, dataBlock params left i ≠ dataBlock params right i →
        leftTree.rootHash ≠ rightTree.rootHash := by
  have wide := format_wide leftBuilt
  rw [format_blocks leftBuilt, format_blocks rightBuilt] at same
  have bound : leftTree.rootHash = rightTree.rootHash →
      ∀ i < dataBlocks params left, dataBlock params left i = dataBlock params right i := by
    intro root i inside
    apply data_block_bound same apart i inside
    by_cases single : dataBlocks params left = 1
    · obtain ⟨_, _, leftRoot, _⟩ := format_single leftBuilt single
      obtain ⟨_, _, rightRoot, _⟩ := format_single rightBuilt (same ▸ single)
      have first : i = 0 := by omega
      rw [first, ← leftRoot, ← rightRoot, root]
    · obtain ⟨⟨_, _, _, leftShape⟩, _⟩ := format_tree leftBuilt single
      obtain ⟨⟨_, _, _, rightShape⟩, _⟩ := format_tree rightBuilt (same ▸ single)
      exact digests_bound same apart leftShape rightShape single wide root i inside
  constructor
  · intro root
    exact image_eq_of_blocks same wide (bound root)
  · intro i inside differs root
    rw [format_blocks leftBuilt] at inside
    exact differs (bound root i inside)

/-! ## Two images that differ by the padding -/

/-- Keeps the length and the first bytes of what it hashes. -/
def lengthHash (bytes : Bytes) : FixedBytes 32 :=
  FixedBytes.ofBytes 32 (UInt8.ofNat bytes.length :: bytes)

/-- Data blocks of two bytes, hash blocks with room for two digests. -/
def smallParams : VerityParams := ⟨2, 88, [], FixedBytes.ofBytes 16 []⟩

def smallLeaves : Bytes := leaves lengthHash smallParams [1, 2, 3]

theorem small_levels (data : Bytes) (either : data = [1, 2, 3] ∨ data = [1, 2, 3, 0]) :
    treeLevels lengthHash smallParams data (dataBlocks smallParams data) = some [smallLeaves] := by
  rcases either with rfl | rfl <;> decide +kernel

theorem small_hashed (data : Bytes) (either : data = [1, 2, 3] ∨ data = [1, 2, 3, 0])
    (block : Bytes) (hashed : block ∈ hashedBlocks lengthHash smallParams data) :
    block ∈ [[1, 2], [3, 0], smallLeaves] := by
  have two : dataBlocks smallParams data = 2 := by rcases either with rfl | rfl <;> decide
  rcases hashed with ⟨i, inside, rfl⟩ | ⟨_, levels, built, level, member, inside⟩
  · rw [two] at inside
    have which : i = 0 ∨ i = 1 := by omega
    rcases which with rfl | rfl <;> rcases either with rfl | rfl <;> decide +kernel
  · rw [small_levels data either] at built
    cases built
    rw [List.mem_singleton.mp member] at inside
    have whole : blocks smallParams.hashBlockSize.toNat smallLeaves = [smallLeaves] := by
      decide +kernel
    rw [whole, List.mem_singleton] at inside
    rw [inside]
    exact List.mem_of_mem_getLast? rfl

theorem short_image_bound :
    ∃ leftTree rightTree, format lengthHash smallParams [1, 2, 3] = some leftTree ∧
      format lengthHash smallParams [1, 2, 3, 0] = some rightTree ∧
      (leftTree.rootHash = rightTree.rootHash →
        image smallParams [1, 2, 3] = image smallParams [1, 2, 3, 0]) ∧
      ∀ i < leftTree.dataBlocks,
        dataBlock smallParams [1, 2, 3] i ≠ dataBlock smallParams [1, 2, 3, 0] i →
          leftTree.rootHash ≠ rightTree.rootHash := by
  obtain ⟨leftTree, leftBuilt⟩ : ∃ tree, format lengthHash smallParams [1, 2, 3] = some tree :=
    Option.isSome_iff_exists.mp (by decide +kernel)
  obtain ⟨rightTree, rightBuilt⟩ : ∃ tree, format lengthHash smallParams [1, 2, 3, 0] = some tree :=
    Option.isSome_iff_exists.mp (by decide +kernel)
  have apart : ∀ block ∈ [[1, 2], [3, 0], smallLeaves], ∀ other ∈ [[1, 2], [3, 0], smallLeaves],
      hashBlock lengthHash smallParams.salt block = hashBlock lengthHash smallParams.salt other →
        block = other := by decide +kernel
  have listed : ∀ block ∈ hashedBlocks lengthHash smallParams [1, 2, 3] ∪
      hashedBlocks lengthHash smallParams [1, 2, 3, 0],
        block ∈ [[1, 2], [3, 0], smallLeaves] := by
    intro block member
    rcases member with inLeft | inRight
    · exact small_hashed _ (Or.inl rfl) block inLeft
    · exact small_hashed _ (Or.inr rfl) block inRight
  refine ⟨leftTree, rightTree, leftBuilt, rightBuilt, ?_⟩
  apply root_binds_image lengthHash smallParams _ _ leftTree rightTree leftBuilt rightBuilt
  · rw [format_blocks leftBuilt, format_blocks rightBuilt]
    decide
  · intro block member other inside equal
    exact apart block (listed block member) other (listed other inside) equal

end HorizonOs.Keybuild.DmVerity
