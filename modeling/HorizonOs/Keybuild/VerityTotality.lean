import Mathlib
import HorizonOs.Keybuild.VerityPath
import HorizonOs.Lib.Machine
import HorizonOs.Lib.Runs

/-!
# The hash device on every parameter set

`format` with each division, each slice and each round of its loop looked at, and the parameters
for which it returns: those whose superblock fits in a hash block.
-/

namespace HorizonOs.Keybuild.DmVerity

open HorizonOs.Lib.ByteCodec HorizonOs.Lib.Buffer HorizonOs.Lib.Text HorizonOs.Lib.HashTree
open HorizonOs.Lib.Machine HorizonOs.Lib.Runs

set_option autoImplicit false

/-- Why `format` does not return. -/
inductive Failure where
  | dividedByZero
  | outOfRange
  /-- The loop over the levels has not ended. -/
  | endless
  deriving DecidableEq

namespace Checked

def divCeil (n d : Nat) : Except Failure Nat :=
  if d = 0 then .error .dividedByZero else .ok (n ⌈/⌉ d)

abbrev copy (block : Bytes) (offset : Nat) (bytes : Bytes) : Except Failure Bytes :=
  checkedPut .outOfRange block offset bytes

abbrev cut (bytes : Bytes) (start stop : Nat) : Except Failure Bytes :=
  checkedSlice .outOfRange bytes start stop

def superblock (params : VerityParams) (dataBlocks : Nat) : Except Failure Bytes := do
  let sb := List.replicate params.hashBlockSize.toNat 0
  let sb ← copy sb 0 (utf8 "verity\x00\x00")
  let sb ← copy sb 8 (encodeLE 4 1)
  let sb ← copy sb 12 (encodeLE 4 1)
  let sb ← copy sb 16 params.uuid.bytes
  let sb ← copy sb 32 (utf8 "sha256")
  let sb ← copy sb 64 (encodeLE 4 params.dataBlockSize.toNat)
  let sb ← copy sb 68 (encodeLE 4 params.hashBlockSize.toNat)
  let sb ← copy sb 72 (encodeLE 8 dataBlocks)
  let salt ← cut params.salt 0 (min params.salt.length 256)
  let sb ← copy sb 80 (encodeLE 2 salt.length)
  copy sb 88 salt

section Format

variable (sha256 : Bytes → FixedBytes 32)

def leafDigest (params : VerityParams) (data : Bytes) (i : Nat) : Except Failure Bytes := do
  let dbs := params.dataBlockSize.toNat
  let start := i * dbs
  let block ← cut data start (min (start + dbs) data.length)
  pure (hashDataBlock sha256 params.salt block dbs).bytes

/-- The loop over the levels, for so many rounds. -/
def stackLevels (params : VerityParams) (rounds : Nat) (leaves : Bytes) :
    Except Failure (List Bytes) :=
  match stack digestSize params.hashBlockSize.toNat 0 (blockDigest sha256 params) rounds leaves with
  | some levels => .ok levels
  | none => .error .endless

def treeLevels (params : VerityParams) (data : Bytes) (dataBlocks rounds : Nat) :
    Except Failure (List Bytes) := do
  let hbs := params.hashBlockSize.toNat
  let leafBlocks ← divCeil dataBlocks (hbs / digestSize)
  let digests ← (List.range dataBlocks).mapM (leafDigest sha256 params data)
  stackLevels sha256 params rounds (pad 0 (leafBlocks * hbs) digests.flatten)

/-- What is returned over a single data block. -/
def singleVerity (params : VerityParams) (dataBlocks : Nat) (block first : Bytes) : Verity where
  hashDevice := first
  rootHash := hashDataBlock sha256 params.salt block params.dataBlockSize.toNat
  dataBlocks := dataBlocks
  levels := 0
  dataBlockSize := params.dataBlockSize
  hashBlockSize := params.hashBlockSize
  salt := params.salt
  uuid := params.uuid

def treeVerity (params : VerityParams) (dataBlocks : Nat) (levels : List Bytes) (top first : Bytes) :
    Verity where
  hashDevice := first ++ levels.reverse.flatten
  rootHash := hashBlock sha256 params.salt top
  dataBlocks := dataBlocks
  levels := levels.length
  dataBlockSize := params.dataBlockSize
  hashBlockSize := params.hashBlockSize
  salt := params.salt
  uuid := params.uuid

/-- `format`, whose loop is followed for so many rounds. -/
def format (rounds : Nat) (params : VerityParams) (data : Bytes) : Except Failure Verity := do
  let dbs := params.dataBlockSize.toNat
  let blocks ← divCeil data.length dbs
  let dataBlocks := max blocks 1
  if dataBlocks = 1 then
    let block ← cut data 0 (min data.length dbs)
    let first ← superblock params dataBlocks
    pure (singleVerity sha256 params dataBlocks block first)
  else
    let levels ← treeLevels sha256 params data dataBlocks rounds
    let top := levels.getLast?.getD []
    let first ← superblock params dataBlocks
    pure (treeVerity sha256 params dataBlocks levels top first)

end Format

end Checked

/-! ## The superblock -/

/-- The bytes that the superblock takes with its salt. -/
def superblockSize (params : VerityParams) : Nat := 88 + min params.salt.length 256

/-- A copy goes out of range, or the next one does. -/
theorem copy_then_out {α : Type} (block : Bytes) (offset : Nat) (bytes : Bytes)
    (next : Bytes → Except Failure α)
    (out : ∀ after : Bytes, after.length = block.length → next after = .error .outOfRange) :
    (Checked.copy block offset bytes >>= next) = .error .outOfRange := by
  rw [Checked.copy, checkedPut]
  split
  · exact out _ (length_put block offset bytes)
  · rfl

theorem copy_within {block bytes : Bytes} {offset size : Nat} {next : Bytes → Except Failure Bytes}
    {result : Except Failure Bytes} (whole : block.length = size) (inside : offset + bytes.length ≤ size)
    (rest : (put block offset bytes).length = size → next (put block offset bytes) = result) :
    (Checked.copy block offset bytes >>= next) = result := by
  rw [Checked.copy, checked_put_ok (whole.symm ▸ inside)]
  exact rest ((length_put block offset bytes).trans whole)

theorem checked_superblock (params : VerityParams) (dataBlocks : Nat) :
    Checked.superblock params dataBlocks =
      match superblock params dataBlocks with
      | some first => .ok first
      | none => .error .outOfRange := by
  have salt : (params.salt.take (min params.salt.length 256)).length =
      min params.salt.length 256 := by
    rw [List.length_take]
    omega
  have cutSalt : checkedSlice Failure.outOfRange params.salt 0 (min params.salt.length 256) =
      .ok (params.salt.take (min params.salt.length 256)) :=
    checked_slice_ok (Nat.zero_le _) (Nat.min_le_left _ _)
  rw [superblock]
  dsimp only
  by_cases room : 88 + (params.salt.take (min params.salt.length 256)).length ≤
      params.hashBlockSize.toNat
  · obtain ⟨signature, algorithm⟩ := verity_text_lengths
    have uuid := params.uuid.size
    have size : (List.replicate params.hashBlockSize.toNat (0 : UInt8)).length =
      params.hashBlockSize.toNat := List.length_replicate
    rw [if_pos room, Checked.superblock]
    dsimp only
    refine copy_within size (by omega) fun size => ?_
    refine copy_within size (by rw [length_encode_le]; omega) fun size => ?_
    refine copy_within size (by rw [length_encode_le]; omega) fun size => ?_
    refine copy_within size (by omega) fun size => ?_
    refine copy_within size (by omega) fun size => ?_
    refine copy_within size (by rw [length_encode_le]; omega) fun size => ?_
    refine copy_within size (by rw [length_encode_le]; omega) fun size => ?_
    refine copy_within size (by rw [length_encode_le]; omega) fun size => ?_
    refine bind_ok cutSalt ?_
    refine copy_within size (by rw [length_encode_le]; omega) fun size => ?_
    exact checked_put_ok (by rw [size]; exact room)
  · rw [if_neg room, Checked.superblock]
    refine copy_then_out _ _ _ _ fun b₁ s₁ => copy_then_out _ _ _ _ fun b₂ s₂ =>
      copy_then_out _ _ _ _ fun b₃ s₃ => copy_then_out _ _ _ _ fun b₄ s₄ =>
      copy_then_out _ _ _ _ fun b₅ s₅ => copy_then_out _ _ _ _ fun b₆ s₆ =>
      copy_then_out _ _ _ _ fun b₇ s₇ => copy_then_out _ _ _ _ fun b₈ s₈ => ?_
    rw [Checked.cut, cutSalt]
    change (Checked.copy b₈ 80 _ >>= _) = _
    refine copy_then_out _ _ _ _ fun b₉ s₉ => ?_
    rw [Checked.copy, checkedPut, if_neg]
    rw [s₉, s₈, s₇, s₆, s₅, s₄, s₃, s₂, s₁, List.length_replicate]
    exact room

theorem superblock_is_some (params : VerityParams) (dataBlocks : Nat) :
    (superblock params dataBlocks).isSome = true ↔
      superblockSize params ≤ params.hashBlockSize.toNat := by
  have salt : (params.salt.take (min params.salt.length 256)).length =
      min params.salt.length 256 := by
    rw [List.length_take]
    omega
  rw [superblock, superblockSize]
  dsimp only
  rw [salt]
  split
  case isTrue room => exact iff_of_true rfl room
  case isFalse short => exact iff_of_false Bool.false_ne_true short

theorem two_slots (params : VerityParams)
    (room : superblockSize params ≤ params.hashBlockSize.toNat) :
    2 ≤ params.hashBlockSize.toNat / digestSize := by
  rw [superblockSize] at room
  rw [Nat.le_div_iff_mul_le (by decide), digestSize]
  omega

/-! ## The tree -/

section Build

variable (sha256 : Bytes → FixedBytes 32) (params : VerityParams) (data : Bytes)

/-- A data block begins where there is data, or at the start of an empty image. -/
theorem start_le {i : Nat} (wide : 0 < params.dataBlockSize.toNat)
    (inside : i < dataBlocks params data) : i * params.dataBlockSize.toNat ≤ data.length := by
  rcases Nat.lt_or_ge 0 i with more | first
  · have before : i < data.length ⌈/⌉ params.dataBlockSize.toNat := by
      rw [dataBlocks] at inside
      omega
    rw [← not_le, ceilDiv_le_iff_le_mul wide] at before
    rw [Nat.mul_comm]
    omega
  · rw [Nat.le_zero.mp first, Nat.zero_mul]
    exact Nat.zero_le _

theorem checked_leaf {i : Nat} (wide : 0 < params.dataBlockSize.toNat)
    (inside : i < dataBlocks params data) :
    Checked.leafDigest sha256 params data i = .ok (leafDigest sha256 params data i) := by
  have start := start_le params data wide inside
  have cut : slice data (i * params.dataBlockSize.toNat)
        (min (i * params.dataBlockSize.toNat + params.dataBlockSize.toNat) data.length -
          i * params.dataBlockSize.toNat) =
      slice data (i * params.dataBlockSize.toNat) params.dataBlockSize.toNat := by
    rw [slice, slice, List.take_eq_take_iff, List.length_drop]
    omega
  rw [Checked.leafDigest, Checked.cut, checked_slice_ok (by omega) (Nat.min_le_right _ _), cut]
  rfl

theorem checked_tree (wide : 0 < params.dataBlockSize.toNat)
    (slots : params.hashBlockSize.toNat / digestSize ≠ 0) (rounds : Nat) :
    Checked.treeLevels sha256 params data (dataBlocks params data) rounds =
      Checked.stackLevels sha256 params rounds (leaves sha256 params data) := by
  have digests := map_m_ok (List.range (dataBlocks params data)) fun i member =>
    checked_leaf sha256 params data wide (List.mem_range.mp member)
  rw [Checked.treeLevels, Checked.divCeil, if_neg slots]
  change (List.mapM (m := Except Failure) _ (List.range (dataBlocks params data)) >>= _) = _
  rw [digests]
  change Checked.stackLevels sha256 params rounds (pad 0 _ _) = _
  rw [leaves, level, List.length_range, List.flatMap_def]

/-- So many rounds are enough exactly where the levels end at all. -/
theorem tree_levels_iff (several : dataBlocks params data ≠ 1)
    (slots : params.hashBlockSize.toNat / digestSize ≠ 0) (levels : List Bytes) :
    (∃ rounds, Checked.stackLevels sha256 params rounds (leaves sha256 params data) = .ok levels) ↔
      treeLevels sha256 params data (dataBlocks params data) = some levels := by
  have whole := length_leaves sha256 params data (Nat.pos_of_ne_zero slots)
  have wide := slots_size (Nat.pos_of_ne_zero slots)
  have one : 1 ≤ dataBlocks params data := Nat.le_max_right _ _
  constructor
  · rintro ⟨rounds, ended⟩
    rw [Checked.stackLevels] at ended
    split at ended
    case h_2 => cases ended
    case h_1 found built =>
      cases ended
      rcases Nat.lt_or_ge 1 (params.hashBlockSize.toNat / digestSize) with more | single
      · obtain ⟨levels', built'⟩ := stack_ends (length_block_digest sha256 params) _
          (leaves sha256 params data) _ whole wide more (Nat.le_succ _)
        rw [stack_unique built built']
        exact built'
      · have alone := Nat.le_antisymm single (Nat.pos_of_ne_zero slots)
        rw [alone, ceilDiv_one] at whole
        rw [stack_endless (length_block_digest sha256 params) rounds (leaves sha256 params data) _
          whole wide alone (by omega)] at built
        cases built
  · intro built
    refine ⟨dataBlocks params data ⌈/⌉ (params.hashBlockSize.toNat / digestSize), ?_⟩
    rw [treeLevels] at built
    rw [Checked.stackLevels, built]

section Several

variable {data params}

theorem checked_single (wide : 0 < params.dataBlockSize.toNat)
    (single : dataBlocks params data = 1) (rounds : Nat) :
    Checked.format sha256 rounds params data =
      Checked.superblock params (dataBlocks params data) >>= fun first =>
        pure (Checked.singleVerity sha256 params (dataBlocks params data)
          (data.take (min data.length params.dataBlockSize.toNat)) first) := by
  have start : checkedSlice Failure.outOfRange data 0
      (min data.length params.dataBlockSize.toNat) =
      .ok (data.take (min data.length params.dataBlockSize.toNat)) :=
    checked_slice_ok (Nat.zero_le _) (Nat.min_le_left _ _)
  rw [Checked.format, Checked.divCeil, if_neg (by omega)]
  change (if dataBlocks params data = 1 then _ else _) = _
  rw [if_pos single, Checked.cut, start]
  rfl

theorem checked_several (wide : 0 < params.dataBlockSize.toNat)
    (several : dataBlocks params data ≠ 1) (rounds : Nat) :
    Checked.format sha256 rounds params data =
      Checked.treeLevels sha256 params data (dataBlocks params data) rounds >>= fun levels =>
        Checked.superblock params (dataBlocks params data) >>= fun first =>
          pure (Checked.treeVerity sha256 params (dataBlocks params data) levels
            (levels.getLast?.getD []) first) := by
  rw [Checked.format, Checked.divCeil, if_neg (by omega)]
  change (if dataBlocks params data = 1 then _ else _) = _
  rw [if_neg several]
  rfl

end Several

/-- Followed for enough rounds, `format` with checks returns what `format` does. -/
theorem checked_format_iff (wide : 0 < params.dataBlockSize.toNat) (verity : Verity) :
    (∃ rounds, Checked.format sha256 rounds params data = .ok verity) ↔
      format sha256 params data = some verity := by
  rw [format, if_neg (by omega)]
  by_cases single : dataBlocks params data = 1
  · simp only [checked_single sha256 wide single, checked_superblock, if_pos single]
    cases superblock params (dataBlocks params data) with
    | none =>
        refine iff_of_false ?_ (fun ended => by cases ended)
        rintro ⟨_, ended⟩
        cases ended
    | some first =>
        constructor
        · rintro ⟨_, ended⟩
          cases ended
          rfl
        · intro ended
          cases ended
          exact ⟨0, rfl⟩
  · simp only [checked_several sha256 wide single, checked_superblock, if_neg single]
    by_cases slots : params.hashBlockSize.toNat / digestSize = 0
    · rw [if_pos slots]
      refine iff_of_false ?_ (fun ended => by cases ended)
      rintro ⟨rounds, ended⟩
      rw [Checked.treeLevels, Checked.divCeil, if_pos slots] at ended
      cases ended
    · simp only [if_neg slots, checked_tree sha256 params data wide slots]
      constructor
      · rintro ⟨rounds, ended⟩
        obtain ⟨levels, built, ended⟩ := of_bind_ok ended
        have tree := (tree_levels_iff sha256 params data single slots levels).mp ⟨rounds, built⟩
        obtain ⟨top, last, -⟩ := tower_top (tree_tower tree)
        rw [tree]
        cases framed : superblock params (dataBlocks params data) with
        | none =>
            rw [framed] at ended
            cases ended
        | some first =>
            rw [framed, last] at ended
            simp only [Option.bind_eq_bind, Option.bind_some, last]
            cases ended
            rfl
      · intro ended
        simp only [Option.bind_eq_bind, Option.bind_eq_some_iff] at ended
        obtain ⟨levels, tree, top, last, first, framed, made⟩ := ended
        obtain ⟨rounds, built⟩ := (tree_levels_iff sha256 params data single slots levels).mpr tree
        refine ⟨rounds, bind_ok built ?_⟩
        rw [framed, last]
        cases made
        rfl

/-- `format` returns exactly where the superblock fits in a hash block. -/
theorem format_returns_iff (wide : 0 < params.dataBlockSize.toNat) :
    (∃ verity, format sha256 params data = some verity) ↔
      superblockSize params ≤ params.hashBlockSize.toNat := by
  constructor
  · rintro ⟨verity, built⟩
    rw [← superblock_is_some params (dataBlocks params data)]
    by_cases single : dataBlocks params data = 1
    · rw [single, (format_single built single).1]
      rfl
    · obtain ⟨⟨levels, top, first, tree⟩, -⟩ := format_tree built single
      rw [tree.superblock]
      rfl
  · intro room
    obtain ⟨first, framed⟩ := Option.isSome_iff_exists.mp
      ((superblock_is_some params (dataBlocks params data)).mpr room)
    exact format_fits wide (two_slots params room) framed

section Short

variable {data params}

theorem short_superblock (short : params.hashBlockSize.toNat < superblockSize params)
    (dataBlocks : Nat) : Checked.superblock params dataBlocks = .error .outOfRange := by
  rw [checked_superblock]
  cases framed : superblock params dataBlocks with
  | none => rfl
  | some first =>
      have room := (superblock_is_some params dataBlocks).mp (framed ▸ rfl)
      omega

/-- Where the superblock does not fit, a tree fails by how many digests a hash block holds. -/
theorem format_fails (wide : 0 < params.dataBlockSize.toNat)
    (short : params.hashBlockSize.toNat < superblockSize params)
    (several : dataBlocks params data ≠ 1) :
    (params.hashBlockSize.toNat / digestSize = 0 →
      ∀ rounds, Checked.format sha256 rounds params data = .error .dividedByZero) ∧
    (params.hashBlockSize.toNat / digestSize = 1 →
      ∀ rounds, Checked.format sha256 rounds params data = .error .endless) ∧
    (2 ≤ params.hashBlockSize.toNat / digestSize →
      ∃ rounds, Checked.format sha256 rounds params data = .error .outOfRange) := by
  have one : 1 ≤ dataBlocks params data := Nat.le_max_right _ _
  refine ⟨fun none rounds => ?_, fun single rounds => ?_, fun more => ?_⟩
  · rw [checked_several sha256 wide several, Checked.treeLevels, Checked.divCeil, if_pos none]
    rfl
  · have whole := length_leaves sha256 params data (by omega)
    rw [single, ceilDiv_one] at whole
    rw [checked_several sha256 wide several, checked_tree sha256 params data wide (by omega),
      Checked.stackLevels, stack_endless (length_block_digest sha256 params) rounds _ _ whole
        (slots_size (by omega)) single (by omega)]
    rfl
  · obtain ⟨levels, built⟩ := stack_ends (length_block_digest sha256 params) _
      (leaves sha256 params data) _ (length_leaves sha256 params data (by omega))
      (slots_size (by omega)) more (Nat.le_succ _)
    refine ⟨dataBlocks params data ⌈/⌉ (params.hashBlockSize.toNat / digestSize), ?_⟩
    rw [checked_several sha256 wide several, checked_tree sha256 params data wide (by omega),
      Checked.stackLevels, built]
    change (Checked.superblock params (dataBlocks params data) >>= _) = _
    rw [short_superblock short]
    rfl

end Short

end Build

/-! ## Every parameter set -/

/-- `format` returns, and every level over two blocks or more is smaller. -/
structure Ends (sha256 : Bytes → FixedBytes 32) (params : VerityParams) (data : Bytes) : Prop where
  returns : ∃ rounds verity, Checked.format sha256 rounds params data = .ok verity
  shrinks : ∀ below, 2 ≤ below → below ⌈/⌉ (params.hashBlockSize.toNat / digestSize) < below

/-- `format` ends well on every image exactly where the superblock with its salt fits in a hash
block. -/
theorem format_ends_iff (sha256 : Bytes → FixedBytes 32) (params : VerityParams) (data : Bytes)
    (wide : 0 < params.dataBlockSize.toNat) :
    Ends sha256 params data ↔ superblockSize params ≤ params.hashBlockSize.toNat := by
  have returns : (∃ rounds verity, Checked.format sha256 rounds params data = .ok verity) ↔
      superblockSize params ≤ params.hashBlockSize.toNat := by
    rw [← format_returns_iff sha256 params data wide, exists_comm]
    exact exists_congr (checked_format_iff sha256 params data wide)
  constructor
  · exact fun ends => returns.mp ends.returns
  · intro room
    exact ⟨returns.mpr room, fun below several =>
      ceil_div_lt below _ several (two_slots params room)⟩

theorem default_format_ends : Ends (fun _ => FixedBytes.ofBytes 32 []) defaultParams [1, 2, 3] :=
  (format_ends_iff (fun _ => FixedBytes.ofBytes 32 []) defaultParams [1, 2, 3] (by decide)).mpr (by decide)

/-- Hash blocks with room for one digest. -/
def narrowParams : VerityParams := ⟨1, 32, [], FixedBytes.ofBytes 16 []⟩

/-- The level over two blocks is two blocks again, and the loop goes on for ever. -/
theorem narrow_format_endless :
    (∀ rounds, Checked.format (fun _ => FixedBytes.ofBytes 32 []) rounds narrowParams [0, 0] =
      .error .endless) ∧
      ¬Ends (fun _ => FixedBytes.ofBytes 32 []) narrowParams [0, 0] := by
  have endless := (format_fails (fun _ => FixedBytes.ofBytes 32 [])
    (by decide : 0 < narrowParams.dataBlockSize.toNat) (by decide)
    (by decide : dataBlocks narrowParams [0, 0] ≠ 1)).2.1 (by decide)
  refine ⟨endless, fun ends => ?_⟩
  obtain ⟨rounds, verity, ended⟩ := ends.returns
  rw [endless rounds] at ended
  cases ended

end HorizonOs.Keybuild.DmVerity
