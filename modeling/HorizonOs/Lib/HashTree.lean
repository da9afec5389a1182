import Mathlib.Algebra.BigOperators.Group.List.Basic
import Mathlib.Algebra.Order.Floor.Div
import Mathlib.Data.Set.Function
import HorizonOs.Lib.Buffer

/-!
# Trees of digests in whole blocks

The digests of a list of entries are packed into blocks of one size, the blocks hashed in
their turn, until one block is left. A level has a known size, holds each digest at its
index, and pins the entries it was made of.
-/

namespace HorizonOs.Lib.HashTree

open HorizonOs.Lib.Buffer

set_option autoImplicit false

theorem ceil_div_ceil_div (n a b : Nat) (first : 0 < a) (second : 0 < b) :
    n ⌈/⌉ a ⌈/⌉ b = n ⌈/⌉ (a * b) := by
  apply eq_of_forall_ge_iff
  intro c
  rw [ceilDiv_le_iff_le_mul second, ceilDiv_le_iff_le_mul first,
    ceilDiv_le_iff_le_mul (Nat.mul_pos first second), Nat.mul_assoc]

theorem one_le_ceil_div (n a : Nat) (some : 0 < n) (wide : 0 < a) : 1 ≤ n ⌈/⌉ a := by
  by_contra none
  have zero : n ⌈/⌉ a ≤ 0 := by omega
  rw [ceilDiv_le_iff_le_mul wide, Nat.mul_zero] at zero
  omega

theorem ceil_div_lt (n a : Nat) (several : 2 ≤ n) (wide : 2 ≤ a) : n ⌈/⌉ a < n := by
  have bound : n ⌈/⌉ a ≤ n - 1 := by
    rw [ceilDiv_le_iff_le_mul (by omega)]
    calc
      n ≤ 2 * (n - 1) := by omega
      _ ≤ a * (n - 1) := Nat.mul_le_mul_right _ wide
  omega

/-- An index is inside the count of the blocks over it. -/
theorem div_lt_ceil_div (i n a : Nat) (inside : i < n) (wide : 0 < a) : i / a < n ⌈/⌉ a := by
  by_contra outside
  have bound : n ⌈/⌉ a ≤ i / a := by omega
  rw [ceilDiv_le_iff_le_mul wide] at bound
  have below := Nat.mul_div_le i a
  omega

section Blocks

variable {α : Type}

/-- Filled up to a length. -/
def pad (filler : α) (length : Nat) (bytes : List α) : List α :=
  bytes ++ List.replicate (length - bytes.length) filler

theorem length_pad (filler : α) (length : Nat) (bytes : List α) (fits : bytes.length ≤ length) :
    (pad filler length bytes).length = length := by
  rw [pad, List.length_append, List.length_replicate]
  omega

theorem pad_whole (filler : α) (length : Nat) (bytes : List α) (whole : bytes.length = length) :
    pad filler length bytes = bytes := by
  rw [pad, whole, Nat.sub_self, List.replicate_zero, List.append_nil]

/-- The whole blocks of a buffer: what is short of one at the end is left out. -/
def blocks (size : Nat) (bytes : List α) : List (List α) :=
  (List.range (bytes.length / size)).map fun i => slice bytes (i * size) size

@[simp] theorem length_blocks (size : Nat) (bytes : List α) :
    (blocks size bytes).length = bytes.length / size := by
  rw [blocks, List.length_map, List.length_range]

theorem get_blocks (size : Nat) (bytes : List α) (i : Nat) (inside : i < bytes.length / size) :
    (blocks size bytes)[i]? = some (slice bytes (i * size) size) := by
  rw [blocks, List.getElem?_map, List.getElem?_range inside, Option.map_some]

theorem length_of_mem_blocks (size : Nat) (bytes block : List α)
    (member : block ∈ blocks size bytes) : block.length = size := by
  rcases List.mem_map.mp member with ⟨i, index, rfl⟩
  have inside := List.mem_range.mp index
  apply length_slice
  calc
    i * size + size = (i + 1) * size := (Nat.succ_mul i size).symm
    _ ≤ bytes.length / size * size := Nat.mul_le_mul_right size inside
    _ ≤ bytes.length := Nat.div_mul_le_self bytes.length size

theorem flatten_blocks (size count : Nat) (bytes : List α) (wide : 0 < size)
    (whole : bytes.length = count * size) : (blocks size bytes).flatten = bytes := by
  have slices := flat_map_slices bytes 0 size count
  simp only [Nat.zero_add] at slices
  rw [blocks, whole, Nat.mul_div_cancel count wide, ← List.flatMap_def, slices]
  exact slice_whole bytes (count * size) whole

/-- A buffer of whole blocks is known from them. -/
theorem eq_of_blocks (size count : Nat) (left right : List α) (wide : 0 < size)
    (leftWhole : left.length = count * size) (rightWhole : right.length = count * size)
    (same : blocks size left = blocks size right) : left = right := by
  rw [← flatten_blocks size count left wide leftWhole, same,
    flatten_blocks size count right wide rightWhole]

theorem blocks_single (size : Nat) (block : List α) (wide : 0 < size)
    (single : block.length = size) : blocks size block = [block] := by
  rw [blocks, single, Nat.div_self wide, List.range_one, List.map_singleton, Nat.zero_mul,
    slice_whole block size single]

end Blocks

section Levels

variable {α β : Type} (width size : Nat) (filler : α)

/-- The digests of the entries one after the other, in as many blocks as they need. -/
def level (digest : β → List α) (entries : List β) : List α :=
  pad filler (entries.length ⌈/⌉ (size / width) * size) (entries.flatMap digest)

variable {width} (digest : β → List α) (digests : ∀ entry, (digest entry).length = width)

include digests

theorem length_flat_map_digests (entries : List β) :
    (entries.flatMap digest).length = entries.length * width := by
  rw [List.length_flatMap, List.map_congr_left fun entry _ => digests entry, List.map_const',
    List.sum_replicate, smul_eq_mul]

theorem length_level (entries : List β) (several : 0 < size / width) :
    (level width size filler digest entries).length =
      entries.length ⌈/⌉ (size / width) * size := by
  apply length_pad
  rw [length_flat_map_digests digest digests]
  have enough : entries.length ≤ size / width * (entries.length ⌈/⌉ (size / width)) := by
    rw [← ceilDiv_le_iff_le_mul several]
  calc
    entries.length * width
        ≤ size / width * (entries.length ⌈/⌉ (size / width)) * width :=
      Nat.mul_le_mul_right width enough
    _ = entries.length ⌈/⌉ (size / width) * (size / width * width) := by ring
    _ ≤ entries.length ⌈/⌉ (size / width) * size :=
      Nat.mul_le_mul_left _ (Nat.div_mul_le_self size width)

/-- The digest of an entry stands at its index. -/
theorem slice_level (entries : List β) (i : Nat) (entry : β) (found : entries[i]? = some entry) :
    slice (level width size filler digest entries) (i * width) width = digest entry := by
  have inside := (List.getElem?_eq_some_iff.mp found).1
  rw [level, pad, slice_append_left]
  · exact slice_flat_map entries digest width digests i entry found
  · rw [length_flat_map_digests digest digests, ← Nat.succ_mul]
    exact Nat.mul_le_mul_right width inside

/-- Two lists of entries with one level are one list, where no two of them collide. -/
theorem eq_of_level (left right : List β) (same : left.length = right.length)
    (apart : Set.InjOn digest {entry | entry ∈ left ∨ entry ∈ right})
    (packed : level width size filler digest left = level width size filler digest right) :
    left = right := by
  apply List.ext_getElem same
  intro i leftInside rightInside
  have leftSlot := slice_level size filler digest digests left i left[i]
    (List.getElem?_eq_getElem leftInside)
  have rightSlot := slice_level size filler digest digests right i right[i]
    (List.getElem?_eq_getElem rightInside)
  apply apart
  · exact Or.inl (List.getElem_mem leftInside)
  · exact Or.inr (List.getElem_mem rightInside)
  · rw [← leftSlot, packed, rightSlot]

end Levels

section Stack

variable {α : Type} (width size : Nat) (filler : α) (digest : List α → List α)

/-- The level over one: the digests of its blocks. -/
def above (below : List α) : List α := level width size filler digest (blocks size below)

/-- The levels from one up, lowest first, until one is a single block. -/
def stack : Nat → List α → Option (List (List α))
  | 0, below => if 1 < below.length / size then none else some [below]
  | fuel + 1, below =>
      if 1 < below.length / size then
        (stack fuel (above width size filler digest below)).map (below :: ·)
      else some [below]

/-- Levels that stand on one: each over the one before, the last a single block. -/
inductive Tower : List α → List (List α) → Prop
  | top (level : List α) (single : level.length / size ≤ 1) : Tower level [level]
  | step (below : List α) (rest : List (List α)) (several : 1 < below.length / size)
      (higher : Tower (above width size filler digest below) rest) : Tower below (below :: rest)

variable {width size filler digest}

/-- More rounds change nothing once the stack has ended. -/
theorem stack_more {fuel : Nat} {below : List α} {levels : List (List α)}
    (built : stack width size filler digest fuel below = some levels) (more : Nat) :
    stack width size filler digest (fuel + more) below = some levels := by
  induction fuel generalizing below levels with
  | zero =>
      rw [stack] at built
      by_cases several : 1 < below.length / size
      · rw [if_pos several] at built
        cases built
      · rw [if_neg several] at built
        cases more with
        | zero => rw [Nat.add_zero, stack, if_neg several, built]
        | succ more => rw [Nat.zero_add, stack, if_neg several, built]
  | succ fuel ih =>
      rw [Nat.succ_add, stack]
      rw [stack] at built
      by_cases several : 1 < below.length / size
      · rw [if_pos several] at built ⊢
        obtain ⟨rest, higher, rfl⟩ := Option.map_eq_some_iff.mp built
        rw [ih higher]
        rfl
      · rw [if_neg several] at built ⊢
        exact built

theorem stack_unique {fuel fuel' : Nat} {below : List α} {levels levels' : List (List α)}
    (built : stack width size filler digest fuel below = some levels)
    (built' : stack width size filler digest fuel' below = some levels') : levels = levels' := by
  have left := stack_more built fuel'
  have right := stack_more built' fuel
  rw [Nat.add_comm, right] at left
  exact (Option.some.inj left).symm

theorem tower_of_stack (fuel : Nat) (below : List α) (levels : List (List α))
    (built : stack width size filler digest fuel below = some levels) :
    Tower width size filler digest below levels := by
  induction fuel generalizing below levels with
  | zero =>
      rw [stack] at built
      by_cases several : 1 < below.length / size
      · rw [if_pos several] at built
        cases built
      · rw [if_neg several] at built
        cases built
        exact Tower.top below (Nat.le_of_not_lt several)
  | succ fuel ih =>
      rw [stack] at built
      by_cases several : 1 < below.length / size
      · rw [if_pos several, Option.map_eq_some_iff] at built
        obtain ⟨rest, higher, rfl⟩ := built
        exact Tower.step below rest several (ih _ _ higher)
      · rw [if_neg several] at built
        cases built
        exact Tower.top below (Nat.le_of_not_lt several)

theorem tower_head {below : List α} {levels : List (List α)}
    (tower : Tower width size filler digest below levels) : levels[0]? = some below := by
  cases tower with
  | top => rfl
  | step => rfl

theorem tower_link {below : List α} {levels : List (List α)}
    (tower : Tower width size filler digest below levels) (i : Nat) (lower upper : List α)
    (low : levels[i]? = some lower) (high : levels[i + 1]? = some upper) :
    upper = above width size filler digest lower := by
  induction tower generalizing i with
  | top level single => cases high
  | step below rest several higher ih =>
      cases i with
      | zero =>
          cases low
          have first := tower_head higher
          rw [List.getElem?_cons_succ, first] at high
          exact (Option.some.inj high).symm
      | succ i => exact ih i low high

theorem tower_top {below : List α} {levels : List (List α)}
    (tower : Tower width size filler digest below levels) :
    ∃ top, levels.getLast? = some top ∧ top.length / size ≤ 1 := by
  induction tower with
  | top level single => exact ⟨level, rfl, single⟩
  | step below rest several higher ih =>
      obtain ⟨top, last, single⟩ := ih
      apply Exists.intro top
      rw [List.getLast?_cons, last]
      exact ⟨rfl, single⟩

section Sizes

variable (digests : ∀ block, (digest block).length = width)

include digests

theorem length_above (filler : α) (below : List α) (count : Nat) (whole : below.length = count * size)
    (wide : 0 < size) (several : 0 < size / width) :
    (above width size filler digest below).length = count ⌈/⌉ (size / width) * size := by
  rw [above, length_level size filler digest digests _ several, length_blocks, whole,
    Nat.mul_div_cancel count wide]

/-- The size of each level, in whole blocks. -/
theorem tower_lengths {below : List α} {levels : List (List α)}
    (tower : Tower width size filler digest below levels) (count : Nat)
    (whole : below.length = count * size) (wide : 0 < size) (several : 0 < size / width)
    (i : Nat) (found : List α) (stands : levels[i]? = some found) :
    found.length = count ⌈/⌉ (size / width) ^ i * size := by
  induction tower generalizing i count with
  | top level single =>
      cases i with
      | zero =>
          cases stands
          rw [pow_zero, ceilDiv_one, whole]
      | succ i => cases stands
  | step below rest more higher ih =>
      cases i with
      | zero =>
          cases stands
          rw [pow_zero, ceilDiv_one, whole]
      | succ i =>
          have narrower := length_above digests filler below count whole wide several
          rw [ih _ narrower i stands, ceil_div_ceil_div count _ _ several (pow_pos several i),
            pow_succ']

/-- The levels end at the first that is a single block. -/
theorem tower_height {below : List α} {levels : List (List α)}
    (tower : Tower width size filler digest below levels) (count : Nat)
    (whole : below.length = count * size) (wide : 0 < size) (several : 0 < size / width) :
    (∀ i, i + 1 < levels.length → 1 < count ⌈/⌉ (size / width) ^ i) ∧
      ∃ last, levels.length = last + 1 ∧ count ⌈/⌉ (size / width) ^ last ≤ 1 := by
  induction tower generalizing count with
  | top level single =>
      rw [whole, Nat.mul_div_cancel count wide] at single
      constructor
      · intro i inside
        rw [List.length_singleton] at inside
        omega
      · apply Exists.intro 0
        rw [pow_zero, ceilDiv_one]
        exact ⟨rfl, single⟩
  | step below rest more higher ih =>
      have narrower := length_above digests filler below count whole wide several
      have shift : ∀ i, count ⌈/⌉ (size / width) ⌈/⌉ (size / width) ^ i =
          count ⌈/⌉ (size / width) ^ (i + 1) := by
        intro i
        rw [ceil_div_ceil_div count _ _ several (pow_pos several i), pow_succ']
      obtain ⟨wider, last, height, single⟩ := ih _ narrower
      constructor
      · intro i inside
        cases i with
        | zero =>
            rw [whole, Nat.mul_div_cancel count wide] at more
            rw [pow_zero, ceilDiv_one]
            exact more
        | succ i =>
            rw [← shift]
            exact wider i (Nat.lt_of_succ_lt_succ inside)
      · apply Exists.intro (last + 1)
        rw [List.length_cons, height, ← shift]
        exact ⟨rfl, single⟩

/-- The last level is one block. -/
theorem tower_top_whole {below : List α} {levels : List (List α)}
    (tower : Tower width size filler digest below levels) (count : Nat)
    (whole : below.length = count * size) (more : 0 < count) (wide : 0 < size)
    (several : 0 < size / width) (top : List α) (last : levels.getLast? = some top) :
    top.length = size := by
  obtain ⟨_, final, height, single⟩ := tower_height digests tower count whole wide several
  have stands : levels[final]? = some top := by
    rw [← last, List.getLast?_eq_getElem?, height, Nat.add_sub_cancel]
  have one : count ⌈/⌉ (size / width) ^ final = 1 :=
    Nat.le_antisymm single (one_le_ceil_div _ _ more (pow_pos several final))
  rw [tower_lengths digests tower count whole wide several final top stands, one, Nat.one_mul]

/-- Where a block holds one digest, the stack over two blocks or more never ends. -/
theorem stack_endless (fuel : Nat) (below : List α) (count : Nat)
    (whole : below.length = count * size) (wide : 0 < size) (single : size / width = 1)
    (several : 2 ≤ count) : stack width size filler digest fuel below = none := by
  have more : 1 < below.length / size := by
    rw [whole, Nat.mul_div_cancel count wide]
    exact several
  induction fuel generalizing below with
  | zero => rw [stack, if_pos more]
  | succ fuel ih =>
      have same := length_above digests filler below count whole wide (by omega)
      rw [single, ceilDiv_one] at same
      rw [stack, if_pos more, ih _ same]
      · rfl
      · rw [same, Nat.mul_div_cancel count wide]
        exact several

/-- The stack ends where a block holds two digests. -/
theorem stack_ends (fuel : Nat) (below : List α) (count : Nat)
    (whole : below.length = count * size) (wide : 0 < size) (several : 2 ≤ size / width)
    (enough : count ≤ fuel + 1) :
    ∃ levels, stack width size filler digest fuel below = some levels := by
  induction fuel generalizing below count with
  | zero =>
      apply Exists.intro [below]
      rw [stack, if_neg]
      rw [whole, Nat.mul_div_cancel count wide]
      omega
  | succ fuel ih =>
      rw [stack]
      by_cases more : 1 < below.length / size
      · have narrower := length_above digests filler below count whole wide (by omega)
        rw [whole, Nat.mul_div_cancel count wide] at more
        have fewer := ceil_div_lt count (size / width) more several
        obtain ⟨levels, built⟩ := ih _ _ narrower (by omega)
        apply Exists.intro (below :: levels)
        rw [if_pos (by rw [whole, Nat.mul_div_cancel count wide]; exact more), built]
        rfl
      · exact ⟨[below], if_neg more⟩

/-- Towers of one size with one top stand on one level, where no two of their blocks
collide. -/
theorem tower_binds {left right : List α} {leftLevels rightLevels : List (List α)}
    (leftTower : Tower width size filler digest left leftLevels)
    (rightTower : Tower width size filler digest right rightLevels) (count : Nat)
    (leftWhole : left.length = count * size) (rightWhole : right.length = count * size)
    (wide : 0 < size) (several : 0 < size / width)
    (apart : Set.InjOn digest {block | (∃ level ∈ leftLevels, block ∈ blocks size level) ∨
      ∃ level ∈ rightLevels, block ∈ blocks size level})
    (top : leftLevels.getLast? = rightLevels.getLast?) : left = right := by
  induction leftTower generalizing right rightLevels count with
  | top level single =>
      cases rightTower with
      | top other _ => exact Option.some.inj top
      | step _ _ more _ =>
          rw [rightWhole] at more
          rw [leftWhole] at single
          omega
  | step below rest more higher ih =>
      cases rightTower with
      | top other single =>
          rw [rightWhole] at single
          rw [leftWhole] at more
          omega
      | step other otherRest _ otherHigher =>
          have packed : above width size filler digest below =
              above width size filler digest right := by
            obtain ⟨leftTop, leftLast, _⟩ := tower_top higher
            obtain ⟨rightTop, rightLast, _⟩ := tower_top otherHigher
            apply ih otherHigher _ (length_above digests filler below count leftWhole wide several)
              (length_above digests filler right count rightWhole wide several)
            · apply apart.mono
              intro block member
              rcases member with ⟨level, inside, block⟩ | ⟨level, inside, block⟩
              · exact Or.inl ⟨level, List.mem_cons_of_mem _ inside, block⟩
              · exact Or.inr ⟨level, List.mem_cons_of_mem _ inside, block⟩
            · rw [List.getLast?_cons, List.getLast?_cons, leftLast, rightLast] at top
              rw [leftLast, rightLast]
              exact top
          apply eq_of_blocks size count below right wide leftWhole rightWhole
          apply eq_of_level size filler digest digests
          · rw [length_blocks, length_blocks, leftWhole, rightWhole]
          · apply apart.mono
            intro block member
            rcases member with inLeft | inRight
            · exact Or.inl ⟨below, List.mem_cons_self, inLeft⟩
            · exact Or.inr ⟨right, List.mem_cons_self, inRight⟩
          · exact packed

end Sizes

end Stack

/-! ## Levels laid top first -/

section Layout

variable {α : Type}

/-- A list laid out last part first: a part starts after those above it. -/
theorem slice_reverse_flatten (parts : List (List α)) (i : Nat) (part : List α)
    (found : parts[i]? = some part) (offset count : Nat) (inside : offset + count ≤ part.length) :
    slice parts.reverse.flatten (((parts.drop (i + 1)).map List.length).sum + offset) count =
      slice part offset count := by
  induction parts generalizing i with
  | nil => cases found
  | cons first parts ih =>
      rw [List.reverse_cons, List.flatten_append, List.flatten_singleton]
      have total : parts.reverse.flatten.length = (parts.map List.length).sum := by
        rw [List.length_flatten, List.map_reverse, List.sum_reverse]
      cases i with
      | zero =>
          cases found
          rw [List.drop_one, List.tail_cons, ← total, slice_append_right]
      | succ i =>
          have enough : ((parts.drop (i + 1)).map List.length).sum + part.length ≤
              (parts.map List.length).sum := by
            have stands : parts[i]? = some part := found
            obtain ⟨index, same⟩ := List.getElem?_eq_some_iff.mp stands
            have split := List.sum_take_add_sum_drop (parts.map List.length) i
            rw [← List.map_drop, List.drop_eq_getElem_cons index, List.map_cons, List.sum_cons,
              same] at split
            omega
          rw [List.drop_succ_cons, slice_append_left]
          · exact ih i found
          · omega

end Layout

end HorizonOs.Lib.HashTree
