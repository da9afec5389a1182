import HorizonOs.Lib.ByteCodec

/-!
# Content-defined chunking

The FastCDC cut-point search and the ranges it splits a buffer into. The
ranges tile the buffer, and every one but the last is at least `minSize` long,
which bounds how many there are.
-/

namespace HorizonOs.Lifestream

open HorizonOs.Lib.ByteCodec

set_option autoImplicit false

def minSize : Nat := 2 * 1024
def normalSize : Nat := 8 * 1024
def maxSize : Nat := 64 * 1024

def maskS : UInt64 := 0x0003_5907_0353_0000
def maskL : UInt64 := 0x0000_d903_0353_0000

/-- One output of splitmix64. -/
def splitmix (x : UInt64) : UInt64 :=
  let z := (x ^^^ (x >>> 30)) * 0xbf58_476d_1ce4_e5b9
  let z := (z ^^^ (z >>> 27)) * 0x94d0_49bb_1331_11eb
  z ^^^ (z >>> 31)

def gearRows : Nat → UInt64 → List UInt64
  | 0, _ => []
  | count + 1, x =>
      let x := x + 0x9e37_79b9_7f4a_7c15
      splitmix x :: gearRows count x

/-- The fixed gear table, so boundaries are the same on every machine. -/
def gearTable : List UInt64 := gearRows 256 0x2545_f491_4f6c_dd1d

/-- One of the two scans of `cut`: the cut point it finds, or the rolling hash
it ends with. -/
def scan (mask hash : UInt64) (i : Nat) : Bytes → Nat ⊕ UInt64
  | [] => .inr hash
  | byte :: rest =>
      let hash := (hash <<< 1) + gearTable.getD byte.toNat 0
      if hash &&& mask = 0 then .inl i else scan mask hash (i + 1) rest

/-- How far a cut may reach, and where the looser mask takes over. -/
def cutLimit (src : Bytes) : Nat := if src.length > maxSize then maxSize else src.length

def cutCenter (src : Bytes) : Nat :=
  if cutLimit src < normalSize then cutLimit src else normalSize

def cut (src : Bytes) : Nat :=
  if src.length ≤ minSize then src.length
  else
    let n := cutLimit src
    let center := cutCenter src
    match scan maskS 0 minSize ((src.take center).drop minSize) with
    | .inl i => i
    | .inr hash =>
        match scan maskL hash center ((src.take n).drop center) with
        | .inl i => i
        | .inr _ => n

/-- `split` from position `pos`; every range takes at least one byte, so the
length of the data is fuel enough. -/
def splitFrom : Nat → Nat → Bytes → List (Nat × Nat)
  | 0, _, _ => []
  | _ + 1, _, [] => []
  | fuel + 1, pos, byte :: rest =>
      let length := cut (byte :: rest)
      (pos, pos + length) :: splitFrom fuel (pos + length) ((byte :: rest).drop length)

def split (data : Bytes) : List (Nat × Nat) := splitFrom data.length 0 data

/-- The bytes `data[start..end]` of a range. -/
def slice (data : Bytes) (range : Nat × Nat) : Bytes := (data.take range.2).drop range.1

/-! ## Bounds of a cut -/

theorem scan_bounds (mask hash : UInt64) (i : Nat) (bytes : Bytes) (found : Nat)
    (cutFound : scan mask hash i bytes = .inl found) : i ≤ found ∧ found < i + bytes.length := by
  induction bytes generalizing hash i with
  | nil => simp [scan] at cutFound
  | cons byte rest ih =>
      simp only [scan] at cutFound
      split at cutFound
      · cases cutFound
        simp
      · have bounds := ih _ _ cutFound
        simp only [List.length_cons]
        omega

theorem cut_center_bounds (src : Bytes) (long : ¬src.length ≤ minSize) :
    minSize ≤ cutCenter src ∧ cutCenter src ≤ cutLimit src ∧ cutLimit src ≤ src.length := by
  have limit : minSize ≤ cutLimit src ∧ cutLimit src ≤ src.length := by
    unfold cutLimit
    split <;> simp only [minSize, maxSize] at * <;> omega
  refine ⟨?_, ?_, limit.2⟩ <;> unfold cutCenter <;> split <;>
    simp only [minSize, normalSize] at * <;> omega

theorem cut_bounds (src : Bytes) :
    cut src ≤ src.length ∧ (minSize ≤ cut src ∨ cut src = src.length) := by
  by_cases long : src.length ≤ minSize
  · simp [cut, long]
  have limits := cut_center_bounds src long
  simp only [cut, long, if_false]
  split
  case h_1 found first =>
    have bounds := scan_bounds _ _ _ _ _ first
    simp only [List.length_drop, List.length_take] at bounds
    omega
  case h_2 =>
    split
    case h_1 found second =>
      have bounds := scan_bounds _ _ _ _ _ second
      simp only [List.length_drop, List.length_take] at bounds
      omega
    case h_2 => omega

theorem cut_le_max (src : Bytes) : cut src ≤ maxSize := by
  by_cases long : src.length ≤ minSize
  · simp only [cut, long, if_true]
    exact long.trans (by decide)
  have limits := cut_center_bounds src long
  have limit : cutLimit src ≤ maxSize := by
    unfold cutLimit
    split <;> omega
  simp only [cut, long, if_false]
  split
  case h_1 found first =>
    have bounds := scan_bounds _ _ _ _ _ first
    simp only [List.length_drop, List.length_take] at bounds
    omega
  case h_2 =>
    split
    case h_1 found second =>
      have bounds := scan_bounds _ _ _ _ _ second
      simp only [List.length_drop, List.length_take] at bounds
      omega
    case h_2 => exact limit

theorem cut_pos (src : Bytes) (nonempty : src ≠ []) : 0 < cut src := by
  have bounds := cut_bounds src
  have length := List.length_pos_iff.mpr nonempty
  simp only [minSize] at bounds
  omega

/-! ## The ranges tile the data -/

theorem slices_from (data : Bytes) : ∀ (fuel pos : Nat) (rest : Bytes),
    data.drop pos = rest → rest.length ≤ fuel →
      ((splitFrom fuel pos rest).map (slice data)).flatten = rest := by
  intro fuel
  induction fuel with
  | zero =>
      intro pos rest _ short
      have empty : rest = [] := List.length_eq_zero_iff.mp (by omega)
      subst empty
      rfl
  | succ fuel ih =>
      intro pos rest tail short
      cases rest with
      | nil => rfl
      | cons byte rest =>
          have positive := cut_pos (byte :: rest) (by simp)
          have next : data.drop (pos + cut (byte :: rest)) =
              (byte :: rest).drop (cut (byte :: rest)) := by
            rw [← tail, List.drop_drop]
          have first : slice data (pos, pos + cut (byte :: rest)) =
              (byte :: rest).take (cut (byte :: rest)) := by
            rw [slice, ← tail, List.drop_take]
            congr 1
            omega
          have shorter : ((byte :: rest).drop (cut (byte :: rest))).length ≤ fuel := by
            simp only [List.length_drop, List.length_cons] at *
            omega
          simp only [splitFrom, List.map_cons, List.flatten_cons, first, ih _ _ next shorter,
            List.take_append_drop]

theorem slices_split (data : Bytes) : ((split data).map (slice data)).flatten = data :=
  slices_from data data.length 0 data (by simp) (le_refl _)

theorem split_from_count : ∀ (fuel pos : Nat) (rest : Bytes),
    minSize * (splitFrom fuel pos rest).length ≤ rest.length + minSize := by
  intro fuel
  induction fuel with
  | zero => intro pos rest; simp [splitFrom]
  | succ fuel ih =>
      intro pos rest
      cases rest with
      | nil => simp [splitFrom]
      | cons byte rest =>
          have bounds := cut_bounds (byte :: rest)
          have count := ih (pos + cut (byte :: rest)) ((byte :: rest).drop (cut (byte :: rest)))
          simp only [splitFrom, List.length_cons, List.length_drop, minSize] at *
          rcases bounds.2 with wide | whole
          · omega
          · have last : (byte :: rest).drop (cut (byte :: rest)) = [] := by
              rw [List.drop_eq_nil_iff, whole, List.length_cons]
            rw [last] at count ⊢
            cases fuel <;> simp [splitFrom]

theorem split_count (data : Bytes) : minSize * (split data).length ≤ data.length + minSize :=
  split_from_count data.length 0 data

theorem split_from_covers : ∀ (fuel pos : Nat) (rest : Bytes), rest.length ≤ fuel →
    rest.length ≤ maxSize * (splitFrom fuel pos rest).length := by
  intro fuel
  induction fuel with
  | zero => exact fun pos rest short => short.trans (Nat.zero_le _)
  | succ fuel ih =>
      intro pos rest short
      cases rest with
      | nil => exact Nat.zero_le _
      | cons byte rest =>
          have positive := cut_pos (byte :: rest) (by simp)
          have limit := cut_le_max (byte :: rest)
          have tail := ih (pos + cut (byte :: rest)) ((byte :: rest).drop (cut (byte :: rest)))
            (by rw [List.length_drop]; omega)
          rw [List.length_drop] at tail
          simp only [splitFrom, List.length_cons, Nat.mul_add, Nat.mul_one] at tail ⊢
          omega

/-- No chunk is longer than the largest, so long data has many of them. -/
theorem split_covers (data : Bytes) : data.length ≤ maxSize * (split data).length :=
  split_from_covers data.length 0 data (le_refl _)

theorem split_from_ranges : ∀ (fuel pos : Nat) (rest : Bytes),
    ∀ range ∈ splitFrom fuel pos rest,
      range.1 < range.2 ∧ range.2 ≤ range.1 + maxSize ∧ range.2 ≤ pos + rest.length := by
  intro fuel
  induction fuel with
  | zero => exact fun pos rest range member => absurd member List.not_mem_nil
  | succ fuel ih =>
      intro pos rest range member
      cases rest with
      | nil => exact absurd member List.not_mem_nil
      | cons byte rest =>
          have positive := cut_pos (byte :: rest) (by simp)
          have inside := (cut_bounds (byte :: rest)).1
          have limit := cut_le_max (byte :: rest)
          rcases List.mem_cons.mp member with rfl | later
          · exact ⟨Nat.lt_add_of_pos_right positive, Nat.add_le_add_left limit pos,
              Nat.add_le_add_left inside pos⟩
          · have bounds := ih _ _ range later
            rw [List.length_drop] at bounds
            omega

theorem split_slice_length (data : Bytes) (range : Nat × Nat) (member : range ∈ split data) :
    0 < (slice data range).length ∧ (slice data range).length ≤ maxSize := by
  have bounds := split_from_ranges data.length 0 data range member
  rw [slice, List.length_drop, List.length_take]
  omega

theorem slices_nonempty (data : Bytes) : ∀ piece ∈ (split data).map (slice data), piece ≠ [] := by
  intro piece member
  obtain ⟨range, ranged, rfl⟩ := List.mem_map.mp member
  exact List.ne_nil_of_length_pos (split_slice_length data range ranged).1

/-- A buffer of up to 2^43 bytes has fewer chunks than a `u32` counts. -/
theorem split_count_fits (data : Bytes) (size : data.length < 2 ^ 42) :
    (split data).length < 2 ^ 32 := by
  have count := split_count data
  simp only [minSize] at count
  omega

end HorizonOs.Lifestream
