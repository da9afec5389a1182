import HorizonOs.Lifestream.Chunker

/-!
# Chunking is local

A cut depends on the bytes up to it and no others, so what is changed behind a cut
does not move it, and behind a common cut equal bytes are chunked the same way.
-/

namespace HorizonOs.Lifestream

open HorizonOs.Lib.ByteCodec

set_option autoImplicit false

/-! ## A cut depends on the bytes before it -/

/-- A scan that finds a cut has not looked behind it. -/
theorem scan_local (mask hash : UInt64) (i found : Nat) (bytes other : Bytes)
    (agree : bytes.take (found + 1 - i) = other.take (found + 1 - i))
    (cutFound : scan mask hash i bytes = .inl found) : scan mask hash i other = .inl found := by
  have bounds := scan_bounds mask hash i bytes found cutFound
  induction bytes generalizing other hash i with
  | nil => cases cutFound
  | cons byte rest ih =>
      rw [show found + 1 - i = (found - i) + 1 by omega, List.take_succ_cons] at agree
      cases other with
      | nil => cases agree
      | cons next others =>
          rw [List.take_succ_cons, List.cons.injEq] at agree
          obtain ⟨rfl, agree⟩ := agree
          rw [scan] at cutFound ⊢
          split at cutFound
          case isTrue zero => rw [if_pos zero, cutFound]
          case isFalse rolls =>
            rw [if_neg rolls]
            have later := scan_bounds mask _ (i + 1) rest found cutFound
            exact ih _ (i + 1) others (by rwa [show found + 1 - (i + 1) = found - i by omega])
              cutFound later

theorem cut_long (src : Bytes) (long : ¬src.length ≤ minSize) :
    cut src =
      match scan maskS 0 minSize ((src.take (cutCenter src)).drop minSize) with
      | .inl i => i
      | .inr hash =>
          match scan maskL hash (cutCenter src) ((src.take (cutLimit src)).drop (cutCenter src)) with
          | .inl i => i
          | .inr _ => cutLimit src :=
  if_neg long

theorem cut_limit_eq (src : Bytes) : cutLimit src = min maxSize src.length := by
  rw [cutLimit]
  split <;> omega

theorem cut_center_eq (src : Bytes) : cutCenter src = min normalSize (cutLimit src) := by
  rw [cutCenter]
  split <;> omega

section Behind

variable {p t other : Bytes}

/-- The bytes of a scan up to a place in front of the tail do not depend on the tail. -/
theorem window_front (start count stop : Nat) (within : start + count ≤ stop)
    (inside : start + count ≤ p.length) :
    (((p ++ t).take stop).drop start).take count = (p.drop start).take count := by
  rw [List.take_drop, List.take_take, Nat.min_eq_left within, List.take_append_of_le_length inside,
    List.take_drop]

theorem window_whole (start stop : Nat) (inside : stop ≤ p.length) :
    ((p ++ t).take stop).drop start = (p.take stop).drop start := by
  rw [List.take_append_of_le_length inside]

/-- What is behind a cut does not move it. -/
theorem cut_local (before : cut (p ++ t) < p.length) : cut (p ++ other) = cut (p ++ t) := by
  have bounds := cut_bounds (p ++ t)
  rw [List.length_append] at bounds
  have long : ¬(p ++ t).length ≤ minSize := by
    rw [List.length_append]
    omega
  have longer : ¬(p ++ other).length ≤ minSize := by
    rw [List.length_append]
    omega
  have wide : minSize < normalSize ∧ normalSize < maxSize := by decide
  have size : (p ++ t).length = p.length + t.length := List.length_append
  have otherSize : (p ++ other).length = p.length + other.length := List.length_append
  have limit := cut_limit_eq (p ++ t)
  have otherLimit := cut_limit_eq (p ++ other)
  have center := cut_center_eq (p ++ t)
  have otherCenter := cut_center_eq (p ++ other)
  rw [cut_long _ long] at before ⊢
  rw [cut_long _ longer]
  cases first : scan maskS 0 minSize (((p ++ t).take (cutCenter (p ++ t))).drop minSize) with
  | inl i =>
      rw [first] at before
      dsimp only at before
      have found := scan_bounds _ _ _ _ _ first
      rw [List.length_drop, List.length_take] at found
      have same := scan_local _ _ _ _ _ (((p ++ other).take (cutCenter (p ++ other))).drop minSize)
        (by rw [window_front _ _ _ (by omega) (by omega), window_front _ _ _ (by omega) (by omega)])
        first
      rw [same]
  | inr hash =>
      simp only [first] at before ⊢
      have reached : cutCenter (p ++ t) < p.length := by
        cases second : scan maskL hash (cutCenter (p ++ t))
            (((p ++ t).take (cutLimit (p ++ t))).drop (cutCenter (p ++ t))) with
        | inl i =>
            rw [second] at before
            exact (scan_bounds _ _ _ _ _ second).1.trans_lt before
        | inr last =>
            rw [second] at before
            dsimp only at before
            omega
      have centers : cutCenter (p ++ other) = cutCenter (p ++ t) := by omega
      rw [centers, window_whole _ _ reached.le, ← window_whole (t := t) _ _ reached.le, first]
      cases second : scan maskL hash (cutCenter (p ++ t))
          (((p ++ t).take (cutLimit (p ++ t))).drop (cutCenter (p ++ t))) with
      | inl i =>
          rw [second] at before
          dsimp only at before
          have found := scan_bounds _ _ _ _ _ second
          rw [List.length_drop, List.length_take] at found
          have same := scan_local _ _ _ _ _
            (((p ++ other).take (cutLimit (p ++ other))).drop (cutCenter (p ++ t)))
            (by rw [window_front _ _ _ (by omega) (by omega),
              window_front _ _ _ (by omega) (by omega)]) second
          simp only [same]
      | inr last =>
          rw [second] at before
          dsimp only at before
          have limits : cutLimit (p ++ other) = cutLimit (p ++ t) := by omega
          rw [limits, window_whole _ _ before.le, ← window_whole (t := t) _ _ before.le]
          simp only [second]

end Behind

/-! ## Splitting at a cut -/

def shift (offset : Nat) (range : Nat × Nat) : Nat × Nat := (range.1 + offset, range.2 + offset)

theorem map_shift_zero (ranges : List (Nat × Nat)) : ranges.map (shift 0) = ranges :=
  List.map_id ranges

theorem map_shift_shift (inner outer : Nat) (ranges : List (Nat × Nat)) :
    (ranges.map (shift inner)).map (shift outer) = ranges.map (shift (inner + outer)) := by
  rw [List.map_map]
  apply List.map_congr_left
  intro range _
  simp only [Function.comp_apply, shift, Nat.add_assoc]

theorem split_from_shift (fuel pos : Nat) (rest : Bytes) :
    splitFrom fuel pos rest = (splitFrom fuel 0 rest).map (shift pos) := by
  induction fuel generalizing pos rest with
  | zero => rfl
  | succ fuel ih =>
      cases rest with
      | nil => rfl
      | cons byte rest =>
          rw [splitFrom, splitFrom, List.map_cons, ih, ih (0 + cut (byte :: rest)),
            map_shift_shift, shift, Nat.zero_add, Nat.zero_add, Nat.add_comm pos]

theorem split_from_fuel (fuel other pos : Nat) (rest : Bytes) (enough : rest.length ≤ fuel)
    (enoughToo : rest.length ≤ other) : splitFrom fuel pos rest = splitFrom other pos rest := by
  induction fuel generalizing other pos rest with
  | zero =>
      rw [List.length_eq_zero_iff.mp (Nat.le_zero.mp enough)]
      cases other <;> rfl
  | succ fuel ih =>
      cases rest with
      | nil => cases other <;> rfl
      | cons byte rest =>
          cases other with
          | zero => cases enoughToo
          | succ other =>
              have positive := cut_pos (byte :: rest) (List.cons_ne_nil _ _)
              have fewer : ((byte :: rest).drop (cut (byte :: rest))).length ≤ rest.length := by
                rw [List.length_drop, List.length_cons]
                omega
              rw [List.length_cons] at enough enoughToo
              rw [splitFrom, splitFrom, ih other _ _ (by omega) (by omega)]

/-- The first chunk, then those of what is left. -/
theorem split_first (data : Bytes) (nonempty : data ≠ []) :
    split data = (0, cut data) :: (split (data.drop (cut data))).map (shift (cut data)) := by
  cases data with
  | nil => exact absurd rfl nonempty
  | cons byte rest =>
      have positive := cut_pos (byte :: rest) nonempty
      have fewer : ((byte :: rest).drop (cut (byte :: rest))).length ≤ rest.length := by
        rw [List.length_drop, List.length_cons]
        omega
      rw [split, List.length_cons, splitFrom, split_from_shift, split, Nat.zero_add,
        split_from_fuel rest.length _ 0 _ fewer le_rfl]

/-- A place where a chunk ends, or the front. -/
def IsCut (data : Bytes) (offset : Nat) : Prop :=
  offset = 0 ∨ ∃ range ∈ split data, range.2 = offset

/-- Behind a cut the chunks are those of the bytes behind it. -/
theorem split_at_cut (data : Bytes) (offset : Nat) (here : IsCut data offset) :
    ∃ front, split data = front ++ (split (data.drop offset)).map (shift offset) ∧
      ∀ range ∈ front, range.1 < offset := by
  induction size : data.length using Nat.strong_induction_on generalizing data offset with
  | _ length ih =>
  obtain rfl | ⟨range, member, rfl⟩ := here
  · exact ⟨[], (map_shift_zero _).symm, fun _ listed => absurd listed List.not_mem_nil⟩
  by_cases nonempty : data = []
  · rw [nonempty] at member
    exact absurd member List.not_mem_nil
  have positive := cut_pos data nonempty
  have shorter : (data.drop (cut data)).length < length := by
    have some := List.length_pos_iff.mpr nonempty
    rw [List.length_drop]
    omega
  rw [split_first data nonempty] at member ⊢
  rcases List.mem_cons.mp member with rfl | later
  · refine ⟨[(0, cut data)], rfl, ?_⟩
    intro range listed
    rw [List.mem_singleton.mp listed]
    exact positive
  · obtain ⟨behind, listed, rfl⟩ := List.mem_map.mp later
    obtain ⟨front, whole, before⟩ :=
      ih _ shorter (data.drop (cut data)) behind.2 (.inr ⟨behind, listed, rfl⟩) rfl
    refine ⟨(0, cut data) :: front.map (shift (cut data)), ?_, ?_⟩
    · rw [whole, List.map_append, map_shift_shift, List.drop_drop, List.cons_append, shift,
        Nat.add_comm behind.2]
    · intro range inside
      rcases List.mem_cons.mp inside with rfl | shifted
      · exact Nat.lt_add_left _ positive
      · obtain ⟨earlier, member, rfl⟩ := List.mem_map.mp shifted
        exact Nat.add_lt_add_right (before earlier member) _

/-! ## Locality -/

/-- Consecutive ranges from `start` to `stop` with nothing left out. -/
def Tiles : Nat → Nat → List (Nat × Nat) → Prop
  | start, stop, [] => start = stop
  | start, stop, range :: ranges => range.1 = start ∧ Tiles range.2 stop ranges

theorem tiles_shift (start stop offset : Nat) (ranges : List (Nat × Nat))
    (tiled : Tiles start stop ranges) :
    Tiles (start + offset) (stop + offset) (ranges.map (shift offset)) := by
  induction ranges generalizing start with
  | nil => exact congrArg (· + offset) tiled
  | cons range ranges ih => exact ⟨congrArg (· + offset) tiled.1, ih _ tiled.2⟩

/-- The ranges of `split` one by one: the first cut, then the same of the rest. -/
theorem split_induction (motive : Bytes → Prop) (empty : motive [])
    (step : ∀ data, data ≠ [] → motive (data.drop (cut data)) → motive data) (data : Bytes) :
    motive data := by
  induction size : data.length using Nat.strong_induction_on generalizing data with
  | _ length ih =>
  by_cases nonempty : data = []
  · exact nonempty ▸ empty
  · have positive := cut_pos data nonempty
    have some := List.length_pos_iff.mpr nonempty
    refine step data nonempty (ih _ ?_ _ rfl)
    rw [List.length_drop]
    omega

theorem split_tiles (data : Bytes) : Tiles 0 data.length (split data) := by
  induction data using split_induction with
  | empty => exact rfl
  | step data nonempty ih =>
      have inside := (cut_bounds data).1
      have shifted := tiles_shift _ _ (cut data) _ ih
      rw [List.length_drop, Nat.sub_add_cancel inside, Nat.zero_add] at shifted
      rw [split_first data nonempty]
      exact ⟨rfl, shifted⟩

/-- Only the last chunk may be short. -/
theorem split_wide (data : Bytes) :
    ∀ range ∈ (split data).dropLast, minSize ≤ range.2 - range.1 := by
  induction data using split_induction with
  | empty => exact fun range member => absurd member List.not_mem_nil
  | step data nonempty ih =>
      intro range member
      have bounds := cut_bounds data
      rw [split_first data nonempty] at member
      by_cases last : split (data.drop (cut data)) = []
      · rw [last] at member
        exact absurd member List.not_mem_nil
      have more : (split (data.drop (cut data))).map (shift (cut data)) ≠ [] :=
        fun none => last (List.map_eq_nil_iff.mp none)
      rw [List.dropLast_cons_of_ne_nil more, ← List.map_dropLast] at member
      rcases List.mem_cons.mp member with rfl | later
      · have rest : data.drop (cut data) ≠ [] := fun none => last (none ▸ rfl)
        have left := List.length_pos_iff.mpr rest
        rw [List.length_drop] at left
        dsimp only
        omega
      · obtain ⟨inner, listed, rfl⟩ := List.mem_map.mp later
        have wide := ih inner listed
        dsimp only [shift]
        omega

/-- A chunk that ends inside the common front is a chunk whatever comes behind. -/
theorem front_chunks_kept (p t other : Bytes) (range : Nat × Nat) (chunk : range ∈ split (p ++ t))
    (inside : range.2 < p.length) : range ∈ split (p ++ other) := by
  induction size : p.length using Nat.strong_induction_on generalizing p range with
  | _ length ih =>
  have frontBytes : p ≠ [] := List.length_pos_iff.mp (Nat.zero_lt_of_lt inside)
  have bytes : p ++ t ≠ [] := List.append_ne_nil_of_left_ne_nil frontBytes t
  have positive := cut_pos (p ++ t) bytes
  rw [split_first (p ++ t) bytes] at chunk
  rw [split_first (p ++ other) (List.append_ne_nil_of_left_ne_nil frontBytes other)]
  rcases List.mem_cons.mp chunk with rfl | later
  · rw [cut_local inside]
    exact List.mem_cons_self
  obtain ⟨inner, listed, rfl⟩ := List.mem_map.mp later
  have within : inner.2 + cut (p ++ t) < p.length := inside
  have first : cut (p ++ t) < p.length := by omega
  have dropped : (p.drop (cut (p ++ t))).length = p.length - cut (p ++ t) := List.length_drop
  rw [List.drop_append_of_le_length first.le] at listed
  rw [cut_local first, List.drop_append_of_le_length first.le]
  refine List.mem_cons_of_mem _ (List.mem_map_of_mem (ih _ ?_ _ inner listed ?_ rfl)) <;> omega

/-- The chunks that start at or behind `offset`. -/
def laterChunks (data : Bytes) (offset : Nat) : List (Nat × Nat) :=
  (split data).filter fun range => offset ≤ range.1

theorem later_chunks_at_cut (data : Bytes) (offset : Nat) (here : IsCut data offset) :
    laterChunks data offset = (split (data.drop offset)).map (shift offset) := by
  obtain ⟨front, whole, before⟩ := split_at_cut data offset here
  have none : front.filter (fun range => offset ≤ range.1) = [] := by
    apply List.filter_eq_nil_iff.mpr
    intro range member
    rw [decide_eq_true_eq]
    exact Nat.not_le.mpr (before range member)
  have all : ((split (data.drop offset)).map (shift offset)).filter
      (fun range => offset ≤ range.1) = (split (data.drop offset)).map (shift offset) := by
    apply List.filter_eq_self.mpr
    intro range member
    obtain ⟨inner, _, rfl⟩ := List.mem_map.mp member
    exact decide_eq_true (Nat.le_add_left _ _)
  rw [laterChunks, whole, List.filter_append, none, all, List.nil_append]

theorem chunking_bounded_and_local :
    (∀ data, Tiles 0 data.length (split data) ∧
      (∀ range ∈ split data, range.1 < range.2 ∧ range.2 - range.1 ≤ maxSize) ∧
      ∀ range ∈ (split data).dropLast, minSize ≤ range.2 - range.1) ∧
    (∀ p x y s : Bytes, ∀ range ∈ split (p ++ x ++ s), range.2 < p.length →
      range ∈ split (p ++ y ++ s)) ∧
    ∀ (p x y s : Bytes) (offset : Nat), offset ≤ s.length →
      IsCut (p ++ x ++ s) ((p ++ x).length + offset) →
      IsCut (p ++ y ++ s) ((p ++ y).length + offset) →
      ∃ common : List (Nat × Nat), laterChunks (p ++ x ++ s) ((p ++ x).length + offset) =
          common.map (shift ((p ++ x).length + offset)) ∧
        laterChunks (p ++ y ++ s) ((p ++ y).length + offset) =
          common.map (shift ((p ++ y).length + offset)) := by
  refine ⟨?_, ?_, ?_⟩
  · intro data
    refine ⟨split_tiles data, ?_, split_wide data⟩
    intro range member
    have bounds := split_from_ranges data.length 0 data range member
    omega
  · intro p x y s range chunk inside
    rw [List.append_assoc] at chunk ⊢
    exact front_chunks_kept p (x ++ s) (y ++ s) range chunk inside
  · intro p x y s offset _ left right
    refine ⟨split (s.drop offset), ?_, ?_⟩
    · rw [later_chunks_at_cut _ _ left, List.drop_append, List.drop_eq_nil_of_le (Nat.le_add_right _ _),
        Nat.add_sub_cancel_left, List.nil_append]
    · rw [later_chunks_at_cut _ _ right, List.drop_append, List.drop_eq_nil_of_le (Nat.le_add_right _ _),
        Nat.add_sub_cancel_left, List.nil_append]

end HorizonOs.Lifestream
