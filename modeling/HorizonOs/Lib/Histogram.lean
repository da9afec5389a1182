import Mathlib.Algebra.BigOperators.Intervals
import Mathlib.Algebra.Order.BigOperators.Group.List
import Mathlib.Data.Nat.Find
import Mathlib.Data.List.Perm.Basic
import Mathlib.Tactic.Linarith

/-!
# Cutting a span into bins

A span of `span` units cut into `bins` parts whose ends are rounded down, and the bin that the
proportional rule picks for an offset. The two roundings agree except at the ends that were not
whole.
-/

namespace HorizonOs.Lib.Histogram

open Finset (range)

set_option autoImplicit false

/-! ## One offset -/

/-- Where a bin starts, and the one before it ends. -/
def edge (span bins i : Nat) : Nat := span * i / bins

/-- The bin by proportion; an empty span goes to the first. -/
def picked (span bins off : Nat) : Nat :=
  if span = 0 then 0 else min (off * bins / span) (bins - 1)

/-- The last bin that starts no later. -/
def home (span bins off : Nat) : Nat :=
  Nat.findGreatest (fun i => edge span bins i ≤ off) (bins - 1)

/-- The offset is in the bin, whose end belongs to the next, and to the last bin its own. -/
def Inside (span bins off i : Nat) : Prop :=
  edge span bins i ≤ off ∧ (off < edge span bins (i + 1) ∨ i + 1 = bins)

/-- No end that was rounded down falls on the offset, and an empty span is one bin. -/
def Fair (span bins off : Nat) : Prop :=
  (span = 0 → bins = 1) ∧ ∀ i < bins, edge span bins i = off → bins ∣ span * i

section Offset

variable {span bins off : Nat}

theorem edge_mono {i j : Nat} (le : i ≤ j) : edge span bins i ≤ edge span bins j :=
  Nat.div_le_div_right (Nat.mul_le_mul_left span le)

theorem edge_home_le : edge span bins (home span bins off) ≤ off := by
  refine Nat.findGreatest_spec (P := fun i => edge span bins i ≤ off) (Nat.zero_le _) ?_
  rw [edge, Nat.mul_zero, Nat.zero_div]
  exact Nat.zero_le off

theorem le_home {i : Nat} (below : i < bins) (starts : edge span bins i ≤ off) :
    i ≤ home span bins off :=
  Nat.le_findGreatest (Nat.le_sub_one_of_lt below) starts

variable (some_ : 0 < bins)

include some_

theorem picked_lt : picked span bins off < bins := by
  rw [picked]
  split_ifs
  · exact some_
  · exact (Nat.min_le_right _ _).trans_lt (Nat.sub_lt some_ Nat.one_pos)

theorem home_lt : home span bins off < bins :=
  (Nat.findGreatest_le _).trans_lt (Nat.sub_lt some_ Nat.one_pos)

/-- The home of an offset is the one bin that it is in. -/
theorem inside_iff {i : Nat} (below : i < bins) :
    Inside span bins off i ↔ home span bins off = i := by
  constructor
  · rintro ⟨starts, ends⟩
    refine le_antisymm ?_ (le_home below starts)
    by_contra later
    have next := Nat.lt_of_not_le later
    have low : edge span bins (home span bins off) ≤ off := edge_home_le
    have last : home span bins off < bins := home_lt some_
    rcases ends with before | final
    · have mono : edge span bins (i + 1) ≤ edge span bins (home span bins off) := edge_mono next
      omega
    · omega
  · rintro rfl
    refine ⟨edge_home_le, ?_⟩
    by_contra outside
    rw [not_or, not_lt] at outside
    have last : home span bins off < bins := home_lt some_
    have further := le_home (by omega) outside.1
    omega

/-- Proportion never picks a later bin. -/
theorem picked_le_home : picked span bins off ≤ home span bins off := by
  refine le_home (picked_lt some_) ?_
  rw [picked]
  split_ifs with empty
  · rw [edge, Nat.mul_zero, Nat.zero_div]
    exact Nat.zero_le off
  · have part : off * bins / span * span ≤ off * bins := Nat.div_mul_le_self _ _
    have least : min (off * bins / span) (bins - 1) ≤ off * bins / span := Nat.min_le_left _ _
    have scaled := Nat.mul_le_mul_left span least
    rw [edge]
    refine (Nat.div_le_iff_le_mul_add_pred some_).mpr ?_
    nlinarith

theorem picked_eq_home_iff (within : off ≤ span) :
    picked span bins off = home span bins off ↔ Fair span bins off := by
  have low : edge span bins (home span bins off) ≤ off := edge_home_le
  have last : home span bins off < bins := home_lt some_
  by_cases empty : span = 0
  · subst empty
    have nothing : off = 0 := Nat.le_zero.mp within
    have final : home 0 bins off = bins - 1 := by
      refine le_antisymm (Nat.findGreatest_le _) (le_home (by omega) ?_)
      rw [edge, Nat.zero_mul, Nat.zero_div]
      exact Nat.zero_le off
    rw [picked, if_pos rfl, final]
    constructor
    · intro same
      refine ⟨fun _ => by omega, fun i _ _ => ?_⟩
      rw [Nat.zero_mul]
      exact Nat.dvd_zero bins
    · intro fair
      have one := fair.1 rfl
      omega
  · have positive : 0 < span := Nat.pos_of_ne_zero empty
    rw [picked, if_neg empty]
    constructor
    · intro same
      refine ⟨fun zero => absurd zero empty, fun i below on => ?_⟩
      -- the picked bin is not before this one, so the end was not rounded
      have reached := le_home below on.le
      rw [← same] at reached
      have far := (Nat.le_div_iff_mul_le positive).mp (reached.trans (Nat.min_le_left _ _))
      rw [← on] at far
      have back : edge span bins i * bins ≤ span * i := Nat.div_mul_le_self _ _
      exact Dvd.intro_left (edge span bins i) (le_antisymm back (by rwa [Nat.mul_comm] at far))
    · intro fair
      have least : picked span bins off ≤ home span bins off := picked_le_home some_
      rw [picked, if_neg empty] at least
      refine le_antisymm least (Nat.le_min.mpr ⟨?_, Nat.le_sub_one_of_lt last⟩)
      rw [Nat.le_div_iff_mul_le positive, Nat.mul_comm]
      rcases Nat.lt_or_eq_of_le low with before | on
      · exact ((Nat.div_lt_iff_lt_mul some_).mp before).le
      · have whole := Nat.div_mul_cancel (fair.2 _ last on)
        rw [edge] at on
        rw [← whole, on]

end Offset

/-- With whole bins every offset is fair. -/
theorem fair_of_dvd {span bins : Nat} (divides : bins ∣ span) (positive : 0 < span) (off : Nat) :
    Fair span bins off :=
  ⟨fun zero => absurd zero positive.ne', fun i _ _ => divides.mul_right i⟩

/-! ## Counting -/

section Count

variable {α : Type}

/-- Items that are counted no later than where they belong are counted right exactly if every
count is. -/
theorem counts_agree_iff (items : List α) (counted belongs : α → Nat)
    (le : ∀ item ∈ items, counted item ≤ belongs item) :
    (∀ i, items.countP (counted · = i) = items.countP (belongs · = i)) ↔
      ∀ item ∈ items, counted item = belongs item := by
  constructor
  · intro same
    have counts : (items.map counted).Perm (items.map belongs) := by
      refine List.perm_iff_count.mpr fun i => ?_
      rw [List.count_eq_countP, List.count_eq_countP, List.countP_map, List.countP_map]
      exact same i
    have sums := counts.sum_nat
    clear same counts
    induction items with
    | nil => exact List.forall_mem_nil _
    | cons item rest ih =>
        obtain ⟨first, others⟩ := List.forall_mem_cons.mp le
        have least : (rest.map counted).sum ≤ (rest.map belongs).sum := List.sum_le_sum others
        rw [List.map_cons, List.map_cons, List.sum_cons, List.sum_cons] at sums
        refine List.forall_mem_cons.mpr ⟨by omega, ih others (by omega)⟩
  · intro same i
    refine List.countP_congr fun item member => ?_
    rw [same item member]

/-- Every item is in one bin. -/
theorem sum_counts (items : List α) (place : α → Nat) (bins : Nat)
    (below : ∀ item ∈ items, place item < bins) :
    ∑ i ∈ range bins, items.countP (place · = i) = items.length := by
  induction items with
  | nil => exact Finset.sum_const_zero
  | cons item rest ih =>
      obtain ⟨first, others⟩ := List.forall_mem_cons.mp below
      simp only [List.countP_cons, decide_eq_true_eq, Finset.sum_add_distrib, ih others,
        Finset.sum_ite_eq, Finset.mem_range, first, if_true, List.length_cons]

end Count

end HorizonOs.Lib.Histogram
