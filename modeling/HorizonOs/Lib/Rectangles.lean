import Mathlib.Data.List.Basic

/-!
# Rectangles

Half-open rectangles of the integer plane, regions stacked from a top to a bottom, and the
topmost region under a point.
-/

namespace HorizonOs.Lib.Rectangles

set_option autoImplicit false

structure Rect where
  x : Int
  y : Int
  w : Int
  h : Int
  deriving DecidableEq

def Rect.contains (r : Rect) (px py : Int) : Bool :=
  px ≥ r.x && px < r.x + r.w && py ≥ r.y && py < r.y + r.h

/-- No point is in both. -/
def Rect.Apart (a b : Rect) : Prop :=
  ∀ px py, a.contains px py = true → b.contains px py = false

theorem contains_iff (r : Rect) (px py : Int) : r.contains px py = true ↔
    r.x ≤ px ∧ px < r.x + r.w ∧ r.y ≤ py ∧ py < r.y + r.h := by
  simp only [Rect.contains, Bool.and_eq_true, decide_eq_true_eq, and_assoc, ge_iff_le]

theorem apart_symm {a b : Rect} (apart : a.Apart b) : b.Apart a := by
  intro px py inside
  by_contra also
  rw [Bool.not_eq_false] at also
  rw [apart px py also] at inside
  cases inside

theorem apart_of_le {a b : Rect} (le : a.y + a.h ≤ b.y) : a.Apart b := by
  intro px py inside
  rw [contains_iff] at inside
  rw [← Bool.not_eq_true, contains_iff]
  omega

/-- A rectangle of no height has no point. -/
theorem apart_of_flat {a b : Rect} (flat : a.h ≤ 0) : a.Apart b := by
  intro px py inside
  rw [contains_iff] at inside
  omega

section Regions

variable {α : Type} (area : α → Rect)

/-- The regions follow one another downwards from the top to the bottom. -/
structure Stacked (regions : List α) (top bottom : Int) : Prop where
  ordered : regions.Pairwise fun a b => (area a).y + (area a).h ≤ (area b).y
  below : ∀ a ∈ regions, top ≤ (area a).y
  above : ∀ a ∈ regions, (area a).y + (area a).h ≤ bottom

theorem stacked_nil (top bottom : Int) : Stacked area [] top bottom :=
  ⟨List.Pairwise.nil, fun _ member => absurd member List.not_mem_nil,
    fun _ member => absurd member List.not_mem_nil⟩

theorem stacked_one {a : α} {top bottom : Int} (below : top ≤ (area a).y)
    (above : (area a).y + (area a).h ≤ bottom) : Stacked area [a] top bottom where
  ordered := List.pairwise_singleton _ a
  below _ member := (List.mem_singleton.mp member) ▸ below
  above _ member := (List.mem_singleton.mp member) ▸ above

variable {area}

theorem Stacked.widen {regions : List α} {top bottom higher lower : Int}
    (stacked : Stacked area regions top bottom) (up : higher ≤ top) (down : bottom ≤ lower) :
    Stacked area regions higher lower where
  ordered := stacked.ordered
  below a member := Int.le_trans up (stacked.below a member)
  above a member := Int.le_trans (stacked.above a member) down

theorem Stacked.append {upper rest : List α} {top middle bottom : Int}
    (first : Stacked area upper top middle) (second : Stacked area rest middle bottom)
    (down : top ≤ middle) (lower : middle ≤ bottom) : Stacked area (upper ++ rest) top bottom where
  ordered := List.pairwise_append.mpr ⟨first.ordered, second.ordered, fun a in_upper b in_rest =>
    Int.le_trans (first.above a in_upper) (second.below b in_rest)⟩
  below a member := (List.mem_append.mp member).elim (first.below a) fun in_rest =>
    Int.le_trans down (second.below a in_rest)
  above a member := (List.mem_append.mp member).elim
    (fun in_upper => Int.le_trans (first.above a in_upper) lower) (second.above a)

theorem Stacked.apart {regions : List α} {top bottom : Int}
    (stacked : Stacked area regions top bottom) :
    regions.Pairwise fun a b => (area a).Apart (area b) :=
  stacked.ordered.imp apart_of_le

/-- The last region that has the point. -/
def topmost (regions : List α) (px py : Int) : Option α :=
  regions.reverse.find? fun a => (area a).contains px py

/-- Among regions that are apart, the topmost one under a point is the one that has it. -/
theorem topmost_of_apart {regions : List α} {a : α} {px py : Int}
    (apart : regions.Pairwise fun a b => (area a).Apart (area b)) (member : a ∈ regions)
    (inside : (area a).contains px py = true) : @topmost α area regions px py = some a := by
  induction regions with
  | nil => exact absurd member List.not_mem_nil
  | cons first rest ih =>
      obtain ⟨from_first, rest_apart⟩ := List.pairwise_cons.mp apart
      rw [topmost, List.reverse_cons, List.find?_append]
      rcases List.mem_cons.mp member with rfl | in_rest
      · have missed : rest.reverse.find? (fun b => (area b).contains px py) = none := by
          rw [List.find?_eq_none]
          intro b in_rest
          rw [from_first b (List.mem_reverse.mp in_rest) px py inside]
          exact Bool.false_ne_true
        rw [missed, Option.none_or]
        exact List.find?_cons_of_pos inside
      · rw [topmost] at ih
        rw [ih rest_apart in_rest, Option.some_or]

end Regions

end HorizonOs.Lib.Rectangles
