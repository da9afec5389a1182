import Mathlib.Algebra.Field.Basic
import Mathlib.Algebra.Group.Hom.Defs
import Mathlib.Algebra.Ring.Nat
import Mathlib.Logic.Function.Iterate

/-!
# Fields from logarithms

Where one additive map leads from a unit through every nonzero element and back,
adding exponents multiplies: the powers of the map are the nonzero elements, and
every law of a field follows from the map being additive.
-/

namespace HorizonOs.Lib.GeneratedField

set_option autoImplicit false

/-- A map whose iterates on the unit run through the nonzero elements. -/
structure Generated (α : Type) [AddCommGroup α] where
  step : α →+ α
  unit : α
  order : Nat
  log : α → Nat
  unit_ne_zero : unit ≠ 0
  period : step^[order] unit = unit
  log_lt : ∀ x, x ≠ 0 → log x < order
  exp_log : ∀ x, x ≠ 0 → step^[log x] unit = x
  exp_ne_zero : ∀ count, step^[count] unit ≠ 0

namespace Generated

variable {α : Type} [AddCommGroup α] [DecidableEq α] (g : Generated α)

def exp (count : Nat) : α := g.step^[count] g.unit

/-- Multiply by adding logarithms. -/
def mul (x y : α) : α := if x = 0 ∨ y = 0 then 0 else g.exp (g.log x + g.log y)

def inv (x : α) : α := if x = 0 then 0 else g.exp (g.order - g.log x)

omit [DecidableEq α] in
theorem iterate_zero (count : Nat) : g.step^[count] 0 = 0 := by
  induction count with
  | zero => rfl
  | succ count ih => rw [Function.iterate_succ_apply', ih, map_zero]

omit [DecidableEq α] in
theorem iterate_add (count : Nat) (x y : α) :
    g.step^[count] (x + y) = g.step^[count] x + g.step^[count] y := by
  induction count with
  | zero => rfl
  | succ count ih => rw [Function.iterate_succ_apply', ih, map_add,
      Function.iterate_succ_apply', Function.iterate_succ_apply']

omit [DecidableEq α] in
/-- Iterates that agree on the unit agree everywhere. -/
theorem iterate_congr {count other : Nat} (same : g.exp count = g.exp other) (x : α) :
    g.step^[count] x = g.step^[other] x := by
  by_cases zero : x = 0
  · rw [zero, iterate_zero, iterate_zero]
  · rw [← g.exp_log x zero, ← Function.iterate_add_apply, ← Function.iterate_add_apply,
      Nat.add_comm count, Nat.add_comm other, Function.iterate_add_apply,
      Function.iterate_add_apply]
    exact congrArg _ same

/-- A product is an iterate of the map. -/
theorem mul_eq_iterate {x : α} (nonzero : x ≠ 0) (y : α) :
    g.mul x y = g.step^[g.log x] y := by
  unfold mul
  by_cases zero : y = 0
  · rw [if_pos (.inr zero), zero, iterate_zero]
  · rw [if_neg (not_or.mpr ⟨nonzero, zero⟩), exp, Function.iterate_add_apply, g.exp_log y zero]

theorem zero_mul (y : α) : g.mul 0 y = 0 := if_pos (.inl rfl)

theorem mul_comm (x y : α) : g.mul x y = g.mul y x := by
  simp only [mul, or_comm, Nat.add_comm]

theorem mul_add (x y z : α) : g.mul x (y + z) = g.mul x y + g.mul x z := by
  by_cases zero : x = 0
  · rw [zero, zero_mul, zero_mul, zero_mul, add_zero]
  · rw [g.mul_eq_iterate zero, g.mul_eq_iterate zero, g.mul_eq_iterate zero, iterate_add]

theorem mul_ne_zero {x y : α} (left : x ≠ 0) (right : y ≠ 0) : g.mul x y ≠ 0 := by
  rw [mul, if_neg (not_or.mpr ⟨left, right⟩)]
  exact g.exp_ne_zero _

theorem mul_assoc (x y z : α) : g.mul (g.mul x y) z = g.mul x (g.mul y z) := by
  by_cases left : x = 0
  · rw [left, zero_mul, zero_mul, zero_mul]
  by_cases right : y = 0
  · rw [right, g.mul_comm x, zero_mul, zero_mul, g.mul_comm x, zero_mul]
  have product := g.mul_ne_zero left right
  have same : g.exp (g.log (g.mul x y)) = g.exp (g.log x + g.log y) := by
    rw [exp, g.exp_log _ product, mul, if_neg (not_or.mpr ⟨left, right⟩)]
  rw [g.mul_eq_iterate product, g.iterate_congr same, Function.iterate_add_apply,
    ← g.mul_eq_iterate right, ← g.mul_eq_iterate left]

theorem unit_mul (x : α) : g.mul g.unit x = x := by
  have same : g.exp (g.log g.unit) = g.exp 0 := g.exp_log g.unit g.unit_ne_zero
  rw [g.mul_eq_iterate g.unit_ne_zero, g.iterate_congr same]
  rfl

theorem mul_inv {x : α} (nonzero : x ≠ 0) : g.mul x (g.inv x) = g.unit := by
  have below := g.log_lt x nonzero
  rw [g.mul_eq_iterate nonzero, inv, if_neg nonzero, exp, ← Function.iterate_add_apply,
    Nat.add_sub_cancel' below.le]
  exact g.period

/-- The field of a generated group. -/
@[reducible] def field : Field α where
  __ := (inferInstance : AddCommGroup α)
  mul := g.mul
  one := g.unit
  inv := g.inv
  mul_assoc := g.mul_assoc
  one_mul := g.unit_mul
  mul_one x := (g.mul_comm x g.unit).trans (g.unit_mul x)
  left_distrib := g.mul_add
  right_distrib x y z := by
    change g.mul (x + y) z = g.mul x z + g.mul y z
    rw [g.mul_comm, g.mul_add, g.mul_comm z x, g.mul_comm z y]
  zero_mul := g.zero_mul
  mul_zero x := (g.mul_comm x 0).trans (g.zero_mul x)
  mul_comm := g.mul_comm
  exists_pair_ne := ⟨g.unit, 0, g.unit_ne_zero⟩
  mul_inv_cancel x nonzero := g.mul_inv nonzero
  inv_zero := if_pos rfl
  nnqsmul := _
  nnqsmul_def := fun _ _ => rfl
  qsmul := _
  qsmul_def := fun _ _ => rfl

end Generated

end HorizonOs.Lib.GeneratedField
