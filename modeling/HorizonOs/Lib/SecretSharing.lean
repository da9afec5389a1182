import Mathlib.LinearAlgebra.Lagrange
import Mathlib.Data.List.GetD

/-!
# Polynomials as shared secrets

A polynomial as the list of its coefficients, low order first. As many values as
it has coefficients give back its value at zero; fewer are met by a polynomial of
any value at zero, which adding a fixed mask exchanges for one another.
-/

namespace HorizonOs.Lib.SecretSharing

open Polynomial

set_option autoImplicit false

variable {F : Type} [Field F]

/-- The value of a polynomial by Horner's rule. -/
def horner (coeffs : List F) (x : F) : F := coeffs.foldr (fun c acc => acc * x + c) 0

noncomputable def poly (coeffs : List F) : F[X] :=
  coeffs.foldr (fun c higher => higher * X + C c) 0

@[simp] theorem horner_cons (c : F) (coeffs : List F) (x : F) :
    horner (c :: coeffs) x = horner coeffs x * x + c := rfl

theorem horner_zero (c : F) (coeffs : List F) : horner (c :: coeffs) 0 = c := by
  rw [horner_cons, mul_zero, zero_add]

theorem eval_poly (coeffs : List F) (x : F) : (poly coeffs).eval x = horner coeffs x := by
  induction coeffs with
  | nil => exact eval_zero
  | cons c coeffs ih =>
      change (poly coeffs * X + C c).eval x = _
      rw [eval_add, eval_mul, eval_X, eval_C, ih, horner_cons]

theorem coeff_poly (coeffs : List F) (index : Nat) :
    (poly coeffs).coeff index = coeffs.getD index 0 := by
  induction coeffs generalizing index with
  | nil => exact coeff_zero index
  | cons c coeffs ih =>
      change (poly coeffs * X + C c).coeff index = _
      cases index with
      | zero => simp
      | succ index => simp [coeff_mul_X, coeff_C_succ, ih]

theorem degree_poly_lt (coeffs : List F) : (poly coeffs).degree < coeffs.length := by
  rw [degree_lt_iff_coeff_zero]
  intro index beyond
  rw [coeff_poly, List.getD_eq_default _ _ beyond]

theorem horner_add (left right : List F) (x : F) (size : left.length = right.length) :
    horner (List.zipWith (· + ·) left right) x = horner left x + horner right x := by
  induction left generalizing right with
  | nil =>
      cases List.length_eq_zero_iff.mp size.symm
      exact (zero_add 0).symm
  | cons c left ih =>
      cases right with
      | nil => contradiction
      | cons d right =>
          rw [List.zipWith_cons_cons, horner_cons, horner_cons, horner_cons,
            ih right (Nat.succ.inj size)]
          ring

/-! ## Enough values -/

/-- Lagrange's weight of a node for the value at zero. -/
def weightAtZero {ι : Type} [DecidableEq ι] (nodes : Finset ι) (v : ι → F) (i : ι) : F :=
  ∏ j ∈ nodes.erase i, (0 - v j) / (v i - v j)

/-- The weight of a node is not zero when no node is, and they are distinct. -/
theorem weight_at_zero_ne_zero {ι : Type} [DecidableEq ι] (nodes : Finset ι) (v : ι → F)
    (injective : Set.InjOn v nodes) (nonzero : ∀ j ∈ nodes, v j ≠ 0) (i : ι) (here : i ∈ nodes) :
    weightAtZero nodes v i ≠ 0 := by
  apply Finset.prod_ne_zero_iff.mpr
  intro j member
  obtain ⟨apart, inside⟩ := Finset.mem_erase.mp member
  apply div_ne_zero
  · rw [zero_sub]
    exact neg_ne_zero.mpr (nonzero j inside)
  · rw [sub_ne_zero]
    exact fun same => apart (injective inside here same.symm)

theorem eval_basis_zero {ι : Type} [DecidableEq ι] (nodes : Finset ι) (v : ι → F) (i : ι) :
    (Lagrange.basis nodes v i).eval 0 = weightAtZero nodes v i := by
  rw [Lagrange.basis, eval_prod, weightAtZero]
  apply Finset.prod_congr rfl
  intro j _
  rw [Lagrange.basisDivisor, eval_mul, eval_C, eval_sub, eval_X, eval_C, div_eq_inv_mul]

/-- The weighted values at as many nodes as there are coefficients add up to the
value at zero. -/
theorem recovers {ι : Type} [DecidableEq ι] (nodes : Finset ι) (v : ι → F)
    (distinct : Set.InjOn v nodes) (coeffs : List F) (enough : coeffs.length ≤ nodes.card) :
    ∑ i ∈ nodes, horner coeffs (v i) * weightAtZero nodes v i = horner coeffs 0 := by
  have low : (poly coeffs).degree < nodes.card :=
    lt_of_lt_of_le (degree_poly_lt coeffs) (Nat.cast_le.mpr enough)
  have whole := Lagrange.eq_interpolate distinct low
  rw [← eval_poly coeffs 0, whole, Lagrange.interpolate_apply, eval_finsetSum]
  apply Finset.sum_congr rfl
  intro i _
  rw [eval_mul, eval_C, eval_basis_zero, eval_poly]

/-! ## Too few values -/

/-- Any change of the value at zero can be made without changing the values at
fewer nodes than there are coefficients. -/
theorem exists_mask (delta : F) (nodes : List F) (count : Nat) (few : nodes.length ≤ count) :
    ∃ tail : List F, tail.length = count ∧ ∀ x ∈ nodes, x ≠ 0 → horner (delta :: tail) x = 0 := by
  let vanishing : F[X] := C delta * (nodes.map fun x => 1 - C x⁻¹ * X).prod
  have degree : vanishing.natDegree ≤ nodes.length := by
    have factors : ∀ p ∈ nodes.map (fun x => 1 - C x⁻¹ * X), p.natDegree ≤ 1 := by
      intro p member
      obtain ⟨x, _, rfl⟩ := List.mem_map.mp member
      refine (natDegree_sub_le _ _).trans (max_le ?_ ?_)
      · rw [natDegree_one]
        exact Nat.zero_le 1
      · exact (natDegree_C_mul_le _ _).trans natDegree_X_le
    have product := natDegree_list_prod_le (nodes.map fun x => 1 - C x⁻¹ * X)
    have sum := List.sum_le_card_nsmul ((nodes.map fun x => 1 - C x⁻¹ * X).map natDegree) 1
      (by
        intro n member
        obtain ⟨p, inside, rfl⟩ := List.mem_map.mp member
        exact factors p inside)
    rw [List.length_map, List.length_map, smul_eq_mul, mul_one] at sum
    exact (natDegree_C_mul_le _ _).trans (product.trans sum)
  let tail := (List.range count).map fun index => vanishing.coeff (index + 1)
  have head : vanishing.coeff 0 = delta := by
    rw [coeff_zero_eq_eval_zero, eval_mul, eval_C, eval_list_prod]
    have ones : (nodes.map fun x => 1 - C x⁻¹ * X).map (eval 0) = List.replicate nodes.length 1 := by
      rw [List.map_map, List.eq_replicate_iff, List.length_map]
      refine ⟨rfl, fun value member => ?_⟩
      obtain ⟨x, _, rfl⟩ := List.mem_map.mp member
      simp
    rw [ones, List.prod_replicate, one_pow, mul_one]
  have same : poly (delta :: tail) = vanishing := by
    ext index
    rw [coeff_poly]
    cases index with
    | zero => exact head.symm
    | succ index =>
        rw [List.getD_cons_succ]
        by_cases inside : index < count
        · simp [tail, inside]
        · rw [List.getD_eq_default _ _ (by simpa [tail] using inside)]
          exact (coeff_eq_zero_of_natDegree_lt (by omega)).symm
  refine ⟨tail, by simp [tail], fun x member nonzero => ?_⟩
  rw [← eval_poly, same, eval_mul, eval_list_prod]
  apply mul_eq_zero_of_right
  apply List.prod_eq_zero
  rw [List.map_map, List.mem_map]
  exact ⟨x, member, by simp [nonzero]⟩

end HorizonOs.Lib.SecretSharing
