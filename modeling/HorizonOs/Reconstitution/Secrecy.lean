import HorizonOs.Reconstitution.Recovery
import Mathlib.Data.Fintype.Pi

/-!
# Fewer than k shares say nothing

Where fewer than `k` indices are seen, every change of the secret has a mask for
the random coefficients that leaves the seen values as they were. Adding the mask
pairs the choices `split` can draw for one secret with those for the other.
-/

namespace HorizonOs.Reconstitution

open HorizonOs.Lib.ByteCodec HorizonOs.Lib.SecretSharing

set_option autoImplicit false

instance byteFintype : Fintype UInt8 :=
  Fintype.ofEquiv (Fin 256) ⟨UInt8.ofFin, UInt8.toFin, fun _ => rfl, fun _ => rfl⟩

/-- The indices and values the shares with these indices carry. -/
def carried (indices : Finset UInt8) (shares : List Share) : List (UInt8 × Bytes) :=
  (shares.filter fun s => s.x ∈ indices).map fun s => (s.x, s.y)

/-- A random source that begins with a split's id and its coefficients. -/
def drawing {count : Nat} (id : Fin 4 → UInt8) (coefficients : Fin count → UInt8) : Random :=
  fun i => (List.ofFn id ++ List.ofFn coefficients).getD i 0

def masked (random : Random) (pad : Bytes) : Random := fun i => random i ^^^ pad.getD i 0

/-! ## Values are additive in the coefficients -/

theorem eval_xor (left right : Bytes) (x : UInt8) (size : left.length = right.length) :
    Gf.new.eval (List.zipWith (· ^^^ ·) left right) x =
      Gf.new.eval left x ^^^ Gf.new.eval right x := by
  have sum : (List.zipWith (· ^^^ ·) left right).map GfByte.mk =
      List.zipWith (· + ·) (left.map GfByte.mk) (right.map GfByte.mk) := by
    rw [List.map_zipWith, List.zipWith_map]
    rfl
  have bytes : (⟨Gf.new.eval (List.zipWith (· ^^^ ·) left right) x⟩ : GfByte) =
      ⟨Gf.new.eval left x ^^^ Gf.new.eval right x⟩ := by
    rw [gf_eval, sum, horner_add _ _ _ (by rw [List.length_map, List.length_map, size]),
      ← gf_eval, ← gf_eval, gf_add]
  exact congrArg GfByte.byte bytes

/-- Exchanging a byte for another, with the mask on the other coefficients, leaves
the seen values alone. -/
def Hides (k : UInt8) (indices : Finset UInt8) (delta : UInt8) (mask : Bytes) : Prop :=
  mask.length = k.toNat - 1 ∧ ∀ x ∈ indices, x ≠ 0 → Gf.new.eval (delta :: mask) x = 0

theorem exists_hiding (k : UInt8) (indices : Finset UInt8) (few : indices.card < k.toNat)
    (delta : UInt8) : ∃ mask, Hides k indices delta mask := by
  obtain ⟨tail, size, vanishes⟩ := exists_mask (⟨delta⟩ : GfByte) (indices.toList.map GfByte.mk)
    (k.toNat - 1) (by rw [List.length_map, Finset.length_toList]; omega)
  refine ⟨tail.map GfByte.byte, (List.length_map _).trans size, fun x seen nonzero => ?_⟩
  have bytes : ((delta :: tail.map GfByte.byte).map GfByte.mk) = ⟨delta⟩ :: tail := by
    rw [List.map_cons, List.map_map]
    exact congrArg _ (List.map_id tail)
  have zero := vanishes ⟨x⟩ (List.mem_map_of_mem (Finset.mem_toList.mpr seen))
    (mt (gf_eq_zero x).mp nonzero)
  rw [← bytes, ← gf_eval] at zero
  exact (gf_eq_zero _).mp zero

/-- A mask for every byte that changes. -/
theorem exists_masks (k : UInt8) (indices : Finset UInt8) (few : indices.card < k.toNat)
    (deltas : Bytes) :
    ∃ masks : List Bytes,
      List.Forall₂ (fun delta mask => Hides k indices delta mask) deltas masks := by
  induction deltas with
  | nil => exact ⟨[], .nil⟩
  | cons delta deltas ih =>
      obtain ⟨mask, hides⟩ := exists_hiding k indices few delta
      obtain ⟨masks, rest⟩ := ih
      exact ⟨mask :: masks, .cons hides rest⟩

/-! ## What the mask does to a split -/

theorem masked_rest (random : Random) (mask pad : Bytes) :
    (fun i => masked random (mask ++ pad) (mask.length + i)) =
      masked (fun i => random (mask.length + i)) pad := by
  funext i
  rw [masked, masked, List.getD_append_right _ _ _ _ (Nat.le_add_right _ _),
    Nat.add_sub_cancel_left]

theorem masked_first (random : Random) (mask pad : Bytes) :
    (List.range mask.length).map (masked random (mask ++ pad)) =
      List.zipWith (· ^^^ ·) ((List.range mask.length).map random) mask := by
  apply List.ext_getElem
  · simp
  · intro i left right
    have inside : i < mask.length := by simpa using left
    rw [List.getElem_map, List.getElem_range, List.getElem_zipWith, List.getElem_map,
      List.getElem_range, masked, List.getD_append _ _ _ _ inside, List.getD_eq_getElem _ _ inside]

theorem masked_value (b c x : UInt8) (tail mask : Bytes) (size : tail.length = mask.length)
    (vanishes : Gf.new.eval ((b ^^^ c) :: mask) x = 0) :
    Gf.new.eval (b :: List.zipWith (· ^^^ ·) tail mask) x = Gf.new.eval (c :: tail) x := by
  have head : b = c ^^^ (b ^^^ c) := by
    rw [UInt8.xor_comm b c, ← UInt8.xor_assoc, UInt8.xor_self, UInt8.zero_xor]
  calc Gf.new.eval (b :: List.zipWith (· ^^^ ·) tail mask) x
      = Gf.new.eval (List.zipWith (· ^^^ ·) (c :: tail) ((b ^^^ c) :: mask)) x := by
        rw [List.zipWith_cons_cons, ← head]
    _ = Gf.new.eval (c :: tail) x ^^^ Gf.new.eval ((b ^^^ c) :: mask) x :=
        eval_xor _ _ _ (congrArg Nat.succ size)
    _ = Gf.new.eval (c :: tail) x := by rw [vanishes, UInt8.xor_zero]

/-- Every polynomial keeps its value at a seen index. -/
theorem masked_values (k : UInt8) (indices : Finset UInt8) (x : UInt8) (seen : x ∈ indices)
    (nonzero : x ≠ 0) (secret other : Bytes) (masks : List Bytes)
    (same : secret.length = other.length)
    (hides : List.Forall₂ (fun delta mask => Hides k indices delta mask)
      (List.zipWith (· ^^^ ·) secret other) masks) (random : Random) :
    (drawCoeffs k secret (masked random masks.flatten)).map (Gf.new.eval · x) =
      (drawCoeffs k other random).map (Gf.new.eval · x) := by
  induction secret generalizing other masks random with
  | nil =>
      rw [List.length_eq_zero_iff.mp same.symm]
      rfl
  | cons b secret ih =>
      cases other with
      | nil => contradiction
      | cons c other =>
          cases hides with
          | cons hide hides =>
              rename_i mask masks
              rw [List.flatten_cons, drawCoeffs, drawCoeffs, fillBytes, fillBytes, ← hide.1,
                masked_first, masked_rest, List.map_cons, List.map_cons,
                ih other masks (Nat.succ.inj same) hides,
                masked_value b c x _ mask (by rw [List.length_map, List.length_range])
                  (hide.2 x seen nonzero)]

theorem flatten_length (k : UInt8) (indices : Finset UInt8) (deltas : Bytes)
    (masks : List Bytes)
    (hides : List.Forall₂ (fun delta mask => Hides k indices delta mask) deltas masks) :
    masks.flatten.length = deltas.length * (k.toNat - 1) := by
  induction hides with
  | nil => exact (Nat.zero_mul _).symm
  | cons hide _ ih =>
      rw [List.flatten_cons, List.length_append, hide.1, ih, List.length_cons, Nat.succ_mul,
        Nat.add_comm]

/-! ## The choices of two secrets -/

/-- Adding a mask twice gives the choice back. -/
def maskChoice (count : Nat) (pad : Bytes) : (Fin count → UInt8) ≃ (Fin count → UInt8) where
  toFun choice := fun i => choice i ^^^ pad.getD i 0
  invFun choice := fun i => choice i ^^^ pad.getD i 0
  left_inv choice := by
    funext i
    change choice i ^^^ _ ^^^ _ = _
    rw [UInt8.xor_assoc, UInt8.xor_self, UInt8.xor_zero]
  right_inv choice := by
    funext i
    change choice i ^^^ _ ^^^ _ = _
    rw [UInt8.xor_assoc, UInt8.xor_self, UInt8.xor_zero]

theorem drawing_id {count : Nat} (id : Fin 4 → UInt8) (coefficients : Fin count → UInt8) :
    (fillBytes 4 (drawing id coefficients)).1 = List.ofFn id := by
  rw [fillBytes]
  rfl

theorem drawing_rest {count : Nat} (id : Fin 4 → UInt8) (coefficients : Fin count → UInt8) :
    (fillBytes 4 (drawing id coefficients)).2 = fun i => (List.ofFn coefficients).getD i 0 := by
  funext i
  have beyond : (List.ofFn id).length ≤ 4 + i := by
    rw [List.length_ofFn]
    exact Nat.le_add_right 4 i
  rw [fillBytes]
  change (List.ofFn id ++ List.ofFn coefficients).getD (4 + i) 0 = _
  rw [List.getD_append_right _ _ _ _ beyond, List.length_ofFn, Nat.add_sub_cancel_left]

theorem mask_choice_draws {count : Nat} (coefficients : Fin count → UInt8) (pad : Bytes)
    (size : pad.length = count) :
    (fun i => (List.ofFn (maskChoice count pad coefficients)).getD i 0) =
      masked (fun i => (List.ofFn coefficients).getD i 0) pad := by
  funext i
  rw [masked]
  by_cases inside : i < count
  · rw [List.getD_eq_getElem _ _ (by rwa [List.length_ofFn]),
      List.getD_eq_getElem _ _ (by rwa [List.length_ofFn]), List.getElem_ofFn, List.getElem_ofFn]
    rfl
  · rw [List.getD_eq_default _ _ (by rw [List.length_ofFn]; omega),
      List.getD_eq_default _ _ (by rw [List.length_ofFn]; omega),
      List.getD_eq_default _ _ (by omega), UInt8.xor_self]

theorem draw_coeffs_reads (k : UInt8) (secret : Bytes) (left right : Random)
    (agree : ∀ i < secret.length * (k.toNat - 1), left i = right i) :
    drawCoeffs k secret left = drawCoeffs k secret right := by
  induction secret generalizing left right with
  | nil => rfl
  | cons b secret ih =>
      rw [List.length_cons, Nat.succ_mul] at agree
      have first : (List.range (k.toNat - 1)).map left = (List.range (k.toNat - 1)).map right := by
        apply List.map_congr_left
        intro i member
        exact agree i (by have inside := List.mem_range.mp member; omega)
      rw [drawCoeffs, drawCoeffs, fillBytes, fillBytes, first]
      exact congrArg _ (ih _ _ fun i inside => agree _ (by omega))

/-- `split` draws its id and `k - 1` bytes for every byte of the secret, no more. -/
theorem split_reads (deriveKey : DeriveKey) (secret : Bytes) (k n : UInt8) (left right : Random)
    (agree : ∀ i < 4 + secret.length * (k.toNat - 1), left i = right i) :
    split deriveKey secret k n left = split deriveKey secret k n right := by
  have id : (fillBytes 4 left).1 = (fillBytes 4 right).1 := by
    apply List.map_congr_left
    intro i member
    exact agree i (by have inside := List.mem_range.mp member; omega)
  have coefficients := draw_coeffs_reads k secret (fillBytes 4 left).2 (fillBytes 4 right).2
    fun i inside => agree (4 + i) (by omega)
  simp only [split, id, coefficients]

/-- What the shares with these indices carry, where `split` gives out shares. -/
def observed (deriveKey : DeriveKey) (secret : Bytes) (k n : UInt8) (indices : Finset UInt8)
    (random : Random) : Except Error (List (UInt8 × Bytes)) :=
  (split deriveKey secret k n random).map (carried indices)

/-- Shares of polynomials with the same values at the seen indices carry the same. -/
theorem carried_congr (k n : UInt8) (indices : Finset UInt8) (id : FixedBytes 4)
    (tag tag' : FixedBytes tagLength) (coeffs coeffs' : List Bytes)
    (values : ∀ x ∈ indices, x ≠ 0 →
      coeffs.map (Gf.new.eval · x) = coeffs'.map (Gf.new.eval · x)) :
    carried indices ((List.range' 1 n.toNat).map (shareAt Gf.new id k tag coeffs)) =
      carried indices ((List.range' 1 n.toNat).map (shareAt Gf.new id k tag' coeffs')) := by
  rw [carried, carried, List.filter_map, List.filter_map, List.map_map, List.map_map]
  apply List.map_congr_left
  intro x member
  obtain ⟨inside, seen⟩ := List.mem_filter.mp member
  have share := (issued n (shareAt Gf.new id k tag coeffs x)
    (List.mem_map_of_mem inside)).index
  exact congrArg (Prod.mk (UInt8.ofNat x)) (values _ (of_decide_eq_true seen) share)

theorem observed_masked (deriveKey : DeriveKey) (k n : UInt8) (indices : Finset UInt8)
    (secret other : Bytes) (same : secret.length = other.length) (masks : List Bytes)
    (hides : List.Forall₂ (fun delta mask => Hides k indices delta mask)
      (List.zipWith (· ^^^ ·) secret other) masks) (id : Fin 4 → UInt8) {count : Nat}
    (size : masks.flatten.length = count) (coefficients : Fin count → UInt8) :
    observed deriveKey secret k n indices
        (drawing id (maskChoice count masks.flatten coefficients)) =
      observed deriveKey other k n indices (drawing id coefficients) := by
  have empty : secret = [] ↔ other = [] := by
    rw [← List.length_eq_zero_iff, ← List.length_eq_zero_iff, same]
  by_cases nothing : secret = []
  · rw [observed, split, if_pos nothing, observed, split, if_pos (empty.mp nothing)]
  by_cases zero : k = 0 ∨ n = 0
  · rw [observed, split, if_neg nothing, if_pos zero, observed, split,
      if_neg (mt empty.mpr nothing), if_pos zero]
  by_cases beyond : k > n
  · rw [observed, split, if_neg nothing, if_neg zero, if_pos beyond, observed, split,
      if_neg (mt empty.mpr nothing), if_neg zero, if_pos beyond]
  · rw [observed, split, if_neg nothing, if_neg zero, if_neg beyond, observed, split,
      if_neg (mt empty.mpr nothing), if_neg zero, if_neg beyond]
    simp only [drawing_id, drawing_rest, mask_choice_draws coefficients masks.flatten size,
      Except.map]
    rw [carried_congr]
    intro x seen nonzero
    exact masked_values k indices x seen nonzero secret other masks same hides _

/-- Over all the coefficients `split` can draw, fewer than `k` shares of two secrets
of one length carry the same values equally often, whatever the split's id. -/
theorem few_shares_reveal_nothing (deriveKey : DeriveKey) (k n : UInt8) (indices : Finset UInt8)
    (few : indices.card < k.toNat) (secret other : Bytes) (same : secret.length = other.length)
    (id : Fin 4 → UInt8) :
    (Finset.univ.val.map fun coefficients : Fin (secret.length * (k.toNat - 1)) → UInt8 =>
        observed deriveKey secret k n indices (drawing id coefficients)) =
      (Finset.univ.val.map fun coefficients : Fin (other.length * (k.toNat - 1)) → UInt8 =>
        observed deriveKey other k n indices (drawing id coefficients)) := by
  obtain ⟨masks, hides⟩ := exists_masks k indices few (List.zipWith (· ^^^ ·) secret other)
  have size := flatten_length k indices _ masks hides
  rw [List.length_zipWith, ← same, Nat.min_self] at size
  rw [← same]
  conv_lhs => rw [← Multiset.map_univ_val_equiv (maskChoice _ masks.flatten), Multiset.map_map]
  apply Multiset.map_congr rfl
  intro coefficients _
  exact observed_masked deriveKey k n indices secret other same masks hides id size coefficients

theorem few_shares_reveal_nothing_sample :
    (Finset.univ.val.map fun coefficients : Fin (1 * (2 - 1)) → UInt8 =>
        observed firstBytes [7] 2 3 {2} (drawing (fun _ => 1) coefficients)) =
      (Finset.univ.val.map fun coefficients : Fin (1 * (2 - 1)) → UInt8 =>
        observed firstBytes [9] 2 3 {2} (drawing (fun _ => 1) coefficients)) :=
  few_shares_reveal_nothing firstBytes 2 3 {2} (by decide) [7] [9] rfl (fun _ => 1)

end HorizonOs.Reconstitution
