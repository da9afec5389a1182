import HorizonOs.Lib.ByteCodec
import HorizonOs.Lib.SecretSharing
import HorizonOs.Reconstitution.Gf

/-!
# Recovery shares

Each byte of the secret is the constant term of a random polynomial of degree
`k - 1`, and a share samples every one of them at its own index. Any `k` shares
of one split give the polynomials' values at zero by Lagrange's weights, so
`combine` rebuilds the secret and its tag agrees with the shares'.
-/

namespace HorizonOs.Reconstitution

open HorizonOs.Lib.ByteCodec HorizonOs.Lib.SecretSharing

set_option autoImplicit false

inductive Error where
  | params (text : String)
  | malformed (text : String)
  | mixedSet
  | duplicate (index : UInt8)
  | insufficient (present : Nat) (need : UInt8)
  | integrity
  deriving DecidableEq

def Error.display : Error → String
  | .params text => s!"bad parameters: {text}"
  | .malformed text => s!"malformed share: {text}"
  | .mixedSet => "shares are from different splits"
  | .duplicate index => s!"share index {index.toNat} appears twice"
  | .insufficient present need => s!"not enough shares: have {present}, need {need.toNat}"
  | .integrity => "recovered secret failed its integrity check"

def tagLength : Nat := 16

def tagContext : String := "horizon reconstitution tag v1"

/-- One recovery share: the split it belongs to, the threshold, its index, the tag
the whole set shares, and a value for every byte of the secret. -/
structure Share where
  id : FixedBytes 4
  k : UInt8
  x : UInt8
  tag : FixedBytes tagLength
  y : Bytes
  deriving DecidableEq

/-- The bytes the system's random source has still to give. -/
abbrev Random := Nat → UInt8

def fillBytes (count : Nat) (random : Random) : Bytes × Random :=
  ((List.range count).map random, fun i => random (count + i))

/-- `blake3::derive_key`, by context string. -/
abbrev DeriveKey := String → Bytes → FixedBytes 32

/-- A commitment to the secret, carried on every share. -/
def tagOf (deriveKey : DeriveKey) (secret : Bytes) : FixedBytes tagLength :=
  FixedBytes.ofBytes tagLength (deriveKey tagContext secret).bytes

/-- One random polynomial for every byte of the secret; for `k = 1` nothing is drawn. -/
def drawCoeffs (k : UInt8) : Bytes → Random → List Bytes
  | [], _ => []
  | b :: secret, random =>
      let (tail, random) := fillBytes (k.toNat - 1) random
      (b :: tail) :: drawCoeffs k secret random

def shareAt (gf : Gf) (id : FixedBytes 4) (k : UInt8) (tag : FixedBytes tagLength)
    (coeffs : List Bytes) (x : Nat) : Share where
  id := id
  k := k
  x := UInt8.ofNat x
  tag := tag
  y := coeffs.map fun c => gf.eval c (UInt8.ofNat x)

def split (deriveKey : DeriveKey) (secret : Bytes) (k n : UInt8) (random : Random) :
    Except Error (List Share) :=
  if secret = [] then
    .error (.params "secret is empty")
  else if k = 0 ∨ n = 0 then
    .error (.params "k and n must be at least 1")
  else if k > n then
    .error (.params s!"k ({k.toNat}) exceeds n ({n.toNat})")
  else
    let (id, random) := fillBytes 4 random
    let coeffs := drawCoeffs k secret random
    .ok ((List.range' 1 n.toNat).map
      (shareAt Gf.new (FixedBytes.ofBytes 4 id) k (tagOf deriveKey secret) coeffs))

/-- The loop over the shares: one split, and every index nonzero and new. -/
def checkSet (first : Share) : List UInt8 → List Share → Except Error Unit
  | _, [] => .ok ()
  | seen, s :: shares =>
      if s.id ≠ first.id ∨ s.k ≠ first.k ∨ s.tag ≠ first.tag ∨ s.y.length ≠ first.y.length then
        .error .mixedSet
      else if s.x = 0 then
        .error (.malformed "index is zero")
      else if s.x ∈ seen then
        .error (.duplicate s.x)
      else
        checkSet first (s.x :: seen) shares

/-- The inner loop of the interpolation: the two products that make a weight. -/
def weigh (gf : Gf) (xs : List UInt8) (i : Nat) (fraction : UInt8 × UInt8) (j : Nat) :
    UInt8 × UInt8 :=
  if i ≠ j then
    (gf.mul fraction.1 (xs.getD j 0), gf.mul fraction.2 (xs.getD i 0 ^^^ xs.getD j 0))
  else fraction

/-- Lagrange's interpolation at zero; in this field subtraction is xor. -/
def interpolate (gf : Gf) (xs ys : List UInt8) : UInt8 :=
  (List.range xs.length).foldl (fun acc i =>
    let (num, den) := (List.range xs.length).foldl (weigh gf xs i) (1, 1)
    acc ^^^ gf.mul (ys.getD i 0) (gf.div num den)) 0

def combine (deriveKey : DeriveKey) (shares : List Share) : Except Error Bytes :=
  match shares with
  | [] => .error (.params "no shares given")
  | first :: _ =>
      match checkSet first [] shares with
      | .error error => .error error
      | .ok () =>
          if shares.length < first.k.toNat then
            .error (.insufficient shares.length first.k)
          else
            let pts := shares.take first.k.toNat
            let secret := (List.range first.y.length).map fun byte =>
              interpolate Gf.new (pts.map (·.x)) (pts.map fun s => s.y.getD byte 0)
            if tagOf deriveKey secret ≠ first.tag then .error .integrity else .ok secret

/-! ## Interpolation in the field -/

/-- A share's value is the polynomial's, by Horner's rule. -/
theorem gf_eval (coeffs : Bytes) (x : UInt8) :
    (⟨Gf.new.eval coeffs x⟩ : GfByte) = horner (coeffs.map GfByte.mk) ⟨x⟩ := by
  rw [Gf.eval, List.foldl_reverse]
  induction coeffs with
  | nil => rfl
  | cons c coeffs ih =>
      rw [List.foldr_cons, List.map_cons, horner_cons, ← ih, ← gf_mul]
      rfl

/-- The node with index `i`. -/
def node (xs : List UInt8) (i : Nat) : GfByte := ⟨xs.getD i 0⟩

theorem node_sub (xs : List UInt8) (i j : Nat) :
    (⟨xs.getD i 0 ^^^ xs.getD j 0⟩ : GfByte) = node xs i - node xs j := by
  rw [gf_add, sub_eq_add_neg, gf_neg]
  rfl

/-- The two products so far. -/
theorem weigh_range (xs : List UInt8) (i count : Nat) :
    (⟨((List.range count).foldl (weigh Gf.new xs i) (1, 1)).1⟩ : GfByte) =
        ∏ j ∈ Finset.range count, (if j = i then 1 else node xs j) ∧
      (⟨((List.range count).foldl (weigh Gf.new xs i) (1, 1)).2⟩ : GfByte) =
        ∏ j ∈ Finset.range count, (if j = i then 1 else node xs i - node xs j) := by
  induction count with
  | zero => exact ⟨rfl, rfl⟩
  | succ count ih =>
      rw [List.range_succ, List.foldl_append, Finset.prod_range_succ, Finset.prod_range_succ,
        ← ih.1, ← ih.2, List.foldl_cons, List.foldl_nil, weigh]
      by_cases same : count = i
      · rw [if_neg (not_not.mpr same.symm), if_pos same, if_pos same, mul_one, mul_one]
        exact ⟨rfl, rfl⟩
      · rw [if_pos (Ne.symm same), if_neg same, if_neg same, gf_mul, gf_mul, node_sub]
        exact ⟨rfl, rfl⟩

theorem prod_skip (count i : Nat) (value : Nat → GfByte) :
    ∏ j ∈ Finset.range count, (if j = i then 1 else value j) =
      ∏ j ∈ (Finset.range count).erase i, value j := by
  have one : (if i = i then 1 else value i) = 1 := if_pos rfl
  rw [← Finset.prod_erase (Finset.range count) one]
  apply Finset.prod_congr rfl
  intro j member
  exact if_neg (Finset.mem_erase.mp member).1

/-- The fraction of the two products is Lagrange's weight. -/
theorem weigh_eq (xs : List UInt8) (i : Nat)
    (distinct : Set.InjOn (node xs) (Finset.range xs.length)) (inside : i < xs.length) :
    (⟨Gf.new.div ((List.range xs.length).foldl (weigh Gf.new xs i) (1, 1)).1
        ((List.range xs.length).foldl (weigh Gf.new xs i) (1, 1)).2⟩ : GfByte) =
      weightAtZero (Finset.range xs.length) (node xs) i := by
  obtain ⟨num, den⟩ := weigh_range xs i xs.length
  rw [prod_skip] at num den
  have nonzero : ((List.range xs.length).foldl (weigh Gf.new xs i) (1, 1)).2 ≠ 0 := by
    rw [Ne, ← gf_eq_zero, den, Finset.prod_eq_zero_iff]
    rintro ⟨j, member, same⟩
    obtain ⟨other, within⟩ := Finset.mem_erase.mp member
    exact other (distinct within (Finset.mem_coe.mpr (Finset.mem_range.mpr inside))
      (sub_eq_zero.mp same).symm)
  rw [gf_div _ _ nonzero, num, den, ← Finset.prod_div_distrib, weightAtZero]
  apply Finset.prod_congr rfl
  intro j _
  rw [zero_sub, gf_neg]

theorem interpolate_range (xs ys : List UInt8)
    (distinct : Set.InjOn (node xs) (Finset.range xs.length)) (count : Nat)
    (inside : count ≤ xs.length) :
    (⟨(List.range count).foldl (fun acc i =>
        let (num, den) := (List.range xs.length).foldl (weigh Gf.new xs i) (1, 1)
        acc ^^^ Gf.new.mul (ys.getD i 0) (Gf.new.div num den)) 0⟩ : GfByte) =
      ∑ i ∈ Finset.range count,
        node ys i * weightAtZero (Finset.range xs.length) (node xs) i := by
  induction count with
  | zero => rfl
  | succ count ih =>
      rw [List.range_succ, List.foldl_append, Finset.sum_range_succ, ← ih (by omega),
        ← weigh_eq xs count distinct (by omega), node, ← gf_mul, ← gf_add]
      rfl

theorem node_injective (xs : List UInt8) (distinct : xs.Nodup) :
    Set.InjOn (node xs) (Finset.range xs.length) := by
  intro i left j right same
  have leftInside := Finset.mem_range.mp (Finset.mem_coe.mp left)
  have rightInside := Finset.mem_range.mp (Finset.mem_coe.mp right)
  have bytes : xs.getD i 0 = xs.getD j 0 := congrArg GfByte.byte same
  rw [List.getD_eq_getElem _ _ leftInside, List.getD_eq_getElem _ _ rightInside] at bytes
  exact (List.Nodup.getElem_inj_iff distinct).mp bytes

/-- As many values of a polynomial as it has coefficients give back its constant term. -/
theorem interpolate_eval (b : UInt8) (tail : Bytes) (xs : List UInt8) (distinct : xs.Nodup)
    (enough : tail.length < xs.length) :
    interpolate Gf.new xs (xs.map (Gf.new.eval (b :: tail))) = b := by
  have injective := node_injective xs distinct
  have whole := interpolate_range xs (xs.map (Gf.new.eval (b :: tail))) injective xs.length le_rfl
  have values : ∀ i ∈ Finset.range xs.length,
      node (xs.map (Gf.new.eval (b :: tail))) i *
          weightAtZero (Finset.range xs.length) (node xs) i =
        horner ((b :: tail).map GfByte.mk) (node xs i) *
          weightAtZero (Finset.range xs.length) (node xs) i := by
    intro i member
    have inside := Finset.mem_range.mp member
    rw [node, List.getD_eq_getElem _ _ (by rwa [List.length_map]), List.getElem_map, gf_eval,
      node, List.getD_eq_getElem _ _ inside]
  rw [Finset.sum_congr rfl values,
    recovers _ _ injective _ (by rw [List.length_map, Finset.card_range]; exact enough),
    List.map_cons, horner_zero] at whole
  exact congrArg GfByte.byte whole

end HorizonOs.Reconstitution
