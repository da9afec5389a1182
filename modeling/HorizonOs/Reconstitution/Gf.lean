import HorizonOs.Lib.GeneratedField
import Mathlib.Dynamics.PeriodicPts.Defs
import Mathlib.Order.Interval.Finset.Nat
import Mathlib.Data.List.GetD

/-!
# Arithmetic in GF(2^8)

The tables of logarithms and powers of the generator 3 under the AES reduction
polynomial, multiplication and division through them, and the field they make:
multiplying by 3 is additive, and its powers run through the nonzero bytes.
-/

namespace HorizonOs.Reconstitution

open HorizonOs.Lib.GeneratedField

set_option autoImplicit false

def reductionPoly : UInt16 := 0x11b

structure Gf where
  exp : List UInt8
  log : List UInt8

/-- Multiply by the generator 3, then reduce. -/
def timesThree (x : UInt16) : UInt16 :=
  let x := x ^^^ (x <<< 1)
  if x &&& 0x100 ≠ 0 then x ^^^ reductionPoly else x

/-- One pass of the loop of `new`: the two tables and the running power. -/
def tabulate (state : Gf × UInt16) (i : Nat) : Gf × UInt16 :=
  (⟨state.1.exp.set i state.2.toUInt8, state.1.log.set state.2.toNat (UInt8.ofNat i)⟩,
    timesThree state.2)

/-- The powers once more, so that a sum of two logarithms needs no modulo. -/
def repeatPowers (exp : List UInt8) (i : Nat) : List UInt8 := exp.set i (exp.getD (i - 255) 0)

def Gf.new : Gf :=
  let (gf, _) := (List.range 255).foldl tabulate (⟨List.replicate 512 0, List.replicate 256 0⟩, 1)
  ⟨(List.range' 255 257).foldl repeatPowers gf.exp, gf.log⟩

def Gf.logOf (gf : Gf) (a : UInt8) : Nat := (gf.log.getD a.toNat 0).toNat

def Gf.mul (gf : Gf) (a b : UInt8) : UInt8 :=
  if a = 0 ∨ b = 0 then 0 else gf.exp.getD (gf.logOf a + gf.logOf b) 0

/-- The caller guarantees that `b` is not zero. -/
def Gf.div (gf : Gf) (a b : UInt8) : UInt8 :=
  if a = 0 then 0 else gf.exp.getD (gf.logOf a + 255 - gf.logOf b) 0

/-- Evaluate a polynomial, coefficients low order first, by Horner's method. -/
def Gf.eval (gf : Gf) (coeffs : List UInt8) (x : UInt8) : UInt8 :=
  coeffs.reverse.foldl (fun acc c => gf.mul acc x ^^^ c) 0

/-! ## Multiplying by the generator -/

/-- Multiplication by the generator, on reduced bytes. -/
def step (x : UInt8) : UInt8 := (timesThree x.toUInt16).toUInt8

theorem forall_byte (property : UInt8 → Prop) (each : ∀ n < 256, property (UInt8.ofNat n))
    (x : UInt8) : property x := by
  have holds := each x.toNat x.toNat_lt
  rwa [UInt8.ofNat_toNat] at holds

/-- What the reduction takes away. -/
def carry (x : UInt8) : UInt8 := if x &&& 0x80 = 0 then 0 else 0x1b

theorem step_eq (x : UInt8) : step x = x ^^^ (x <<< 1) ^^^ carry x :=
  forall_byte (fun x => step x = x ^^^ (x <<< 1) ^^^ carry x) (by decide +kernel) x

theorem top_bit (x : UInt8) : x &&& 0x80 = 0 ∨ x &&& 0x80 = 0x80 :=
  forall_byte (fun x => x &&& 0x80 = 0 ∨ x &&& 0x80 = 0x80) (by decide +kernel) x

/-- The running power stays a byte. -/
theorem times_three (x : UInt8) : timesThree x.toUInt16 = (step x).toUInt16 :=
  forall_byte (fun x => timesThree x.toUInt16 = (step x).toUInt16) (by decide +kernel) x

theorem carry_xor (x y : UInt8) : carry (x ^^^ y) = carry x ^^^ carry y := by
  have bits : (x ^^^ y) &&& 0x80 = (x &&& 0x80) ^^^ (y &&& 0x80) := by
    apply UInt8.toNat_inj.mp
    simp only [UInt8.toNat_and, UInt8.toNat_xor, Nat.and_xor_distrib_right]
  unfold carry
  rw [bits]
  rcases top_bit x with left | left <;> rcases top_bit y with right | right <;>
    rw [left, right] <;> decide

theorem step_xor (x y : UInt8) : step (x ^^^ y) = step x ^^^ step y := by
  rw [step_eq, step_eq, step_eq, carry_xor, UInt8.shiftLeft_xor]
  ac_rfl

theorem step_ne_zero {x : UInt8} (nonzero : x ≠ 0) : step x ≠ 0 :=
  forall_byte (fun x => x ≠ 0 → step x ≠ 0) (by decide +kernel) x nonzero

/-! ## The powers of the generator -/

def power (count : Nat) : UInt8 := step^[count] 1

theorem power_succ (count : Nat) : power (count + 1) = step (power count) :=
  Function.iterate_succ_apply' step count 1

theorem power_ne_zero (count : Nat) : power count ≠ 0 := by
  induction count with
  | zero => decide
  | succ count ih =>
      rw [power_succ]
      exact step_ne_zero ih

theorem power_period : power 255 = 1 := by decide +kernel

theorem periodic_iff (count : Nat) : Function.IsPeriodicPt step count 1 ↔ power count = 1 := .rfl

theorem power_add {period : Nat} (one : power period = 1) (count : Nat) :
    power (period + count) = power count := by
  rw [power, Nat.add_comm, Function.iterate_add_apply]
  exact congrArg step^[count] one

theorem divisor_of_255 : ∀ count < 256, count ∣ 255 → ¬count ∣ 15 → ¬count ∣ 51 → ¬count ∣ 85 →
    count = 255 := by decide +kernel

/-- 255 is 3 * 5 * 17, and no divisor of it is a period already. -/
theorem order_of_three : Function.minimalPeriod step 1 = 255 := by
  have divides : Function.minimalPeriod step 1 ∣ 255 :=
    Function.isPeriodicPt_iff_minimalPeriod_dvd.mp ((periodic_iff 255).mpr power_period)
  have short : ∀ count, power count ≠ 1 → ¬Function.minimalPeriod step 1 ∣ count :=
    fun count other period =>
      other ((periodic_iff count).mp (Function.isPeriodicPt_iff_minimalPeriod_dvd.mpr period))
  have seventeen := short 15 (by decide +kernel)
  have five := short 51 (by decide +kernel)
  have three := short 85 (by decide +kernel)
  have below := Nat.lt_succ_of_le (Nat.le_of_dvd (by omega) divides)
  exact divisor_of_255 _ below divides seventeen five three

theorem power_injective {i j : Nat} (left : i < 255) (right : j < 255)
    (same : power i = power j) : i = j := by
  rw [← order_of_three] at left right
  exact Function.iterate_injOn_Iio_minimalPeriod left right same

/-- 255 different nonzero bytes are all of them. -/
theorem power_surjective (x : UInt8) (nonzero : x ≠ 0) : ∃ i < 255, power i = x := by
  have numbers : (Finset.range 255).image (fun i => (power i).toNat) = Finset.Icc 1 255 := by
    apply Finset.eq_of_subset_of_card_le
    · intro n member
      obtain ⟨i, _, rfl⟩ := Finset.mem_image.mp member
      have positive : (power i).toNat ≠ 0 :=
        fun zero => power_ne_zero i (UInt8.toNat_inj.mp zero)
      have below := (power i).toNat_lt
      rw [Finset.mem_Icc]
      omega
    · rw [Nat.card_Icc, Finset.card_image_of_injOn, Finset.card_range]
      intro i left j right same
      exact power_injective (Finset.mem_range.mp left) (Finset.mem_range.mp right)
        (UInt8.toNat_inj.mp same)
  have inside : x.toNat ∈ Finset.Icc 1 255 := by
    have positive : x.toNat ≠ 0 := fun zero => nonzero (UInt8.toNat_inj.mp zero)
    have below := x.toNat_lt
    rw [Finset.mem_Icc]
    omega
  rw [← numbers] at inside
  obtain ⟨i, member, same⟩ := Finset.mem_image.mp inside
  exact ⟨i, Finset.mem_range.mp member, UInt8.toNat_inj.mp same⟩

/-! ## The tables -/

/-- The tables as far as the loop of `new` has come. -/
structure Tabulated (count : Nat) (state : Gf × UInt16) : Prop where
  expSize : state.1.exp.length = 512
  logSize : state.1.log.length = 256
  exp : ∀ i < count, state.1.exp[i]? = some (power i)
  log : ∀ i < count, state.1.log[(power i).toNat]? = some (UInt8.ofNat i)
  running : state.2 = (power count).toUInt16

theorem Tabulated.next {count : Nat} {state : Gf × UInt16} (tabulated : Tabulated count state)
    (inside : count < 255) : Tabulated (count + 1) (tabulate state count) where
  expSize := (List.length_set ..).trans tabulated.expSize
  logSize := (List.length_set ..).trans tabulated.logSize
  exp i below := by
    simp only [tabulate, tabulated.running, UInt8.toUInt8_toUInt16]
    by_cases last : i = count
    · subst last
      rw [List.getElem?_set_self (by rw [tabulated.expSize]; omega)]
    · rw [List.getElem?_set_ne (Ne.symm last)]
      exact tabulated.exp i (by omega)
  log i below := by
    simp only [tabulate, tabulated.running, UInt8.toNat_toUInt16]
    by_cases last : i = count
    · subst last
      rw [List.getElem?_set_self (by rw [tabulated.logSize]; exact (power i).toNat_lt)]
    · rw [List.getElem?_set_ne]
      · exact tabulated.log i (by omega)
      · intro same
        exact last (power_injective (by omega) inside (UInt8.toNat_inj.mp same).symm)
  running := by
    simp only [tabulate, tabulated.running, times_three, power_succ]

theorem tabulated_range (count : Nat) (inside : count ≤ 255) :
    Tabulated count ((List.range count).foldl tabulate
      (⟨List.replicate 512 0, List.replicate 256 0⟩, 1)) := by
  induction count with
  | zero =>
      exact ⟨List.length_replicate, List.length_replicate, fun i below => absurd below (by omega),
        fun i below => absurd below (by omega), rfl⟩
  | succ count ih =>
      rw [List.range_succ, List.foldl_append]
      exact (ih (by omega)).next (by omega)

theorem repeated_range (exp : List UInt8) (size : exp.length = 512)
    (once : ∀ i < 255, exp[i]? = some (power i)) (count : Nat) (inside : count ≤ 257) :
    ((List.range' 255 count).foldl repeatPowers exp).length = 512 ∧
      ∀ i < 255 + count, ((List.range' 255 count).foldl repeatPowers exp)[i]? =
        some (power i) := by
  induction count with
  | zero =>
      rw [List.range'_zero, List.foldl_nil]
      exact ⟨size, once⟩
  | succ count ih =>
      obtain ⟨length, filled⟩ := ih (by omega)
      rw [List.range'_1_concat, List.foldl_append]
      set before := (List.range' 255 count).foldl repeatPowers exp
      have source := filled count (by omega)
      constructor
      · exact (List.length_set ..).trans length
      · intro i below
        change (before.set (255 + count) (before.getD (255 + count - 255) 0))[i]? = _
        by_cases last : i = 255 + count
        · subst last
          rw [List.getElem?_set_self (by omega), Nat.add_sub_cancel_left,
            List.getD_eq_getElem?_getD, source, Option.getD_some, power_add power_period]
        · rw [List.getElem?_set_ne (Ne.symm last)]
          exact filled i (by omega)

theorem exp_get (count : Nat) (inside : count < 512) :
    Gf.new.exp.getD count 0 = power count := by
  have tables := tabulated_range 255 (Nat.le_refl 255)
  have filled := (repeated_range _ tables.expSize tables.exp 257 (Nat.le_refl 257)).2 count inside
  rw [List.getD_eq_getElem?_getD, Gf.new, filled, Option.getD_some]

theorem log_power (i : Nat) (inside : i < 255) : Gf.new.logOf (power i) = i := by
  have entry := (tabulated_range 255 (Nat.le_refl 255)).log i inside
  rw [Gf.logOf, List.getD_eq_getElem?_getD, Gf.new, entry, Option.getD_some,
    UInt8.toNat_ofNat', Nat.mod_eq_of_lt (by omega)]

theorem log_lt (x : UInt8) (nonzero : x ≠ 0) : Gf.new.logOf x < 255 := by
  obtain ⟨i, inside, rfl⟩ := power_surjective x nonzero
  rwa [log_power i inside]

theorem power_log (x : UInt8) (nonzero : x ≠ 0) : power (Gf.new.logOf x) = x := by
  obtain ⟨i, inside, rfl⟩ := power_surjective x nonzero
  rw [log_power i inside]

attribute [irreducible] Gf.new

/-! ## The field -/

/-- A byte as an element of the field. -/
@[ext]
structure GfByte where
  byte : UInt8
  deriving DecidableEq

instance : Zero GfByte := ⟨⟨0⟩⟩

instance : Add GfByte := ⟨fun x y => ⟨x.byte ^^^ y.byte⟩⟩

instance : Neg GfByte := ⟨fun x => x⟩

instance : AddCommGroup GfByte where
  nsmul := nsmulRec
  zsmul := zsmulRec
  add_assoc x y z := GfByte.ext (UInt8.xor_assoc x.byte y.byte z.byte)
  zero_add x := GfByte.ext UInt8.zero_xor
  add_zero x := GfByte.ext UInt8.xor_zero
  neg_add_cancel x := GfByte.ext UInt8.xor_self
  add_comm x y := GfByte.ext (UInt8.xor_comm x.byte y.byte)

theorem gf_add (x y : UInt8) : (⟨x ^^^ y⟩ : GfByte) = ⟨x⟩ + ⟨y⟩ := rfl

theorem gf_zero : (⟨0⟩ : GfByte) = 0 := rfl

theorem gf_neg (x : GfByte) : -x = x := rfl

def gfStep : GfByte →+ GfByte where
  toFun x := ⟨step x.byte⟩
  map_zero' := GfByte.ext (by decide)
  map_add' x y := GfByte.ext (step_xor x.byte y.byte)

theorem gf_iterate (count : Nat) (x : GfByte) : gfStep^[count] x = ⟨step^[count] x.byte⟩ := by
  induction count with
  | zero => rfl
  | succ count ih =>
      rw [Function.iterate_succ_apply', Function.iterate_succ_apply', ih]
      rfl

theorem byte_ne_zero {x : GfByte} (nonzero : x ≠ 0) : x.byte ≠ 0 :=
  fun zero => nonzero (GfByte.ext zero)

def gfGenerated : Generated GfByte where
  step := gfStep
  unit := ⟨1⟩
  order := 255
  log x := Gf.new.logOf x.byte
  unit_ne_zero := by decide
  period := by
    rw [gf_iterate]
    exact congrArg GfByte.mk power_period
  log_lt x nonzero := log_lt x.byte (byte_ne_zero nonzero)
  exp_log x nonzero := by
    rw [gf_iterate]
    exact congrArg GfByte.mk (power_log x.byte (byte_ne_zero nonzero))
  exp_ne_zero count := by
    rw [gf_iterate]
    exact fun zero => power_ne_zero count (congrArg GfByte.byte zero)

instance : Field GfByte := gfGenerated.field

theorem gf_eq_zero (x : UInt8) : (⟨x⟩ : GfByte) = 0 ↔ x = 0 :=
  ⟨fun same => congrArg GfByte.byte same, fun same => GfByte.ext same⟩

theorem gf_log (x : UInt8) : gfGenerated.log ⟨x⟩ = Gf.new.logOf x := rfl

theorem gf_order : gfGenerated.order = 255 := rfl

theorem gf_exp (count : Nat) (inside : count < 512) :
    (⟨Gf.new.exp.getD count 0⟩ : GfByte) = gfGenerated.exp count := by
  rw [exp_get count inside]
  rw [Generated.exp]
  exact (gf_iterate count ⟨1⟩).symm

/-- The tables multiply as the field does. -/
theorem gf_mul (a b : UInt8) : (⟨Gf.new.mul a b⟩ : GfByte) = ⟨a⟩ * ⟨b⟩ := by
  change _ = gfGenerated.mul ⟨a⟩ ⟨b⟩
  rw [Gf.mul, Generated.mul]
  by_cases zero : a = 0 ∨ b = 0
  · rw [if_pos zero, if_pos (zero.imp (gf_eq_zero a).mpr (gf_eq_zero b).mpr)]
    rfl
  · obtain ⟨left, right⟩ := not_or.mp zero
    have leftLog := log_lt a left
    have rightLog := log_lt b right
    rw [if_neg zero, if_neg (by rwa [gf_eq_zero, gf_eq_zero]), gf_exp _ (by omega), gf_log,
      gf_log]

theorem gf_div (a b : UInt8) (nonzero : b ≠ 0) :
    (⟨Gf.new.div a b⟩ : GfByte) = ⟨a⟩ / ⟨b⟩ := by
  rw [div_eq_mul_inv]
  change _ = gfGenerated.mul ⟨a⟩ (gfGenerated.inv ⟨b⟩)
  by_cases zero : a = 0
  · subst zero
    rw [Gf.div, if_pos rfl]
    exact (gfGenerated.zero_mul _).symm
  · have leftLog := log_lt a zero
    have rightLog := log_lt b nonzero
    have dividend : (⟨a⟩ : GfByte) ≠ 0 := mt (gf_eq_zero a).mp zero
    have divisor : (⟨b⟩ : GfByte) ≠ 0 := mt (gf_eq_zero b).mp nonzero
    rw [Gf.div, if_neg zero, Nat.add_sub_assoc rightLog.le, gf_exp _ (by omega),
      gfGenerated.mul_eq_iterate dividend, Generated.inv, if_neg divisor, Generated.exp,
      Generated.exp, ← Function.iterate_add_apply, gf_log, gf_log, gf_order]

end HorizonOs.Reconstitution
