import HorizonOs.Lib.Text

/-!
# Numbers in hexadecimal text

Digits of a fixed width, most significant first, and the standard parser of a radix, which
takes a sign and either case.
-/

namespace HorizonOs.Lib.Hex

open HorizonOs.Lib.Text

set_option autoImplicit false

/-- `from_str_radix(16)` where the number cannot be too large for its type. -/
def parseHex (text : List Char) : Option Nat :=
  let digits := if text.head? = some '+' then text.tail else text
  if digits = [] then none
  else digits.foldlM (fun value c => (hexValue c).map (16 * value + ·)) 0

def upperDigit (value : Nat) : Char :=
  if value < 10 then Char.ofNat (48 + value) else Char.ofNat (55 + value)

/-- The lowest `width` digits of a number. -/
def upperHex : Nat → Nat → List Char
  | 0, _ => []
  | width + 1, value => upperHex width (value / 16) ++ [upperDigit (value % 16)]

@[simp] theorem length_upper_hex (width value : Nat) : (upperHex width value).length = width := by
  induction width generalizing value with
  | zero => rfl
  | succ width ih => rw [upperHex, List.length_append, ih, List.length_singleton]

theorem upper_digit_value : ∀ value < 16, hexValue (upperDigit value) = some value := by
  decide

theorem upper_digit_size : ∀ value < 16, (upperDigit value).utf8Size = 1 ∧ upperDigit value ≠ '+' := by
  decide

theorem mem_upper_hex (width value : Nat) :
    ∀ c ∈ upperHex width value, ∃ digit < 16, c = upperDigit digit := by
  induction width generalizing value with
  | zero => exact fun c member => absurd member List.not_mem_nil
  | succ width ih =>
      intro c member
      rcases List.mem_append.mp member with high | low
      · exact ih _ c high
      · exact ⟨value % 16, Nat.mod_lt _ (by decide), List.mem_singleton.mp low⟩

/-- Each digit is a byte. -/
theorem utf8_upper_hex_length (width value : Nat) :
    (utf8 (String.ofList (upperHex width value))).length = width := by
  have sizes : ∀ chars : List Char, (∀ c ∈ chars, c.utf8Size = 1) →
      (chars.map Char.utf8Size).sum = chars.length := by
    intro chars
    induction chars with
    | nil => exact fun _ => rfl
    | cons c chars ih =>
        intro single
        rw [List.map_cons, List.sum_cons, single c List.mem_cons_self,
          ih fun d member => single d (List.mem_cons_of_mem c member), List.length_cons, Nat.add_comm]
  rw [utf8_length, sizes, length_upper_hex]
  intro c member
  obtain ⟨digit, small, rfl⟩ := mem_upper_hex width value c member
  exact (upper_digit_size digit small).1

theorem fold_upper_hex (width value : Nat) :
    (upperHex width value).foldlM (fun value c => (hexValue c).map (16 * value + ·)) 0 =
      some (value % 16 ^ width) := by
  induction width generalizing value with
  | zero =>
      rw [pow_zero, Nat.mod_one]
      rfl
  | succ width ih =>
      have wider : 16 ^ (width + 1) = 16 * 16 ^ width := pow_succ' 16 width
      rw [upperHex, List.foldlM_append, ih, Option.bind_eq_bind, Option.bind_some, List.foldlM_cons,
        upper_digit_value _ (Nat.mod_lt _ (by decide)), Option.map_some, Option.bind_eq_bind,
        Option.bind_some, List.foldlM_nil, wider, Nat.mod_mul, Nat.add_comm]
      rfl

/-- What is written is read back, cut to its width. -/
theorem parse_upper_hex (width value : Nat) :
    parseHex (upperHex (width + 1) value) = some (value % 16 ^ (width + 1)) := by
  have some : upperHex (width + 1) value ≠ [] := by
    rw [upperHex]
    exact List.append_ne_nil_of_right_ne_nil _ (List.cons_ne_nil _ _)
  have plain : (upperHex (width + 1) value).head? ≠ Option.some '+' := by
    intro sign
    obtain ⟨digit, small, same⟩ :=
      mem_upper_hex _ _ '+' (List.mem_of_mem_head? (Option.mem_def.mpr sign))
    exact (upper_digit_size digit small).2 same.symm
  rw [parseHex]
  simp only [if_neg plain, if_neg some]
  exact fold_upper_hex (width + 1) value

theorem hex_value_lt {c : Char} {value : Nat} (parsed : hexValue c = some value) : value < 16 := by
  rw [hexValue] at parsed
  split_ifs at parsed with decimal lower upper
  · have bound : c.toNat ≤ '9'.toNat := decimal.2
    cases parsed
    change c.toNat ≤ 57 at bound
    omega
  · have bound : c.toNat ≤ 'f'.toNat := lower.2
    cases parsed
    change c.toNat ≤ 102 at bound
    omega
  · have bound : c.toNat ≤ 'F'.toNat := upper.2
    cases parsed
    change c.toNat ≤ 70 at bound
    omega

theorem fold_hex_lt : ∀ (chars : List Char) (start value : Nat),
    chars.foldlM (fun value c => (hexValue c).map (16 * value + ·)) start = some value →
      value < (start + 1) * 16 ^ chars.length
  | [], start, value, parsed => by
      cases parsed
      simp
  | c :: chars, start, value, parsed => by
      rw [List.foldlM_cons] at parsed
      cases digit : hexValue c with
      | none =>
          rw [digit] at parsed
          cases parsed
      | some low =>
          rw [digit] at parsed
          have bound := hex_value_lt digit
          have later := fold_hex_lt chars (16 * start + low) value parsed
          apply Nat.lt_of_lt_of_le later
          rw [List.length_cons, pow_succ', ← Nat.mul_assoc]
          exact Nat.mul_le_mul_right _ (by omega)

/-- A text of so many characters is a number below that power. -/
theorem parse_hex_lt {text : List Char} {value : Nat} (parsed : parseHex text = some value) :
    value < 16 ^ text.length := by
  have fewer : ∀ digits : List Char, digits.length ≤ text.length →
      digits.foldlM (fun value c => (hexValue c).map (16 * value + ·)) 0 = some value →
        value < 16 ^ text.length := by
    intro digits short read
    have bound := fold_hex_lt digits 0 value read
    rw [Nat.zero_add, Nat.one_mul] at bound
    exact Nat.lt_of_lt_of_le bound (Nat.pow_le_pow_right (by decide) short)
  rw [parseHex] at parsed
  split_ifs at parsed
  · exact fewer _ (by rw [List.length_tail]; omega) parsed
  · exact fewer _ (Nat.le_refl _) parsed

end HorizonOs.Lib.Hex
