import HorizonOs.Lib.Buffer
import HorizonOs.Lib.Canonical
import HorizonOs.Lib.Hex

/-!
# Hexadecimal digits as bytes

Which texts the parser of a radix takes, the number of two digits a byte, and that digits have
the same bytes exactly where they differ in case alone.
-/

namespace HorizonOs.Lib.Hex

open HorizonOs.Lib.Buffer HorizonOs.Lib.ByteCodec HorizonOs.Lib.Canonical HorizonOs.Lib.Text

set_option autoImplicit false

def Digits (chars : List Char) : Prop := ∀ c ∈ chars, (hexValue c).isSome = true

instance (chars : List Char) : Decidable (Digits chars) := List.decidableBAll _ chars

/-! ## One digit -/

theorem char_le_iff (a b : Char) : a ≤ b ↔ a.toNat ≤ b.toNat := by
  rw [Char.le_def, UInt32.le_iff_toNat_le]
  rfl

theorem hex_value_cases (c : Char) : hexValue c =
    if 48 ≤ c.toNat ∧ c.toNat ≤ 57 then some (c.toNat - 48)
    else if 97 ≤ c.toNat ∧ c.toNat ≤ 102 then some (c.toNat - 87)
    else if 65 ≤ c.toNat ∧ c.toNat ≤ 70 then some (c.toNat - 55) else none := by
  have zero : '0'.toNat = 48 := rfl
  have nine : '9'.toNat = 57 := rfl
  have la : 'a'.toNat = 97 := rfl
  have lf : 'f'.toNat = 102 := rfl
  have ua : 'A'.toNat = 65 := rfl
  have uf : 'F'.toNat = 70 := rfl
  simp only [hexValue, char_le_iff, zero, nine, la, lf, ua, uf]

theorem lower_to_nat (c : Char) :
    c.toLower.toNat = if 65 ≤ c.toNat ∧ c.toNat ≤ 90 then c.toNat + 32 else c.toNat := by
  have first : 'A'.val.toNat = 65 := rfl
  have last : 'Z'.val.toNat = 90 := rfl
  have number : c.toNat = c.val.toNat := rfl
  delta Char.toLower
  split_ifs with upper letter letter
  · have shift : ('a'.val - 'A'.val).toNat = 32 := rfl
    change (c.val + ('a'.val - 'A'.val)).toNat = c.toNat + 32
    rw [UInt32.toNat_add, shift, Nat.mod_eq_of_lt (by omega), number]
  · have low := UInt32.le_iff_toNat_le.mp upper.1
    have high := UInt32.le_iff_toNat_le.mp upper.2
    omega
  · refine absurd ⟨UInt32.le_iff_toNat_le.mpr ?_, UInt32.le_iff_toNat_le.mpr ?_⟩ upper
    · omega
    · omega
  · rfl

theorem char_of_to_nat {c d : Char} (same : c.toNat = d.toNat) : c = d :=
  Char.ext (UInt32.toNat_inj.mp same)

theorem hex_value_lower (c : Char) : hexValue c.toLower = hexValue c := by
  rw [hex_value_cases, hex_value_cases, lower_to_nat]
  split_ifs <;> first | omega | rfl

/-- Digits of one value differ in case alone. -/
theorem lower_of_hex_value {c d : Char} (digit : (hexValue c).isSome = true)
    (same : hexValue c = hexValue d) : c.toLower = d.toLower := by
  obtain ⟨value, parsed⟩ := Option.isSome_iff_exists.mp digit
  have other := same.symm.trans parsed
  apply char_of_to_nat
  rw [hex_value_cases] at parsed other
  rw [lower_to_nat, lower_to_nat]
  split_ifs at parsed other <;>
    (simp only [Option.some.injEq] at parsed other; split_ifs <;> omega)

/-! ## The parser -/

theorem fold_hex_is_some (chars : List Char) (start : Nat) :
    (chars.foldlM (fun value c => (hexValue c).map (16 * value + ·)) start).isSome = true ↔
      Digits chars := by
  induction chars generalizing start with
  | nil => exact iff_of_true rfl (List.forall_mem_nil _)
  | cons c rest ih =>
      rw [List.foldlM_cons, Digits, List.forall_mem_cons]
      cases digit : hexValue c with
      | none => exact iff_of_false Bool.false_ne_true fun both => Bool.false_ne_true both.1
      | some value =>
          rw [Option.map_some, Option.bind_eq_bind, Option.bind_some, ih]
          exact (and_iff_right rfl).symm

/-- The text without a leading sign. -/
def unsigned (text : List Char) : List Char := if text.head? = some '+' then text.tail else text

theorem parse_hex_is_some (text : List Char) :
    (parseHex text).isSome = true ↔ unsigned text ≠ [] ∧ Digits (unsigned text) := by
  have shape : parseHex text = if unsigned text = [] then none
      else (unsigned text).foldlM (fun value c => (hexValue c).map (16 * value + ·)) 0 := rfl
  rw [shape]
  by_cases empty : unsigned text = []
  · rw [if_pos empty]
    exact iff_of_false Bool.false_ne_true fun both => both.1 empty
  · rw [if_neg empty, fold_hex_is_some]
    exact (and_iff_right empty).symm

/-! ## The bytes of digits -/

/-- The byte is an ASCII digit of base sixteen, of either case. -/
def HexByte (byte : UInt8) : Prop :=
  48 ≤ byte ∧ byte ≤ 57 ∨ 65 ≤ byte ∧ byte ≤ 70 ∨ 97 ≤ byte ∧ byte ≤ 102

instance (byte : UInt8) : Decidable (HexByte byte) := inferInstanceAs (Decidable (_ ∨ _))

theorem encode_ascii : ∀ n < 128, String.utf8EncodeChar (Char.ofNat n) = [UInt8.ofNat n] := by
  decide

theorem hex_number_byte : ∀ n < 128, 48 ≤ n ∧ n ≤ 57 ∨ 65 ≤ n ∧ n ≤ 70 ∨ 97 ≤ n ∧ n ≤ 102 →
    HexByte (UInt8.ofNat n) := by
  decide

theorem digit_number {c : Char} (digit : (hexValue c).isSome = true) :
    48 ≤ c.toNat ∧ c.toNat ≤ 57 ∨ 65 ≤ c.toNat ∧ c.toNat ≤ 70 ∨ 97 ≤ c.toNat ∧ c.toNat ≤ 102 := by
  rw [hex_value_cases] at digit
  split_ifs at digit
  · omega
  · omega
  · omega
  · cases digit

theorem digit_bytes {c : Char} (digit : (hexValue c).isSome = true) :
    ∀ byte ∈ String.utf8EncodeChar c, HexByte byte := by
  have number := digit_number digit
  have ascii : c.toNat < 128 := by omega
  have encoded := encode_ascii c.toNat ascii
  rw [Char.ofNat_toNat] at encoded
  intro byte member
  rw [encoded] at member
  rw [List.mem_singleton.mp member]
  exact hex_number_byte c.toNat ascii number

theorem digits_bytes {chars : List Char} (digits : Digits chars) :
    ∀ byte ∈ utf8 (String.ofList chars), HexByte byte := by
  intro byte member
  rw [utf8_of_list] at member
  obtain ⟨c, in_chars, in_char⟩ := List.mem_flatMap.mp member
  exact digit_bytes (digits c in_chars) byte in_char

/-- Bytes that the parser takes and that begin with no sign are digits. -/
theorem hex_bytes_of_parse {bytes : Bytes} {text : String} (decoded : fromUtf8 bytes = some text)
    (parsed : (parseHex text.toList).isSome = true) (plain : bytes.head? ≠ some 43) :
    ∀ byte ∈ bytes, HexByte byte := by
  have spelled : utf8 (String.ofList text.toList) = bytes := by
    rw [String.ofList_toList]
    exact utf8_of_from_utf8 decoded
  have digits := ((parse_hex_is_some text.toList).mp parsed).2
  have no_sign : text.toList.head? ≠ some '+' := by
    intro sign
    obtain ⟨rest, chars⟩ : ∃ rest, text.toList = '+' :: rest := List.head?_eq_some_iff.mp sign
    rw [chars, utf8_of_list, List.flatMap_cons] at spelled
    rw [← spelled] at plain
    exact plain rfl
  rw [unsigned, if_neg no_sign] at digits
  exact spelled ▸ digits_bytes digits

/-! ## Two digits a byte -/

theorem decode_hex_fold (chars : List Char) (bytes : Bytes) (start : Nat)
    (decoded : decodeHexChars chars = some bytes) :
    chars.foldlM (fun value c => (hexValue c).map (16 * value + ·)) start =
      some (start * 256 ^ bytes.length + decodeBE bytes) := by
  induction chars using decodeHexChars.induct generalizing bytes start with
  | case1 =>
      cases decoded
      rw [List.foldlM_nil, List.length_nil, pow_zero, Nat.mul_one]
      rfl
  | case2 c => cases decoded
  | case3 high low rest ih =>
      rw [decodeHexChars] at decoded
      obtain ⟨first, digit, decoded⟩ := Option.bind_eq_some_iff.mp decoded
      obtain ⟨second, digit', decoded⟩ := Option.bind_eq_some_iff.mp decoded
      obtain ⟨others, later, made⟩ := Option.bind_eq_some_iff.mp decoded
      cases made
      have small := hex_value_lt digit
      have small' := hex_value_lt digit'
      have number : (UInt8.ofNat (16 * first + second)).toNat = 16 * first + second := by
        rw [UInt8.toNat_ofNat', Nat.mod_eq_of_lt (by omega)]
      simp only [List.foldlM_cons, digit, digit', Option.map_some, Option.bind_eq_bind,
        Option.bind_some]
      rw [ih others _ later, decodeBE, number, List.length_cons, pow_succ]
      congr 1
      ring

theorem decode_hex_some (count : Nat) : ∀ chars : List Char, chars.length = 2 * count →
    Digits chars → ∃ bytes, decodeHexChars chars = some bytes ∧ bytes.length = count := by
  induction count with
  | zero =>
      intro chars size _
      rw [List.length_eq_zero_iff.mp size]
      exact ⟨[], rfl, rfl⟩
  | succ count ih =>
      intro chars size digits
      obtain ⟨high, low, rest, rfl⟩ : ∃ high low rest, chars = high :: low :: rest := by
        cases chars with
        | nil => cases size
        | cons high chars =>
            cases chars with
            | nil =>
                rw [List.length_singleton] at size
                omega
            | cons low rest => exact ⟨high, low, rest, rfl⟩
      obtain ⟨first, second, others⟩ : (hexValue high).isSome = true ∧ (hexValue low).isSome = true ∧
          Digits rest := by
        rw [Digits, List.forall_mem_cons, List.forall_mem_cons] at digits
        exact digits
      obtain ⟨value, digit⟩ := Option.isSome_iff_exists.mp first
      obtain ⟨value', digit'⟩ := Option.isSome_iff_exists.mp second
      rw [List.length_cons, List.length_cons] at size
      obtain ⟨bytes, decoded, length⟩ := ih rest (by omega) others
      refine ⟨UInt8.ofNat (16 * value + value') :: bytes, ?_, by rw [List.length_cons, length]⟩
      rw [decodeHexChars, digit, digit', decoded]
      rfl

theorem decode_hex_append {first second : List Char} {left right : Bytes}
    (decoded : decodeHexChars first = some left) (decoded' : decodeHexChars second = some right) :
    decodeHexChars (first ++ second) = some (left ++ right) := by
  induction first using decodeHexChars.induct generalizing left with
  | case1 =>
      cases decoded
      exact decoded'
  | case2 c => cases decoded
  | case3 high low rest ih =>
      rw [decodeHexChars] at decoded
      obtain ⟨value, digit, decoded⟩ := Option.bind_eq_some_iff.mp decoded
      obtain ⟨value', digit', decoded⟩ := Option.bind_eq_some_iff.mp decoded
      obtain ⟨others, later, made⟩ := Option.bind_eq_some_iff.mp decoded
      cases made
      rw [List.cons_append, List.cons_append, decodeHexChars, digit, digit', ih later]
      rfl

/-- The digits of a number of bytes, as it is written from its most significant byte on. -/
theorem parse_hex_bytes {chars : List Char} {bytes : Bytes} (some_ : bytes ≠ [])
    (decoded : decodeHexChars chars = some bytes) (plain : chars.head? ≠ some '+') :
    ∃ value, parseHex chars = some value ∧ encodeBE bytes.length value = bytes := by
  refine ⟨decodeBE bytes, ?_, encode_decode_be bytes⟩
  have more : chars ≠ [] := by
    rintro rfl
    cases decoded
    exact some_ rfl
  simp only [parseHex, if_neg plain, if_neg more]
  rw [decode_hex_fold chars bytes 0 decoded, Nat.zero_mul, Nat.zero_add]

theorem encode_be_snoc (width value : Nat) :
    encodeBE (width + 1) value = encodeBE width (value / 256) ++ [UInt8.ofNat value] := by
  induction width with
  | zero =>
      simp only [encodeBE, pow_zero, Nat.div_one]
      rfl
  | succ width ih =>
      rw [encodeBE, ih, encodeBE, List.cons_append, Nat.div_div_eq_div_mul, ← pow_succ']

/-- Little-endian is the same bytes in reverse. -/
theorem encode_le_reverse (width value : Nat) :
    encodeLE width value = (encodeBE width value).reverse := by
  induction width generalizing value with
  | zero => rfl
  | succ width ih =>
      rw [encodeLE, ih, encode_be_snoc, List.reverse_append, List.reverse_singleton,
        List.singleton_append]

theorem decode_hex_map_lower (chars : List Char) :
    decodeHexChars (chars.map Char.toLower) = decodeHexChars chars := by
  induction chars using decodeHexChars.induct with
  | case1 => rfl
  | case2 c => rfl
  | case3 high low rest ih =>
      rw [List.map_cons, List.map_cons, decodeHexChars, decodeHexChars, hex_value_lower,
        hex_value_lower, ih]

theorem lower_of_decode (first second : List Char) (bytes : Bytes)
    (decoded : decodeHexChars first = some bytes) (decoded' : decodeHexChars second = some bytes) :
    first.map Char.toLower = second.map Char.toLower := by
  induction first using decodeHexChars.induct generalizing second bytes with
  | case1 =>
      cases decoded
      cases second with
      | nil => rfl
      | cons c second =>
          cases second with
          | nil => cases decoded'
          | cons d second =>
              rw [decodeHexChars] at decoded'
              obtain ⟨_, _, decoded'⟩ := Option.bind_eq_some_iff.mp decoded'
              obtain ⟨_, _, decoded'⟩ := Option.bind_eq_some_iff.mp decoded'
              obtain ⟨_, _, made⟩ := Option.bind_eq_some_iff.mp decoded'
              cases made
  | case2 c => cases decoded
  | case3 high low rest ih =>
      rw [decodeHexChars] at decoded
      obtain ⟨value, digit, decoded⟩ := Option.bind_eq_some_iff.mp decoded
      obtain ⟨value', digit', decoded⟩ := Option.bind_eq_some_iff.mp decoded
      obtain ⟨others, later, made⟩ := Option.bind_eq_some_iff.mp decoded
      cases made
      cases second with
      | nil => cases decoded'
      | cons c second =>
          cases second with
          | nil => cases decoded'
          | cons d second =>
              rw [decodeHexChars] at decoded'
              obtain ⟨number, numeral, decoded'⟩ := Option.bind_eq_some_iff.mp decoded'
              obtain ⟨number', numeral', decoded'⟩ := Option.bind_eq_some_iff.mp decoded'
              obtain ⟨others', later', made⟩ := Option.bind_eq_some_iff.mp decoded'
              obtain ⟨byte, rfl⟩ := List.cons.inj (Option.some.inj made)
              have small := hex_value_lt digit
              have small' := hex_value_lt digit'
              have few := hex_value_lt numeral
              have few' := hex_value_lt numeral'
              have same := congrArg UInt8.toNat byte
              rw [UInt8.toNat_ofNat', UInt8.toNat_ofNat', Nat.mod_eq_of_lt (by omega),
                Nat.mod_eq_of_lt (by omega)] at same
              obtain rfl : value = number := by omega
              obtain rfl : value' = number' := by omega
              rw [List.map_cons, List.map_cons, List.map_cons, List.map_cons,
                lower_of_hex_value (by rw [digit]; rfl) (digit.trans numeral.symm),
                lower_of_hex_value (by rw [digit']; rfl) (digit'.trans numeral'.symm),
                ih second others' later later']

end HorizonOs.Lib.Hex
