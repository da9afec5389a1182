import HorizonOs.Lib.JsonText
import HorizonOs.Lib.LossyText
import Mathlib.Data.List.DropRight

/-!
# The JSON reader

The reader of what the planner model returns: enough of JSON for tool calls, walking the bytes
of the text. What stands behind the first value is not looked at.
-/

namespace HorizonOs.Aura.Json

open HorizonOs.Lib.ByteCodec HorizonOs.Lib.Text HorizonOs.Lib.LossyText HorizonOs.Lib.Utf16
open HorizonOs.Lib.JsonText

set_option autoImplicit false

/-- Numbers and booleans carry nothing. -/
inductive Value where
  | null
  | bool
  | num
  | str (text : String)
  | array (items : List Value)
  | object (entries : List (String × Value))

def Value.asStr : Value → Option String
  | .str text => some text
  | _ => none

def Value.asArray : Value → Option (List Value)
  | .array items => some items
  | _ => none

def Value.asObject : Value → Option (List (String × Value))
  | .object entries => some entries
  | _ => none

def Value.get (value : Value) (key : String) : Option Value := do
  let entries ← value.asObject
  let entry ← entries.find? fun entry => entry.1 = key
  some entry.2

/-! ## Reading -/

/-- The byte `b'c'` of the source. -/
def byteOf (c : Char) : UInt8 := UInt8.ofNat c.toNat

def isBlankByte (byte : UInt8) : Bool :=
  byte = byteOf ' ' || byte = byteOf '\t' || byte = byteOf '\n' || byte = byteOf '\r'

def skipBlanks (input : Bytes) : Bytes := input.dropWhile isBlankByte

def isDigitByte (byte : UInt8) : Bool := byteOf '0' ≤ byte && byte ≤ byteOf '9'

/-- The bytes `skip_number` runs over. -/
def isNumberByte (byte : UInt8) : Bool :=
  byte = byteOf '-' || byte = byteOf '+' || byte = byteOf '.' || byte = byteOf 'e' ||
    byte = byteOf 'E' || isDigitByte byte

def readLiteral (word : String) (value : Value) (input : Bytes) :
    Except String (Value × Bytes) :=
  if (utf8 word).isPrefixOf input then .ok (value, input.drop (utf8 word).length)
  else .error s!"expected {word}"

/-- The byte length of a scalar from its lead byte. -/
def utf8Len (lead : UInt8) : Nat :=
  if lead < 0x80 then 1
  else if lead >>> 5 = 0b110 then 2
  else if lead >>> 4 = 0b1110 then 3
  else if lead >>> 3 = 0b11110 then 4
  else 1

def hexDigits : Bytes → Nat → Option Nat
  | [], value => some value
  | byte :: rest, value =>
      if byte < 0x80 then do
        let digit ← hexValue (Char.ofNat byte.toNat)
        hexDigits rest (16 * value + digit)
      else none

/-- `u32::from_str_radix(hex, 16)` on four bytes: a leading plus sign is allowed. -/
def hexNumber (hex : Bytes) : Option Nat :=
  match hex with
  | byte :: rest => if byte = byteOf '+' then hexDigits rest 0 else hexDigits hex 0
  | [] => none

/-- `char::from_u32` with the replacement character for what is no scalar. -/
def charOfCode (code : Nat) : Char := if h : code.isValidChar then Char.ofNatAux code h else '\uFFFD'

/-- The rest of a string behind its opening quote, with the characters already read. The fuel
is the number of bytes. -/
def readString : Nat → Bytes → List Char → Except String (String × Bytes)
  | 0, _, _ => .error "unterminated string"
  | _ + 1, [], _ => .error "unterminated string"
  | fuel + 1, byte :: rest, out =>
      if byte = byteOf '"' then .ok (String.ofList out, rest)
      else if byte = byteOf '\\' then
        match rest with
        | [] => .error "bad escape"
        | code :: tail =>
            if code = byteOf 'u' then
              if tail.length < 4 then .error "short \\u escape"
              else
                match hexNumber (tail.take 4) with
                | some number => readString fuel (tail.drop 4) (out ++ [charOfCode number])
                | none => .error "bad \\u escape"
            else
              match escapedChar (Char.ofNat code.toNat) with
              | some c => readString fuel tail (out ++ [c])
              | none => .error "bad escape"
      else
        match fromUtf8 ((byte :: rest).take (utf8Len byte)) with
        | some chunk =>
            readString fuel ((byte :: rest).drop (utf8Len byte)) (out ++ chunk.toList)
        | none => .error "invalid utf-8 in string"

mutual

/-- `Parser::value`. The fuel is one more than the number of bytes. -/
def readValue : Nat → Bytes → Except String (Value × Bytes)
  | 0, _ => .error "expected a value"
  | _ + 1, [] => .error "expected a value"
  | fuel + 1, byte :: rest =>
      if byte = byteOf '{' then
        match skipBlanks rest with
        | next :: more =>
            if next = byteOf '}' then .ok (.object [], more)
            else readEntries fuel (next :: more) []
        | [] => .error "expected a string key in object"
      else if byte = byteOf '[' then
        match skipBlanks rest with
        | next :: more =>
            if next = byteOf ']' then .ok (.array [], more) else readItems fuel (next :: more) []
        | [] => .error "expected a value"
      else if byte = byteOf '"' then
        match readString (rest.length + 1) rest [] with
        | .ok (text, more) => .ok (.str text, more)
        | .error message => .error message
      else if byte = byteOf 't' then readLiteral "true" .bool (byte :: rest)
      else if byte = byteOf 'f' then readLiteral "false" .bool (byte :: rest)
      else if byte = byteOf 'n' then readLiteral "null" .null (byte :: rest)
      else if byte = byteOf '-' || isDigitByte byte then
        .ok (.num, (byte :: rest).dropWhile isNumberByte)
      else .error "expected a value"

/-- The loop of `Parser::array`. -/
def readItems : Nat → Bytes → List Value → Except String (Value × Bytes)
  | 0, _, _ => .error "expected a value"
  | fuel + 1, input, items =>
      match readValue fuel (skipBlanks input) with
      | .error message => .error message
      | .ok (value, rest) =>
          match skipBlanks rest with
          | next :: more =>
              if next = byteOf ',' then readItems fuel more (items ++ [value])
              else if next = byteOf ']' then .ok (.array (items ++ [value]), more)
              else .error "expected , or ] in array"
          | [] => .error "expected , or ] in array"

/-- The loop of `Parser::object`. -/
def readEntries : Nat → Bytes → List (String × Value) → Except String (Value × Bytes)
  | 0, _, _ => .error "expected a string key in object"
  | fuel + 1, input, entries =>
      match skipBlanks input with
      | [] => .error "expected a string key in object"
      | quote :: inner =>
          if quote = byteOf '"' then
            match readString (inner.length + 1) inner [] with
            | .error message => .error message
            | .ok (key, rest) =>
                match skipBlanks rest with
                | [] => .error "expected : in object"
                | colon :: tail =>
                    if colon = byteOf ':' then
                      match readValue fuel (skipBlanks tail) with
                      | .error message => .error message
                      | .ok (value, rest) =>
                          match skipBlanks rest with
                          | next :: more =>
                              if next = byteOf ',' then
                                readEntries fuel more (entries ++ [(key, value)])
                              else if next = byteOf '}' then
                                .ok (.object (entries ++ [(key, value)]), more)
                              else .error "expected , or \x7d in object"
                          | [] => .error "expected , or \x7d in object"
                    else .error "expected : in object"
          else .error "expected a string key in object"

end

/-- `json::parse`. -/
def parse (text : String) : Except String Value :=
  let input := skipBlanks (utf8 text)
  match readValue (input.length + 1) input with
  | .ok (value, _) => .ok value
  | .error message => .error message

/-! ## Bytes of characters -/

def charBytes (chars : List Char) : Bytes := chars.flatMap String.utf8EncodeChar

theorem char_bytes_append (left right : List Char) :
    charBytes (left ++ right) = charBytes left ++ charBytes right := List.flatMap_append

theorem char_bytes_cons (c : Char) (rest : List Char) :
    charBytes (c :: rest) = String.utf8EncodeChar c ++ charBytes rest := List.flatMap_cons

theorem ascii_bytes {c : Char} (ascii : c.toNat < 128) : String.utf8EncodeChar c = [byteOf c] := by
  have small : c.val.toNat ≤ 127 := Nat.le_of_lt_succ ascii
  exact if_pos small

theorem byte_of_injective {c d : Char} (here : c.toNat < 128) (there : d.toNat < 128)
    (same : byteOf c = byteOf d) : c = d := by
  have numbers := congrArg UInt8.toNat same
  rw [byteOf, byteOf, to_nat_of_nat (by omega), to_nat_of_nat (by omega)] at numbers
  rw [← Char.ofNat_toNat c, numbers, Char.ofNat_toNat]

theorem char_bytes_ascii (chars : List Char) (ascii : ∀ c ∈ chars, c.toNat < 128) :
    charBytes chars = chars.map byteOf := by
  induction chars with
  | nil => rfl
  | cons c rest ih =>
      obtain ⟨here, others⟩ := List.forall_mem_cons.mp ascii
      rw [char_bytes_cons, ascii_bytes here, ih others]
      rfl

theorem char_bytes_injective : Function.Injective charBytes := by
  intro left right same
  have texts : utf8 (String.ofList left) = utf8 (String.ofList right) := by
    rw [utf8_of_list, utf8_of_list]
    exact same
  exact String.ofList_injective (utf8_injective texts)

theorem utf8_len_leading : ∀ n < 256, (leadingByte (UInt8.ofNat n)).all fun lead =>
    utf8Len (UInt8.ofNat n) = lead.1 + 1 := by
  decide +kernel

/-- The lead byte of a character tells its length, and is ASCII for ASCII characters only. -/
theorem lead_byte (c : Char) : ∃ lead others, String.utf8EncodeChar c = lead :: others ∧
    utf8Len lead = others.length + 1 ∧
    ∀ d : Char, d.toNat < 128 → lead = byteOf d → c = d := by
  obtain ⟨lead, others, low, high, encoded, announced⟩ := encoded_char c
  have length := utf8_len_leading lead.toNat lead.toNat_lt
  rw [UInt8.ofNat_toNat, announced.leading, Option.all_some, decide_eq_true_eq] at length
  refine ⟨lead, others, encoded, length, fun d ascii same => ?_⟩
  have size : leadingByte lead = some (0, 0x80, 0xBF) := by
    rw [leadingByte, if_pos]
    rw [same, byteOf, UInt8.lt_iff_toNat_lt, to_nat_of_nat (by omega)]
    exact ascii
  rw [announced.leading] at size
  have none : others = [] := List.eq_nil_of_length_eq_zero (Prod.mk.inj (Option.some.inj size)).1
  rw [none, same, ← ascii_bytes ascii] at encoded
  have single : charBytes [c] = charBytes [d] := by
    rw [char_bytes_cons, char_bytes_cons, encoded]
  exact (List.cons.inj (char_bytes_injective single)).1

/-! ## Reading a string -/

theorem hex_value_ascii {c : Char} {value : Nat} (digit : hexValue c = some value) :
    c.toNat < 128 ∧ value < 16 ∧ c ≠ '+' := by
  have order : ∀ a b : Char, a ≤ b ↔ a.toNat ≤ b.toNat := fun a b => by
    rw [Char.le_def, UInt32.le_iff_toNat_le]
    rfl
  have zero : '0'.toNat = 48 := rfl
  have nine : '9'.toNat = 57 := rfl
  have la : 'a'.toNat = 97 := rfl
  have lf : 'f'.toNat = 102 := rfl
  have ua : 'A'.toNat = 65 := rfl
  have uf : 'F'.toNat = 70 := rfl
  simp only [hexValue, order, zero, nine, la, lf, ua, uf] at digit
  have plus : c = '+' → c.toNat = 43 := by
    rintro rfl
    rfl
  refine ⟨?_, ?_, fun same => ?_⟩
  · split_ifs at digit <;> omega
  · split_ifs at digit <;> cases digit <;> omega
  · have number := plus same
    split_ifs at digit <;> omega

theorem hex_digits_cons {c : Char} {value : Nat} (digit : hexValue c = some value) (rest : Bytes)
    (sum : Nat) : hexDigits (byteOf c :: rest) sum = hexDigits rest (16 * sum + value) := by
  have ascii := (hex_value_ascii digit).1
  have number : (byteOf c).toNat = c.toNat := to_nat_of_nat (by omega)
  have small : byteOf c < 0x80 := by
    rw [UInt8.lt_iff_toNat_lt, number]
    exact ascii
  rw [hexDigits, if_pos small, number, Char.ofNat_toNat, digit]
  rfl

theorem hex_number_unit {a b c d : Char} {unit : UInt16} (found : hexUnit a b c d = some unit) :
    charBytes [a, b, c, d] = [byteOf a, byteOf b, byteOf c, byteOf d] ∧
      hexNumber [byteOf a, byteOf b, byteOf c, byteOf d] = some unit.toNat := by
  simp only [hexUnit, Option.bind_eq_bind, Option.bind_eq_some_iff] at found
  obtain ⟨first, one, second, two, third, three, fourth, four, same⟩ := found
  cases same
  obtain ⟨asciiA, smallA, signed⟩ := hex_value_ascii one
  obtain ⟨asciiB, smallB, _⟩ := hex_value_ascii two
  obtain ⟨asciiC, smallC, _⟩ := hex_value_ascii three
  obtain ⟨asciiD, smallD, _⟩ := hex_value_ascii four
  constructor
  · rw [char_bytes_ascii _ (by simp [asciiA, asciiB, asciiC, asciiD])]
    rfl
  · have unsigned : byteOf a ≠ byteOf '+' := fun same =>
      signed (byte_of_injective asciiA (by decide) same)
    rw [hexNumber, if_neg unsigned, hex_digits_cons one, hex_digits_cons two, hex_digits_cons three,
      hex_digits_cons four, hexDigits, UInt16.toNat_ofNat', Nat.mod_eq_of_lt (by omega)]
    congr 1
    omega

theorem char_of_unit (unit : UInt16) : charOfCode unit.toNat = aloneChar unit := by
  have bound := unit.toNat_lt
  rw [charOfCode, aloneChar]
  by_cases surrogate : 0xD800 ≤ unit.toNat ∧ unit.toNat < 0xE000
  · have invalid : ¬unit.toNat.isValidChar := by
      rw [Nat.isValidChar]
      omega
    rw [if_pos surrogate, dif_neg invalid]
  · have valid : unit.toNat.isValidChar := by
      rw [Nat.isValidChar]
      omega
    rw [if_neg surrogate, dif_pos valid, Char.ofNat, dif_pos valid]

theorem escaped_ascii {e c : Char} (found : escapedChar e = some c) :
    e.toNat < 128 ∧ e ≠ 'u' := by
  unfold escapedChar at found
  split at found
  all_goals first
    | exact ⟨by decide, by decide⟩
    | cases found

/-- One piece of a literal is read in one turn. -/
theorem read_string_piece {piece : Piece} (legal : piece.Legal) (fuel : Nat) (rest : Bytes)
    (out : List Char) : readString (fuel + 1) (charBytes piece.chars ++ rest) out =
      readString fuel rest (out ++ [piece.read]) := by
  cases piece with
  | plain c =>
      obtain ⟨lead, others, encoded, length, ascii⟩ := lead_byte c
      have quote : lead ≠ byteOf '"' := fun same => legal.1 (ascii '"' (by decide) same)
      have slash : lead ≠ byteOf '\\' := fun same => legal.2 (ascii '\\' (by decide) same)
      have chunk : fromUtf8 (lead :: others) = some (String.ofList [c]) := by
        rw [← encoded, ← List.append_nil (String.utf8EncodeChar c), ← List.flatMap_nil,
          ← List.flatMap_cons, ← utf8_of_list, from_utf8_utf8]
      have taken : (lead :: (others ++ rest)).take (utf8Len lead) = lead :: others := by
        rw [length, List.take_succ_cons, List.take_left]
      have dropped : (lead :: (others ++ rest)).drop (utf8Len lead) = rest := by
        rw [length, List.drop_succ_cons, List.drop_left]
      have bytes : charBytes (Piece.plain c).chars ++ rest = lead :: (others ++ rest) := by
        rw [Piece.chars, char_bytes_cons, encoded]
        simp [charBytes]
      rw [bytes, readString.eq_def]
      simp only [if_neg quote, if_neg slash, taken, chunk, dropped, String.toList_ofList]
      rfl
  | escape e =>
      obtain ⟨escaped, found⟩ := Option.isSome_iff_exists.mp legal
      obtain ⟨ascii, other⟩ := escaped_ascii found
      have apart : byteOf e ≠ byteOf 'u' := fun same =>
        other (byte_of_injective ascii (by decide) same)
      have number : (byteOf e).toNat = e.toNat := to_nat_of_nat (by omega)
      have bytes : charBytes (Piece.escape e).chars ++ rest = byteOf '\\' :: byteOf e :: rest := by
        rw [Piece.chars, char_bytes_cons, char_bytes_cons, ascii_bytes ascii]
        rfl
      rw [bytes, readString.eq_def]
      simp only [if_neg apart, number, Char.ofNat_toNat, found]
      rw [if_neg (by decide), if_pos trivial, Piece.read, found]
      rfl
  | unicode a b c d =>
      obtain ⟨unit, found⟩ := Option.isSome_iff_exists.mp legal
      obtain ⟨digits, number⟩ := hex_number_unit found
      have bytes : charBytes (Piece.unicode a b c d).chars ++ rest = byteOf '\\' :: byteOf 'u' ::
          (byteOf a :: byteOf b :: byteOf c :: byteOf d :: rest) := by
        rw [Piece.chars, char_bytes_cons, char_bytes_cons, digits]
        rfl
      have long : ¬(byteOf a :: byteOf b :: byteOf c :: byteOf d :: rest).length < 4 := by
        simp only [List.length_cons]
        omega
      rw [bytes, readString.eq_def]
      simp only [if_pos, if_neg long, List.take_succ_cons, List.take_zero, number,
        List.drop_succ_cons, List.drop_zero]
      rw [if_neg (by decide), char_of_unit, Piece.read, found]
      rfl

/-- A literal is read piece by piece. -/
theorem read_string_pieces (pieces : List Piece) (legal : ∀ piece ∈ pieces, piece.Legal)
    (fuel : Nat) (enough : pieces.length < fuel) (rest : Bytes) (out : List Char) :
    readString fuel (charBytes (pieceChars pieces) ++ byteOf '"' :: rest) out =
      .ok (String.ofList (out ++ pieces.map Piece.read), rest) := by
  induction pieces generalizing fuel out with
  | nil =>
      cases fuel with
      | zero => cases enough
      | succ fuel =>
          rw [List.map_nil, List.append_nil]
          rfl
  | cons piece pieces ih =>
      obtain ⟨here, others⟩ := List.forall_mem_cons.mp legal
      cases fuel with
      | zero => cases enough
      | succ fuel =>
          rw [pieceChars, List.flatMap_cons, ← pieceChars, char_bytes_append, List.append_assoc,
            read_string_piece here, ih others fuel (Nat.lt_of_succ_lt_succ enough),
            List.map_cons, List.append_assoc, List.singleton_append]

theorem pieces_length_le (pieces : List Piece) :
    pieces.length ≤ (charBytes (pieceChars pieces)).length := by
  induction pieces with
  | nil => exact Nat.zero_le _
  | cons piece pieces ih =>
      have one : 1 ≤ (charBytes piece.chars).length := by
        have bytes : ∀ (c : Char) (chars : List Char), 1 ≤ (charBytes (c :: chars)).length := by
          intro c chars
          have positive := c.utf8Size_pos
          rw [char_bytes_cons, List.length_append, String.length_utf8EncodeChar]
          omega
        cases piece <;> exact bytes _ _
      rw [pieceChars, List.flatMap_cons, ← pieceChars, char_bytes_append, List.length_append,
        List.length_cons]
      omega

/-- What a reader makes of a literal, with any fuel for its bytes. -/
theorem read_string_literal (pieces : List Piece) (legal : ∀ piece ∈ pieces, piece.Legal)
    (rest : Bytes) :
    readString ((charBytes (pieceChars pieces) ++ byteOf '"' :: rest).length + 1)
        (charBytes (pieceChars pieces) ++ byteOf '"' :: rest) [] =
      .ok (String.ofList (pieces.map Piece.read), rest) := by
  apply read_string_pieces pieces legal
  have few := pieces_length_le pieces
  rw [List.length_append]
  omega

/-! ## Reading values -/

/-- A text that is read as a value, whatever stands behind it. -/
structure Reads (text : List Char) (value : Value) : Prop where
  solid : ∃ byte more, charBytes text = byte :: more ∧ isBlankByte byte = false
  read : ∀ fuel, (charBytes text).length < fuel → ∀ rest,
    readValue fuel (charBytes text ++ rest) = .ok (value, rest)

theorem blank_bytes {blank : List Char} (all : Blank blank) :
    ∀ byte ∈ charBytes blank, isBlankByte byte = true := by
  have ascii : ∀ c ∈ blank, c.toNat < 128 ∧ isBlankByte (byteOf c) = true := by
    intro c member
    have listed := all c member
    simp only [isBlank, Bool.or_eq_true, decide_eq_true_eq] at listed
    rcases listed with ((rfl | rfl) | rfl) | rfl <;> exact ⟨by decide, by decide⟩
  intro byte member
  rw [char_bytes_ascii _ fun c inside => (ascii c inside).1] at member
  obtain ⟨c, inside, rfl⟩ := List.mem_map.mp member
  exact (ascii c inside).2

/-- Blanks are skipped up to a byte that is none. -/
theorem skip_blanks {blank : List Char} (all : Blank blank) {byte : UInt8}
    (solid : isBlankByte byte = false) (rest : Bytes) :
    skipBlanks (charBytes blank ++ byte :: rest) = byte :: rest := by
  rw [skipBlanks, List.dropWhile_append_of_pos (blank_bytes all), List.dropWhile_cons_of_neg]
  rw [solid]
  exact Bool.false_ne_true

theorem quoted_bytes (pieces : List Piece) (rest : Bytes) : charBytes (quoted pieces) ++ rest =
    byteOf '"' :: (charBytes (pieceChars pieces) ++ byteOf '"' :: rest) := by
  rw [quoted, List.cons_append, char_bytes_cons, char_bytes_append, ascii_bytes (by decide),
    char_bytes_ascii ['"'] (List.forall_mem_singleton.mpr (by decide))]
  simp

theorem reads_string (pieces : List Piece) (legal : ∀ piece ∈ pieces, piece.Legal) :
    Reads (quoted pieces) (.str (readText pieces)) where
  solid := by
    have bytes := quoted_bytes pieces []
    rw [List.append_nil] at bytes
    exact ⟨_, _, bytes, by decide⟩
  read fuel enough rest := by
    cases fuel with
    | zero => cases enough
    | succ fuel =>
        rw [quoted_bytes, readValue.eq_def]
        simp only [read_string_literal pieces legal]
        rfl

/-- Skipping the blanks before a text that is read. -/
theorem skip_to_value {blank text : List Char} {value : Value} (all : Blank blank)
    (reads : Reads text value) (rest : Bytes) :
    skipBlanks (charBytes blank ++ (charBytes text ++ rest)) = charBytes text ++ rest := by
  obtain ⟨byte, more, bytes, solid⟩ := reads.solid
  rw [bytes, List.cons_append, skip_blanks all solid]

/-- One turn of the loop over an object. -/
theorem read_entry {a b c d s : List Char} {key : List Piece} {value : Value} (before : Blank a)
    (behind : Blank b) (inner : Blank c) (after : Blank d) (legal : ∀ piece ∈ key, piece.Legal)
    (reads : Reads s value) (fuel : Nat) (enough : (charBytes s).length < fuel) (next : UInt8)
    (solid : isBlankByte next = false) (more : Bytes) (entries : List (String × Value)) :
    readEntries (fuel + 1)
        (charBytes (a ++ quoted key ++ b ++ ':' :: c ++ s ++ d) ++ next :: more) entries =
      if next = byteOf ',' then readEntries fuel more (entries ++ [(readText key, value)])
      else if next = byteOf '}' then .ok (.object (entries ++ [(readText key, value)]), more)
      else .error "expected , or \x7d in object" := by
  have bytes : charBytes (a ++ quoted key ++ b ++ ':' :: c ++ s ++ d) ++ next :: more =
      charBytes a ++ byteOf '"' :: (charBytes (pieceChars key) ++ byteOf '"' ::
        (charBytes b ++ byteOf ':' :: (charBytes c ++ (charBytes s ++
          (charBytes d ++ next :: more))))) := by
    rw [← quoted_bytes]
    simp only [char_bytes_append, char_bytes_cons, ascii_bytes (show (':').toNat < 128 by decide),
      List.append_assoc, List.cons_append, List.nil_append]
  rw [bytes, readEntries.eq_def]
  simp only [skip_blanks before (show isBlankByte (byteOf '"') = false by decide), if_pos,
    read_string_literal key legal,
    skip_blanks behind (show isBlankByte (byteOf ':') = false by decide),
    skip_to_value inner reads, reads.read fuel enough, skip_blanks after solid]
  rfl

section Collections

variable {V : Type} {spell : V → List Char → Prop} {value : V → Value}

/-- What the entries of an object are read as. -/
def readMembers (value : V → Value) (members : List (List Piece × V)) : List (String × Value) :=
  members.map fun entry => (readText entry.1, value entry.2)

theorem members_length (a b c d s : List Char) (key : List Piece) (more : List Char) :
    (charBytes s).length < (charBytes (a ++ quoted key ++ b ++ ':' :: c ++ s ++ d ++ more)).length := by
  simp only [char_bytes_append, char_bytes_cons, quoted, List.length_append,
    List.cons_append, String.length_utf8EncodeChar]
  have quote : (1 : Nat) ≤ ('"').utf8Size := by decide
  omega

/-- The loop over an object reads its members in order. -/
theorem read_members (reads : ∀ v s, spell v s → Reads s (value v))
    {members : List (List Piece × V)} {text : List Char} (spelled : Members spell members text)
    (fuel : Nat) (enough : (charBytes text).length < fuel) (rest : Bytes)
    (entries : List (String × Value)) :
    readEntries fuel (charBytes text ++ byteOf '}' :: rest) entries =
      .ok (.object (entries ++ readMembers value members), rest) := by
  induction spelled generalizing fuel entries with
  | @last a b c d s key v before behind inner after legal here =>
      have part := members_length a b c d s key []
      rw [List.append_nil] at part
      cases fuel with
      | zero => cases enough
      | succ fuel =>
          rw [read_entry before behind inner after legal (reads _ _ here) fuel (by omega) (byteOf '}')
            (by decide), if_neg (by decide), if_pos rfl]
          rfl
  | @more a b c d s tail key v others before behind inner after legal here _ ih =>
      have part := members_length a b c d s key (',' :: tail)
      cases fuel with
      | zero => cases enough
      | succ fuel =>
          have shorter : (charBytes tail).length < fuel := by
            simp only [char_bytes_append, char_bytes_cons, List.length_append,
              String.length_utf8EncodeChar] at enough
            have comma : 1 ≤ (',').utf8Size := by decide
            omega
          have bytes : charBytes (a ++ quoted key ++ b ++ ':' :: c ++ s ++ d ++ ',' :: tail) ++
              byteOf '}' :: rest = charBytes (a ++ quoted key ++ b ++ ':' :: c ++ s ++ d) ++
                byteOf ',' :: (charBytes tail ++ byteOf '}' :: rest) := by
            rw [char_bytes_append _ (',' :: tail), char_bytes_cons, ascii_bytes (by decide),
              List.append_assoc]
            rfl
          rw [bytes, read_entry before behind inner after legal (reads _ _ here) fuel (by omega)
              (byteOf ',') (by decide), if_pos rfl, ih fuel shorter, List.append_assoc]
          rfl

theorem skip_skip (input : Bytes) : skipBlanks (skipBlanks input) = skipBlanks input :=
  List.dropWhile_idempotent _ _

theorem read_entries_skip (fuel : Nat) (input : Bytes) (entries : List (String × Value)) :
    readEntries fuel (skipBlanks input) entries = readEntries fuel input entries := by
  cases fuel with
  | zero => rw [readEntries, readEntries]
  | succ fuel => rw [readEntries, readEntries, skip_skip]

theorem members_start {members : List (List Piece × V)} {text : List Char}
    (spelled : Members spell members text) (rest : Bytes) :
    ∃ more, skipBlanks (charBytes text ++ rest) = byteOf '"' :: more := by
  have start : ∀ {a : List Char} {key : List Piece} {tail : List Char}, Blank a →
      ∃ more, skipBlanks (charBytes (a ++ quoted key ++ tail) ++ rest) = byteOf '"' :: more := by
    intro a key tail all
    have bytes : charBytes (a ++ quoted key ++ tail) ++ rest = charBytes a ++
        byteOf '"' :: (charBytes (pieceChars key) ++ byteOf '"' :: (charBytes tail ++ rest)) := by
      rw [← quoted_bytes, char_bytes_append, char_bytes_append, List.append_assoc,
        List.append_assoc]
    rw [bytes]
    exact ⟨_, skip_blanks all (by decide) _⟩
  cases spelled with
  | last before _ _ _ _ _ =>
      simp only [List.append_assoc]
      rw [← List.append_assoc]
      exact start before
  | more before _ _ _ _ _ _ =>
      simp only [List.append_assoc]
      rw [← List.append_assoc]
      exact start before

theorem braced_bytes (left right : Char) (ascii : left.toNat < 128 ∧ right.toNat < 128)
    (inner : List Char) (rest : Bytes) : charBytes (left :: inner ++ [right]) ++ rest =
      byteOf left :: (charBytes inner ++ byteOf right :: rest) := by
  rw [List.cons_append, char_bytes_cons, char_bytes_append, ascii_bytes ascii.1,
    char_bytes_ascii [right] (by simpa using ascii.2)]
  simp

theorem braced_length (left right : Char) (ascii : left.toNat < 128 ∧ right.toNat < 128)
    (inner : List Char) :
    (charBytes (left :: inner ++ [right])).length = (charBytes inner).length + 2 := by
  have bytes := congrArg List.length (braced_bytes left right ascii inner [])
  simpa using bytes

theorem reads_object (reads : ∀ v s, spell v s → Reads s (value v))
    {members : List (List Piece × V)} {text : List Char} (spelled : ObjectText spell members text) :
    Reads text (.object (readMembers value members)) where
  solid := by
    cases spelled with
    | @empty a _ =>
        have bytes := braced_bytes '{' '}' (by decide) a []
        rw [List.append_nil] at bytes
        exact ⟨_, _, bytes, by decide⟩
    | @members _ s _ =>
        have bytes := braced_bytes '{' '}' (by decide) s []
        rw [List.append_nil] at bytes
        exact ⟨_, _, bytes, by decide⟩
  read fuel enough rest := by
    cases fuel with
    | zero => cases enough
    | succ fuel =>
        cases spelled with
        | @empty a all =>
            rw [braced_bytes _ _ (by decide), readValue.eq_def]
            simp only [skip_blanks all (show isBlankByte (byteOf '}') = false by decide), if_pos]
            rfl
        | @members _ s inner =>
            rw [braced_length _ _ (by decide)] at enough
            obtain ⟨more, start⟩ := members_start inner (byteOf '}' :: rest)
            have other : byteOf '"' ≠ byteOf '}' := by decide
            rw [braced_bytes _ _ (by decide), readValue.eq_def]
            simp only [start, if_pos, if_neg other]
            rw [← start, read_entries_skip, read_members reads inner fuel (by omega),
              List.nil_append]

/-- The loop over an array reads its items in order. -/
theorem read_items (reads : ∀ v s, spell v s → Reads s (value v)) {items : List V}
    {text : List Char} (spelled : Items spell items text) (fuel : Nat)
    (enough : (charBytes text).length + 1 < fuel) (rest : Bytes) (done : List Value) :
    readItems fuel (charBytes text ++ byteOf ']' :: rest) done =
      .ok (.array (done ++ items.map value), rest) := by
  induction spelled generalizing fuel done with
  | @last a b s v before behind here =>
      cases fuel with
      | zero => cases enough
      | succ fuel =>
          simp only [char_bytes_append, List.length_append] at enough
          rw [char_bytes_append, char_bytes_append, List.append_assoc, List.append_assoc,
            readItems.eq_def]
          simp only [skip_to_value before (reads _ _ here), (reads _ _ here).read fuel (by omega),
            skip_blanks behind (show isBlankByte (byteOf ']') = false by decide), if_pos]
          rfl
  | @more a b s tail v others before behind here _ ih =>
      cases fuel with
      | zero => cases enough
      | succ fuel =>
          simp only [char_bytes_append, char_bytes_cons, List.length_append,
            String.length_utf8EncodeChar] at enough
          have comma : 1 ≤ (',').utf8Size := by decide
          have bytes : charBytes (a ++ s ++ b ++ ',' :: tail) ++ byteOf ']' :: rest =
              charBytes a ++ (charBytes s ++ (charBytes b ++
                byteOf ',' :: (charBytes tail ++ byteOf ']' :: rest))) := by
            rw [char_bytes_append, char_bytes_append, char_bytes_append, char_bytes_cons,
              ascii_bytes (by decide)]
            simp
          rw [bytes, readItems.eq_def]
          simp only [skip_to_value before (reads _ _ here), (reads _ _ here).read fuel (by omega),
            skip_blanks behind (show isBlankByte (byteOf ',') = false by decide), if_pos]
          rw [ih fuel (by omega), List.append_assoc]
          rfl

theorem read_items_skip (fuel : Nat) (input : Bytes) (items : List Value) :
    readItems fuel (skipBlanks input) items = readItems fuel input items := by
  cases fuel with
  | zero => rw [readItems, readItems]
  | succ fuel => rw [readItems, readItems, skip_skip]

theorem items_start {items : List V} {text : List Char} (spelled : Items spell items text)
    (reads : ∀ v s, spell v s → Reads s (value v)) (rest : Bytes) :
    ∃ v s behind, spell v s ∧ skipBlanks (charBytes text ++ rest) = charBytes s ++ behind := by
  cases spelled with
  | @last a b s v before behind here =>
      refine ⟨v, s, charBytes b ++ rest, here, ?_⟩
      rw [char_bytes_append, char_bytes_append, List.append_assoc, List.append_assoc,
        skip_to_value before (reads _ _ here)]
  | @more a b s tail v others before behind here _ =>
      refine ⟨v, s, charBytes b ++ (charBytes (',' :: tail) ++ rest), here, ?_⟩
      rw [char_bytes_append, char_bytes_append, char_bytes_append, List.append_assoc,
        List.append_assoc, List.append_assoc, skip_to_value before (reads _ _ here)]

/-- An array of items that are no closing brackets is read, whatever blanks stand around it. -/
theorem parse_items (reads : ∀ v s, spell v s → Reads s (value v))
    (apart : ∀ v s, spell v s → ∀ more, charBytes s ≠ byteOf ']' :: more)
    {items : List V} {text before after : List Char} (spelled : Items spell items text)
    (front : Blank before) :
    parse (String.ofList (before ++ ('[' :: text ++ [']']) ++ after)) =
      .ok (.array (items.map value)) := by
  have bytes : utf8 (String.ofList (before ++ ('[' :: text ++ [']']) ++ after)) =
      charBytes before ++ byteOf '[' :: (charBytes text ++ byteOf ']' :: charBytes after) := by
    rw [utf8_of_list, ← braced_bytes _ _ (by decide)]
    simp [charBytes]
  have skipped := skip_blanks front (show isBlankByte (byteOf '[') = false by decide)
    (charBytes text ++ byteOf ']' :: charBytes after)
  obtain ⟨v, s, behind, here, start⟩ := items_start spelled reads (byteOf ']' :: charBytes after)
  obtain ⟨first, more, whole, _⟩ := (reads v s here).solid
  have other : first ≠ byteOf ']' := fun same => apart v s here more (same ▸ whole)
  rw [whole, List.cons_append] at start
  have brace : byteOf '[' ≠ byteOf '{' := by decide
  rw [parse, bytes, skipped, readValue.eq_def]
  simp only [if_neg brace, if_pos, start, if_neg other]
  rw [← start, read_items_skip, read_items reads spelled _ _ (charBytes after) []]
  · rfl
  · simp only [List.length_cons, List.length_append]
    omega

end Collections

end HorizonOs.Aura.Json
