import HorizonOs.Lib.ByteCodec

/-!
# UTF-8 text

Strings as the byte strings they are stored as: exact and lossy UTF-8
decoding, the few `str` operations the parsers use, and hexadecimal text.
-/

namespace HorizonOs.Lib.Text

open HorizonOs.Lib.ByteCodec

set_option autoImplicit false

/-! ## UTF-8 -/

/-- The bytes of a string. -/
def utf8 (text : String) : Bytes := text.toByteArray.data.toList

/-- `String::from_utf8`: the string these bytes spell, when they are UTF-8. -/
def fromUtf8 (bytes : Bytes) : Option String := String.fromUTF8? ⟨bytes.toArray⟩

@[simp] theorem from_utf8_utf8 (text : String) : fromUtf8 (utf8 text) = some text := by
  have same : (⟨(utf8 text).toArray⟩ : ByteArray) = text.toByteArray := by simp [utf8]
  simp only [fromUtf8, same, String.fromUTF8?, text.isValidUTF8, dite_true]
  rfl

theorem utf8_of_from_utf8 {bytes : Bytes} {text : String}
    (decoded : fromUtf8 bytes = some text) : utf8 text = bytes := by
  simp only [fromUtf8, String.fromUTF8?] at decoded
  split at decoded
  · cases decoded
    simp [utf8, String.fromUTF8]
  · contradiction

theorem utf8_injective : Function.Injective utf8 := by
  intro left right same
  have decoded := from_utf8_utf8 left
  rw [same, from_utf8_utf8] at decoded
  exact (Option.some.inj decoded).symm

theorem utf8_of_list (chars : List Char) :
    utf8 (String.ofList chars) = chars.flatMap String.utf8EncodeChar := by
  simp [utf8, List.utf8Encode]

theorem utf8_length (chars : List Char) :
    (utf8 (String.ofList chars)).length = (chars.map Char.utf8Size).sum := by
  rw [utf8_of_list, List.length_flatMap]
  simp

/-- A text of one-byte characters may be cut off at any byte. -/
theorem utf8_take (chars : List Char) (sizes : ∀ c ∈ chars, c.utf8Size = 1) (count : Nat) :
    (utf8 (String.ofList chars)).take count = utf8 (String.ofList (chars.take count)) := by
  rw [utf8_of_list, utf8_of_list]
  induction chars generalizing count with
  | nil => simp
  | cons c rest ih =>
      have one : (String.utf8EncodeChar c).length = 1 := by
        rw [String.length_utf8EncodeChar]
        exact sizes c List.mem_cons_self
      cases count with
      | zero => simp
      | succ count =>
          rw [List.take_succ_cons, List.flatMap_cons, List.flatMap_cons, List.take_append, one,
            List.take_of_length_le (by omega), Nat.add_sub_cancel,
            ih (fun other member => sizes other (List.mem_cons_of_mem _ member))]

/-- Whether a byte may continue a multi-byte character. -/
def isContinuation (byte : UInt8) : Bool := 0x80 ≤ byte && byte ≤ 0xBF

/-- The bytes that may follow a leading byte: how many continuation bytes the
character takes, and the range its second byte must lie in. -/
def leadingByte (byte : UInt8) : Option (Nat × UInt8 × UInt8) :=
  if byte < 0x80 then some (0, 0x80, 0xBF)
  else if 0xC2 ≤ byte && byte ≤ 0xDF then some (1, 0x80, 0xBF)
  else if byte = 0xE0 then some (2, 0xA0, 0xBF)
  else if byte = 0xED then some (2, 0x80, 0x9F)
  else if 0xE1 ≤ byte && byte ≤ 0xEF then some (2, 0x80, 0xBF)
  else if byte = 0xF0 then some (3, 0x90, 0xBF)
  else if 0xF1 ≤ byte && byte ≤ 0xF3 then some (3, 0x80, 0xBF)
  else if byte = 0xF4 then some (3, 0x80, 0x8F)
  else none

/-- How many bytes after a leading byte belong to the longest well-formed
start of its character, up to the `wanted` ones. -/
def wellFormedTail (wanted : Nat) (low high : UInt8) : Bytes → Nat
  | [] => 0
  | second :: rest =>
      if wanted = 0 || !(low ≤ second && second ≤ high) then 0
      else 1 + ((rest.take (wanted - 1)).takeWhile isContinuation).length

/-- `String::from_utf8_lossy` on bytes that are not UTF-8: every maximal
ill-formed run becomes one U+FFFD. The fuel is the number of bytes. -/
def lossyChars : Nat → Bytes → List Char
  | 0, _ => []
  | _ + 1, [] => []
  | fuel + 1, byte :: rest =>
      match leadingByte byte with
      | none => '\uFFFD' :: lossyChars fuel rest
      | some (wanted, low, high) =>
          let present := wellFormedTail wanted low high rest
          let character := (fromUtf8 (byte :: rest.take present)).getD "\uFFFD"
          character.toList ++ lossyChars fuel (rest.drop present)

/-- `String::from_utf8_lossy`: exact on UTF-8, replacing what is not. -/
def fromUtf8Lossy (bytes : Bytes) : String :=
  match fromUtf8 bytes with
  | some text => text
  | none => String.ofList (lossyChars bytes.length bytes)

@[simp] theorem from_utf8_lossy_utf8 (text : String) : fromUtf8Lossy (utf8 text) = text := by
  simp [fromUtf8Lossy]

/-- Read `count` bytes as a string. -/
def takeUtf8 {ε : Type} (short notUtf8 : ε) (count : Nat) : Reader ε String := do
  let bytes ← take short count
  match fromUtf8 bytes with
  | some text => pure text
  | none => throw notUtf8

theorem decodes_utf8 {ε : Type} (short notUtf8 : ε) (text : String) :
    Decodes (takeUtf8 short notUtf8 (utf8 text).length) (utf8 text) text := by
  have taken := (decodes_take short (utf8 text)).bind
    (k := fun bytes => match fromUtf8 bytes with
      | some found => (pure found : Reader ε String)
      | none => throw notUtf8)
    (by simpa using Decodes.pure text)
  rwa [List.append_nil] at taken

theorem fails_utf8 {ε : Type} {property : ε → Prop} {short notUtf8 : ε} (early : property short)
    (spelled : property notUtf8) (count : Nat) :
    FailsWith property (takeUtf8 short notUtf8 count) := by
  apply (fails_take early count).bind
  intro bytes
  split
  · exact FailsWith.pure _
  · exact FailsWith.throw spelled

theorem yields_utf8 {ε : Type} (short notUtf8 : ε) (count : Nat) :
    Yields (fun text => (utf8 text).length = count) (takeUtf8 short notUtf8 count) := by
  refine (yields_take short count).bind fun bytes size => ?_
  split
  case h_1 text decoded =>
    apply Yields.pure
    rw [utf8_of_from_utf8 decoded]
    exact size
  case h_2 => exact Yields.throw notUtf8

/-! ## `str` operations -/

/-- `char::is_whitespace`: the Unicode property White_Space. -/
def isWhiteSpace (c : Char) : Bool :=
  (0x09 ≤ c.toNat && c.toNat ≤ 0x0D) || c.toNat == 0x20 || c.toNat == 0x85 || c.toNat == 0xA0 ||
    c.toNat == 0x1680 || (0x2000 ≤ c.toNat && c.toNat ≤ 0x200A) || c.toNat == 0x2028 ||
    c.toNat == 0x2029 || c.toNat == 0x202F || c.toNat == 0x205F || c.toNat == 0x3000

/-- `str::trim_start` and `str::trim`, on the characters. -/
def trimStart (chars : List Char) : List Char := chars.dropWhile isWhiteSpace

def trimEnd (chars : List Char) : List Char := (trimStart chars.reverse).reverse

def trimChars (chars : List Char) : List Char := trimEnd (trimStart chars)

def trim (text : String) : String := String.ofList (trimChars text.toList)

theorem trim_start_of_head (chars : List Char)
    (solid : ∀ c ∈ chars.head?, isWhiteSpace c = false) : trimStart chars = chars := by
  cases chars with
  | nil => rfl
  | cons c rest => simp [trimStart, solid c rfl]

/-- A text that neither starts nor ends with white space is not trimmed. -/
theorem trim_chars_of_ends (chars : List Char) (front : ∀ c ∈ chars.head?, isWhiteSpace c = false)
    (back : ∀ c ∈ chars.getLast?, isWhiteSpace c = false) : trimChars chars = chars := by
  rw [← List.head?_reverse] at back
  rw [trimChars, trim_start_of_head chars front, trimEnd, trim_start_of_head chars.reverse back,
    List.reverse_reverse]

theorem trim_chars_of_no_space (chars : List Char)
    (solid : ∀ c ∈ chars, isWhiteSpace c = false) : trimChars chars = chars := by
  apply trim_chars_of_ends
  · exact fun c first => solid c (List.mem_of_mem_head? first)
  · exact fun c last => solid c (List.mem_of_mem_getLast? last)

/-- `str::split_once` with a predicate: what stands before and after the
first character it picks. -/
def splitOnce (pick : Char → Bool) : List Char → Option (List Char × List Char)
  | [] => none
  | c :: rest =>
      if pick c then some ([], rest)
      else (splitOnce pick rest).map fun parts => (c :: parts.1, parts.2)

theorem split_once_append (pick : Char → Bool) (first rest : List Char) (c : Char)
    (none : ∀ d ∈ first, pick d = false) (here : pick c = true) :
    splitOnce pick (first ++ c :: rest) = some (first, rest) := by
  induction first with
  | nil => simp [splitOnce, here]
  | cons d first ih =>
      rw [List.cons_append, splitOnce, none d List.mem_cons_self,
        ih fun other member => none other (List.mem_cons_of_mem _ member)]
      rfl

theorem split_once_some {pick : Char → Bool} {chars first rest : List Char}
    (found : splitOnce pick chars = some (first, rest)) :
    ∃ c, chars = first ++ c :: rest ∧ pick c = true ∧ ∀ d ∈ first, pick d = false := by
  induction chars generalizing first with
  | nil => cases found
  | cons c chars ih =>
      rw [splitOnce] at found
      cases here : pick c with
      | true =>
          rw [if_pos here] at found
          cases found
          exact ⟨c, rfl, here, List.forall_mem_nil _⟩
      | false =>
          rw [if_neg (by rw [here]; exact Bool.false_ne_true)] at found
          obtain ⟨parts, split, same⟩ := Option.map_eq_some_iff.mp found
          cases same
          obtain ⟨d, whole, picked, before⟩ := ih split
          refine ⟨d, by rw [whole, List.cons_append], picked, ?_⟩
          exact List.forall_mem_cons.mpr ⟨here, before⟩

theorem split_once_none (pick : Char → Bool) (chars : List Char)
    (none : ∀ d ∈ chars, pick d = false) : splitOnce pick chars = .none := by
  cases found : splitOnce pick chars with
  | none => rfl
  | some parts =>
      obtain ⟨c, whole, here, _⟩ := split_once_some found
      rw [none c (by rw [whole]; exact List.mem_append_right _ List.mem_cons_self)] at here
      cases here

/-- `str::rsplit_once`: the same at the last such character. -/
def rsplitOnce (pick : Char → Bool) (chars : List Char) : Option (List Char × List Char) :=
  (splitOnce pick chars.reverse).map fun parts => (parts.2.reverse, parts.1.reverse)

theorem rsplit_once_append (pick : Char → Bool) (first rest : List Char) (c : Char)
    (none : ∀ d ∈ rest, pick d = false) (here : pick c = true) :
    rsplitOnce pick (first ++ c :: rest) = some (first, rest) := by
  have turned : (first ++ c :: rest).reverse = rest.reverse ++ c :: first.reverse := by
    rw [List.reverse_append, List.reverse_cons, List.append_assoc, List.singleton_append]
  rw [rsplitOnce, turned, split_once_append pick _ _ c
    (fun d member => none d (List.mem_reverse.mp member)) here, Option.map_some,
    List.reverse_reverse, List.reverse_reverse]

theorem rsplit_once_some {pick : Char → Bool} {chars first rest : List Char}
    (found : rsplitOnce pick chars = some (first, rest)) :
    ∃ c, chars = first ++ c :: rest ∧ pick c = true ∧ ∀ d ∈ rest, pick d = false := by
  obtain ⟨parts, split, same⟩ := Option.map_eq_some_iff.mp found
  cases same
  obtain ⟨c, whole, here, before⟩ := split_once_some split
  refine ⟨c, ?_, here, fun d member => before d (List.mem_reverse.mp member)⟩
  rw [← List.reverse_reverse chars, whole, List.reverse_append, List.reverse_cons,
    List.append_assoc, List.singleton_append]

/-- `str::strip_prefix`. -/
def stripPrefix : List Char → List Char → Option (List Char)
  | [], chars => some chars
  | p :: ps, c :: cs => if p = c then stripPrefix ps cs else none
  | _ :: _, [] => none

theorem strip_prefix_append (key rest : List Char) : stripPrefix key (key ++ rest) = some rest := by
  induction key with
  | nil => rfl
  | cons c key ih => rw [List.cons_append, stripPrefix, if_pos rfl, ih]

theorem strip_prefix_some {key chars rest : List Char} (found : stripPrefix key chars = some rest) :
    chars = key ++ rest := by
  induction key generalizing chars with
  | nil => exact Option.some.inj found
  | cons c key ih =>
      cases chars with
      | nil => cases found
      | cons d chars =>
          rw [stripPrefix] at found
          split_ifs at found with same
          rw [same, ih found, List.cons_append]

theorem trim_start_length_le (chars : List Char) : (trimStart chars).length ≤ chars.length :=
  (List.dropWhile_sublist isWhiteSpace).length_le

theorem trim_length_le (text : String) : (trim text).toList.length ≤ text.toList.length := by
  have front := trim_start_length_le text.toList
  have back := trim_start_length_le (trimStart text.toList).reverse
  simp only [trim, trimChars, trimEnd, String.toList_ofList, List.length_reverse] at *
  omega

theorem to_list_length_le_utf8 (text : String) : text.toList.length ≤ (utf8 text).length := by
  have sizes : ∀ chars : List Char, chars.length ≤ (chars.map Char.utf8Size).sum := by
    intro chars
    induction chars with
    | nil => simp
    | cons c rest ih =>
        have positive := c.utf8Size_pos
        simp only [List.length_cons, List.map_cons, List.sum_cons]
        omega
  have whole := utf8_length text.toList
  rw [String.ofList_toList] at whole
  rw [whole]
  exact sizes text.toList

/-! ## Hexadecimal text -/

def hexDigit (value : Nat) : Char :=
  if value < 10 then Char.ofNat (48 + value) else Char.ofNat (87 + value)

def hexValue (c : Char) : Option Nat :=
  if '0' ≤ c ∧ c ≤ '9' then some (c.toNat - 48)
  else if 'a' ≤ c ∧ c ≤ 'f' then some (c.toNat - 87)
  else if 'A' ≤ c ∧ c ≤ 'F' then some (c.toNat - 55)
  else none

/-- `hex::encode`: two lower-case digits a byte. -/
def encodeHexChars : Bytes → List Char
  | [] => []
  | byte :: rest => hexDigit (byte.toNat / 16) :: hexDigit (byte.toNat % 16) :: encodeHexChars rest

def encodeHex (bytes : Bytes) : String := String.ofList (encodeHexChars bytes)

/-- `hex::decode`: an even number of digits in either case, or nothing. -/
def decodeHexChars : List Char → Option Bytes
  | [] => some []
  | [_] => none
  | high :: low :: rest => do
      let first ← hexValue high
      let second ← hexValue low
      let bytes ← decodeHexChars rest
      some (UInt8.ofNat (16 * first + second) :: bytes)

theorem hex_value_digit : ∀ value < 16, hexValue (hexDigit value) = some value := by
  decide

theorem hex_digit_solid : ∀ value < 16, isWhiteSpace (hexDigit value) = false := by
  decide

theorem decode_encode_hex (bytes : Bytes) : decodeHexChars (encodeHexChars bytes) = some bytes := by
  induction bytes with
  | nil => rfl
  | cons byte rest ih =>
      have bound := byte.toNat_lt
      have high : byte.toNat / 16 < 16 := by omega
      have low : byte.toNat % 16 < 16 := by omega
      have joined : 16 * (byte.toNat / 16) + byte.toNat % 16 = byte.toNat := by omega
      simp only [encodeHexChars, decodeHexChars, hex_value_digit _ high, hex_value_digit _ low, ih,
        bind, Option.bind, joined, UInt8.ofNat_toNat]

theorem encode_hex_length (bytes : Bytes) : (encodeHexChars bytes).length = 2 * bytes.length := by
  induction bytes with
  | nil => rfl
  | cons byte rest ih =>
      simp only [encodeHexChars, List.length_cons, ih]
      omega

theorem decode_hex_length : ∀ (chars : List Char) (bytes : Bytes),
    decodeHexChars chars = some bytes → chars.length = 2 * bytes.length
  | [], bytes, decoded => by
      cases decoded
      rfl
  | [_], _, decoded => by contradiction
  | high :: low :: rest, bytes, decoded => by
      simp only [decodeHexChars, Option.bind_eq_bind, Option.bind_eq_some_iff] at decoded
      obtain ⟨_, _, _, _, tail, decodedTail, same⟩ := decoded
      cases same
      have ih := decode_hex_length rest tail decodedTail
      simp only [List.length_cons, ih]
      omega

theorem hex_digit_size : ∀ value < 16, (hexDigit value).utf8Size = 1 := by
  decide

theorem utf8_encode_hex_length (bytes : Bytes) :
    (utf8 (encodeHex bytes)).length = 2 * bytes.length := by
  rw [encodeHex, utf8_length]
  induction bytes with
  | nil => rfl
  | cons byte rest ih =>
      have bound := byte.toNat_lt
      simp only [encodeHexChars, List.map_cons, List.sum_cons, List.length_cons, ih,
        hex_digit_size _ (show byte.toNat / 16 < 16 by omega),
        hex_digit_size _ (show byte.toNat % 16 < 16 by omega)]
      omega

/-- Every character of a hex text is a digit. -/
theorem mem_encode_hex (bytes : Bytes) :
    ∀ c ∈ encodeHexChars bytes, ∃ value < 16, c = hexDigit value := by
  induction bytes with
  | nil => simp [encodeHexChars]
  | cons byte rest ih =>
      have bound := byte.toNat_lt
      intro c member
      simp only [encodeHexChars, List.mem_cons] at member
      rcases member with rfl | rfl | member
      · exact ⟨_, by omega, rfl⟩
      · exact ⟨_, by omega, rfl⟩
      · exact ih c member

theorem encode_hex_solid (bytes : Bytes) : ∀ c ∈ encodeHexChars bytes, isWhiteSpace c = false := by
  intro c member
  obtain ⟨value, small, rfl⟩ := mem_encode_hex bytes c member
  exact hex_digit_solid value small

theorem encode_hex_sizes (bytes : Bytes) : ∀ c ∈ encodeHexChars bytes, c.utf8Size = 1 := by
  intro c member
  obtain ⟨value, small, rfl⟩ := mem_encode_hex bytes c member
  exact hex_digit_size value small

end HorizonOs.Lib.Text
