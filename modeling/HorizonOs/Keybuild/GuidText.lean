import HorizonOs.Keybuild.Disk
import HorizonOs.Lib.HexBytes

/-!
# The text of a GUID

What `Guid::parse` takes: five groups of hexadecimal digits, and because a group is read by the
parser of a radix, also a group with a sign.
-/

namespace HorizonOs.Keybuild.Disk

open HorizonOs.Lib.ByteCodec HorizonOs.Lib.Buffer HorizonOs.Lib.Text
open HorizonOs.Lib.Hex (Digits unsigned)
open HorizonOs.Keybuild.Gpt

set_option autoImplicit false

/-! ## The form -/

/-- Five groups of characters with hyphens between them. -/
structure Shaped (text : String) (g1 g2 g3 g4 g5 : List Char) : Prop where
  whole : text.toList = g1 ++ '-' :: (g2 ++ '-' :: (g3 ++ '-' :: (g4 ++ '-' :: g5)))
  sizes : [g1, g2, g3, g4, g5].map List.length = [8, 4, 4, 4, 12]

/-- The `8-4-4-4-12` form of hexadecimal digits. -/
def Canonical (text : String) : Prop :=
  ∃ g1 g2 g3 g4 g5, Shaped text g1 g2 g3 g4 g5 ∧ ∀ g ∈ [g1, g2, g3, g4, g5], Digits g

/-- The same form, but at least one group has a sign for its first digit. -/
def Signed (text : String) : Prop :=
  ∃ g1 g2 g3 g4 g5, Shaped text g1 g2 g3 g4 g5 ∧
    (∀ g ∈ [g1, g2, g3, g4, g5], unsigned g ≠ [] ∧ Digits (unsigned g)) ∧
    ∃ g ∈ [g1, g2, g3, g4, g5], g.head? = some '+'

theorem canonical_length {text : String} (canonical : Canonical text) : text.toList.length = 36 := by
  obtain ⟨g1, g2, g3, g4, g5, shaped, _⟩ := canonical
  have sizes := shaped.sizes
  simp only [List.map_cons, List.map_nil, List.cons.injEq, and_true] at sizes
  rw [shaped.whole]
  simp only [List.length_append, List.length_cons]
  omega

/-! ## What is taken -/

/-- A group that is read as a number. -/
def Number (g : List Char) : Prop := unsigned g ≠ [] ∧ Digits (unsigned g)

theorem number_iff (g : List Char) : (parseHex g).isSome = true ↔ Number g :=
  Lib.Hex.parse_hex_is_some g

theorem mem_number {g : List Char} (number : Number g) {c : Char} (member : c ∈ g) :
    c = '+' ∨ (Lib.Text.hexValue c).isSome = true := by
  have digits := number.2
  rw [unsigned] at digits
  split_ifs at digits with sign
  · cases g with
    | nil => cases member
    | cons first rest =>
        rcases List.mem_cons.mp member with rfl | later
        · exact .inl (Option.some.inj sign)
        · exact .inr (digits c later)
  · exact .inr (digits c member)

theorem digit_plain {c : Char} (digit : (hexValue c).isSome = true) :
    c ≠ '+' ∧ c ≠ '-' ∧ c.utf8Size = 1 := by
  have below : c.toNat < 128 := by
    rw [Lib.Hex.hex_value_cases] at digit
    split_ifs at digit <;> first | omega | cases digit
  refine ⟨?_, ?_, ?_⟩
  · rintro rfl
    cases digit
  · rintro rfl
    cases digit
  · rw [Char.utf8Size, if_pos]
    exact UInt32.le_iff_toNat_le.mpr (Nat.le_of_lt_succ below)

theorem number_plain {g : List Char} (number : Number g) :
    '-' ∉ g ∧ (utf8 (String.ofList g)).length = g.length := by
  have single : ∀ c ∈ g, c ≠ '-' ∧ c.utf8Size = 1 := by
    intro c member
    rcases mem_number number member with rfl | digit
    · exact ⟨by decide, by decide⟩
    · exact (digit_plain digit).2
  refine ⟨fun member => (single '-' member).1 rfl, ?_⟩
  have sizes : g.map Char.utf8Size = List.replicate g.length 1 := by
    rw [List.eq_replicate_iff, List.length_map]
    refine ⟨rfl, fun size member => ?_⟩
    obtain ⟨c, among, rfl⟩ := List.mem_map.mp member
    exact (single c among).2
  rw [utf8_length, sizes, List.sum_replicate_nat, Nat.mul_one]

/-- The bytes that five groups are read as. -/
def guidBytes (f1 f2 f3 f4 f5 : Nat) : Bytes :=
  encodeLE 4 f1 ++ encodeLE 2 f2 ++ encodeLE 2 f3 ++ encodeBE 2 f4 ++ encodeBE 6 f5

theorem parse_guid_iff (text : String) (guid : Guid) : parseGuid text = some guid ↔
    ∃ g1 g2 g3 g4 g5, Shaped text g1 g2 g3 g4 g5 ∧ ∃ f1 f2 f3 f4 f5,
      (parseHex g1 = some f1 ∧ parseHex g2 = some f2 ∧ parseHex g3 = some f3 ∧
        parseHex g4 = some f4 ∧ parseHex g5 = some f5) ∧
      guid = FixedBytes.ofBytes 16 (guidBytes f1 f2 f3 f4 f5) := by
  constructor
  · intro parsed
    rw [parseGuid] at parsed
    split at parsed
    case h_1 g1 g2 g3 g4 g5 groups =>
      split_ifs at parsed with sizes
      obtain ⟨f1, first, parsed⟩ := Option.bind_eq_some_iff.mp parsed
      obtain ⟨f2, second, parsed⟩ := Option.bind_eq_some_iff.mp parsed
      obtain ⟨f3, third, parsed⟩ := Option.bind_eq_some_iff.mp parsed
      obtain ⟨f4, fourth, parsed⟩ := Option.bind_eq_some_iff.mp parsed
      obtain ⟨f5, fifth, made⟩ := Option.bind_eq_some_iff.mp parsed
      have plain {g : List Char} {f : Nat} (read : parseHex g = some f) :
          (utf8 (String.ofList g)).length = g.length :=
        (number_plain ((number_iff g).mp (by rw [read]; rfl))).2
      refine ⟨g1, g2, g3, g4, g5, ⟨?_, ?_⟩, f1, f2, f3, f4, f5,
        ⟨first, second, third, fourth, fifth⟩, (Option.some.inj made).symm⟩
      · have joined := @List.intercalate_splitOn _ text.toList _ _ '-'
        rw [groups] at joined
        simpa only [List.intercalate_cons_cons, List.intercalate_singleton, List.append_assoc,
          List.singleton_append] using joined.symm
      · rw [← sizes]
        simp only [List.map_cons, List.map_nil, plain first, plain second, plain third,
          plain fourth, plain fifth]
    case h_2 => cases parsed
  · rintro ⟨g1, g2, g3, g4, g5, shaped, f1, f2, f3, f4, f5,
      ⟨first, second, third, fourth, fifth⟩, rfl⟩
    have plain {g : List Char} {f : Nat} (read : parseHex g = some f) :
        '-' ∉ g ∧ (utf8 (String.ofList g)).length = g.length :=
      number_plain ((number_iff g).mp (by rw [read]; rfl))
    have groups : text.toList.splitOn '-' = [g1, g2, g3, g4, g5] := by
      rw [shaped.whole, List.splitOn_append_cons_self_of_not_mem (plain first).1,
        List.splitOn_append_cons_self_of_not_mem (plain second).1,
        List.splitOn_append_cons_self_of_not_mem (plain third).1,
        List.splitOn_append_cons_self_of_not_mem (plain fourth).1,
        List.splitOn_eq_singleton (plain fifth).1]
    have sizes : [g1, g2, g3, g4, g5].map (fun g => (utf8 (String.ofList g)).length) =
        [8, 4, 4, 4, 12] := by
      rw [← shaped.sizes]
      simp only [List.map_cons, List.map_nil, (plain first).2, (plain second).2, (plain third).2,
        (plain fourth).2, (plain fifth).2]
    rw [parseGuid, groups]
    simp only [sizes, if_true, first, second, third, fourth, fifth, Option.bind_eq_bind,
      Option.bind_some]
    rfl

theorem parse_guid_is_some (text : String) : (parseGuid text).isSome = true ↔
    ∃ g1 g2 g3 g4 g5, Shaped text g1 g2 g3 g4 g5 ∧ ∀ g ∈ [g1, g2, g3, g4, g5], Number g := by
  rw [Option.isSome_iff_exists]
  constructor
  · rintro ⟨guid, parsed⟩
    obtain ⟨g1, g2, g3, g4, g5, shaped, f1, f2, f3, f4, f5, ⟨first, second, third, fourth, fifth⟩,
      _⟩ := (parse_guid_iff text guid).mp parsed
    have number {g : List Char} {f : Nat} (read : parseHex g = some f) : Number g :=
      (number_iff g).mp (by rw [read]; rfl)
    refine ⟨g1, g2, g3, g4, g5, shaped, ?_⟩
    simp only [List.forall_mem_cons, List.not_mem_nil, false_imp_iff, implies_true, and_true]
    exact ⟨number first, number second, number third, number fourth, number fifth⟩
  · rintro ⟨g1, g2, g3, g4, g5, shaped, numbers⟩
    have number (g : List Char) (member : g ∈ [g1, g2, g3, g4, g5]) : ∃ f, parseHex g = some f :=
      Option.isSome_iff_exists.mp ((number_iff g).mpr (numbers g member))
    obtain ⟨f1, first⟩ := number g1 (by simp)
    obtain ⟨f2, second⟩ := number g2 (by simp)
    obtain ⟨f3, third⟩ := number g3 (by simp)
    obtain ⟨f4, fourth⟩ := number g4 (by simp)
    obtain ⟨f5, fifth⟩ := number g5 (by simp)
    exact ⟨_, (parse_guid_iff text _).mpr ⟨g1, g2, g3, g4, g5, shaped, f1, f2, f3, f4, f5,
      ⟨first, second, third, fourth, fifth⟩, rfl⟩⟩

/-! ## Canonical texts and the others -/

theorem unsigned_eq {g : List Char} (plain : g.head? ≠ some '+') : unsigned g = g := if_neg plain

theorem digits_head {g : List Char} (digits : Digits g) : g.head? ≠ some '+' := by
  intro sign
  exact (digit_plain (digits '+' (List.mem_of_mem_head? (Option.mem_def.mpr sign)))).1 rfl

theorem group_ne_nil {text : String} {g1 g2 g3 g4 g5 : List Char}
    (shaped : Shaped text g1 g2 g3 g4 g5) : ∀ g ∈ [g1, g2, g3, g4, g5], g ≠ [] := by
  rintro g member rfl
  have zero : 0 ∈ [g1, g2, g3, g4, g5].map List.length := List.mem_map.mpr ⟨[], member, rfl⟩
  rw [shaped.sizes] at zero
  revert zero
  decide

theorem guid_parsed_iff (text : String) :
    (parseGuid text).isSome = true ↔ Canonical text ∨ Signed text := by
  rw [parse_guid_is_some]
  constructor
  · rintro ⟨g1, g2, g3, g4, g5, shaped, numbers⟩
    by_cases signs : ∃ g ∈ [g1, g2, g3, g4, g5], g.head? = some '+'
    · exact .inr ⟨g1, g2, g3, g4, g5, shaped, numbers, signs⟩
    · refine .inl ⟨g1, g2, g3, g4, g5, shaped, fun g member => ?_⟩
      have digits := (numbers g member).2
      rwa [unsigned_eq fun sign => signs ⟨g, member, sign⟩] at digits
  · rintro (⟨g1, g2, g3, g4, g5, shaped, digits⟩ | ⟨g1, g2, g3, g4, g5, shaped, numbers, _⟩)
    · refine ⟨g1, g2, g3, g4, g5, shaped, fun g member => ?_⟩
      rw [Number, unsigned_eq (digits_head (digits g member))]
      exact ⟨group_ne_nil shaped g member, digits g member⟩
    · exact ⟨g1, g2, g3, g4, g5, shaped, numbers⟩

theorem mem_shaped {text : String} {g1 g2 g3 g4 g5 : List Char}
    (shaped : Shaped text g1 g2 g3 g4 g5) (c : Char) :
    c ∈ text.toList ↔ c = '-' ∨ ∃ g ∈ [g1, g2, g3, g4, g5], c ∈ g := by
  rw [shaped.whole]
  simp only [List.mem_append, List.mem_cons, List.not_mem_nil, or_false, exists_eq_or_imp,
    exists_eq_left]
  tauto

theorem signed_not_canonical {text : String} (signed : Signed text) : ¬ Canonical text := by
  obtain ⟨g1, g2, g3, g4, g5, shaped, _, g, member, sign⟩ := signed
  rintro ⟨h1, h2, h3, h4, h5, shaped', digits⟩
  have plus : '+' ∈ text.toList := (mem_shaped shaped '+').mpr
    (.inr ⟨g, member, List.mem_of_mem_head? (Option.mem_def.mpr sign)⟩)
  rcases (mem_shaped shaped' '+').mp plus with hyphen | ⟨h, among, inside⟩
  · cases hyphen
  · exact (digit_plain (digits h among '+' inside)).1 rfl

/-! ## The bytes -/

/-- The digits of the text without its hyphens. -/
def textDigits (text : String) : List Char := text.toList.filter (· ≠ '-')

/-- The first three fields in reverse, the rest as written. -/
def mixedEndian (bytes : Bytes) : Bytes :=
  (bytes.take 4).reverse ++ ((bytes.drop 4).take 2).reverse ++ ((bytes.drop 6).take 2).reverse ++
    bytes.drop 8

theorem text_digits_eq {text : String} {g1 g2 g3 g4 g5 : List Char}
    (shaped : Shaped text g1 g2 g3 g4 g5) (digits : ∀ g ∈ [g1, g2, g3, g4, g5], Digits g) :
    textDigits text = g1 ++ (g2 ++ (g3 ++ (g4 ++ g5))) := by
  have kept (g : List Char) (member : g ∈ [g1, g2, g3, g4, g5]) : g.filter (· ≠ '-') = g :=
    List.filter_eq_self.mpr fun c inside =>
      decide_eq_true (digit_plain (digits g member c inside)).2.1
  have dropped (rest : List Char) : ('-' :: rest).filter (· ≠ '-') = rest.filter (· ≠ '-') :=
    List.filter_cons_of_neg (by decide)
  rw [textDigits, shaped.whole, List.filter_append, dropped, List.filter_append, dropped,
    List.filter_append, dropped, List.filter_append, dropped, kept g1 (by simp), kept g2 (by simp),
    kept g3 (by simp), kept g4 (by simp), kept g5 (by simp)]

theorem mixed_endian_append {b1 b2 b3 : Bytes} (length1 : b1.length = 4) (length2 : b2.length = 2)
    (length3 : b3.length = 2) (rest : Bytes) : mixedEndian (b1 ++ (b2 ++ (b3 ++ rest))) =
      b1.reverse ++ b2.reverse ++ b3.reverse ++ rest := by
  have four : (b1 ++ (b2 ++ (b3 ++ rest))).drop 4 = b2 ++ (b3 ++ rest) := List.drop_left' length1
  have six : (b1 ++ (b2 ++ (b3 ++ rest))).drop 6 = b3 ++ rest := by
    rw [show 6 = 4 + 2 from rfl, ← List.drop_drop, four, List.drop_left' length2]
  have eight : (b1 ++ (b2 ++ (b3 ++ rest))).drop 8 = rest := by
    rw [show 8 = 6 + 2 from rfl, ← List.drop_drop, six, List.drop_left' length3]
  rw [mixedEndian, four, six, eight, List.take_left' length1, List.take_left' length2,
    List.take_left' length3]

/-- The order loses nothing. -/
theorem mixed_endian_injective {left right : Bytes} (size : left.length = 16)
    (size' : right.length = 16) (same : mixedEndian left = mixedEndian right) : left = right := by
  have parts (bytes : Bytes) : bytes = bytes.take 4 ++ ((bytes.drop 4).take 2 ++
      ((bytes.drop 6).take 2 ++ bytes.drop 8)) := by
    have last := List.take_append_drop 2 (bytes.drop 6)
    have middle := List.take_append_drop 2 (bytes.drop 4)
    rw [List.drop_drop] at last middle
    rw [last, middle, List.take_append_drop]
  rw [mixedEndian, mixedEndian] at same
  obtain ⟨front, fourth⟩ := List.append_inj' same (by
    rw [List.length_drop, List.length_drop, size, size'])
  obtain ⟨front, third⟩ := List.append_inj' front (by
    simp only [List.length_reverse, List.length_take, List.length_drop, size, size'])
  obtain ⟨first, second⟩ := List.append_inj' front (by
    simp only [List.length_reverse, List.length_take, List.length_drop, size, size'])
  rw [parts left, parts right, List.reverse_injective first, List.reverse_injective second,
    List.reverse_injective third, fourth]

/-- A canonical text is read as the bytes of its digits, in mixed order. -/
theorem canonical_parsed {text : String} (canonical : Canonical text) : ∃ bytes guid,
    Lib.Text.decodeHexChars (textDigits text) = some bytes ∧ bytes.length = 16 ∧
      parseGuid text = some guid ∧ guid.bytes = mixedEndian bytes := by
  obtain ⟨g1, g2, g3, g4, g5, shaped, digits⟩ := canonical
  have sizes := shaped.sizes
  simp only [List.map_cons, List.map_nil, List.cons.injEq, and_true] at sizes
  obtain ⟨size1, size2, size3, size4, size5⟩ := sizes
  obtain ⟨b1, decoded1, length1⟩ := Lib.Hex.decode_hex_some 4 g1 size1 (digits g1 (by simp))
  obtain ⟨b2, decoded2, length2⟩ := Lib.Hex.decode_hex_some 2 g2 size2 (digits g2 (by simp))
  obtain ⟨b3, decoded3, length3⟩ := Lib.Hex.decode_hex_some 2 g3 size3 (digits g3 (by simp))
  obtain ⟨b4, decoded4, length4⟩ := Lib.Hex.decode_hex_some 2 g4 size4 (digits g4 (by simp))
  obtain ⟨b5, decoded5, length5⟩ := Lib.Hex.decode_hex_some 6 g5 size5 (digits g5 (by simp))
  have number {g : List Char} {b : Bytes} {count : Nat} (member : g ∈ [g1, g2, g3, g4, g5])
      (decoded : Lib.Text.decodeHexChars g = some b) (length : b.length = count + 1) :
      ∃ f, parseHex g = some f ∧ encodeBE (count + 1) f = b := by
    have more : b ≠ [] := List.ne_nil_of_length_eq_add_one length
    rw [← length]
    exact Lib.Hex.parse_hex_bytes more decoded (digits_head (digits g member))
  obtain ⟨f1, read1, bytes1⟩ := number (by simp) decoded1 length1
  obtain ⟨f2, read2, bytes2⟩ := number (by simp) decoded2 length2
  obtain ⟨f3, read3, bytes3⟩ := number (by simp) decoded3 length3
  obtain ⟨f4, read4, bytes4⟩ := number (by simp) decoded4 length4
  obtain ⟨f5, read5, bytes5⟩ := number (by simp) decoded5 length5
  refine ⟨b1 ++ (b2 ++ (b3 ++ (b4 ++ b5))), _, ?_, ?_, (parse_guid_iff text _).mpr
    ⟨g1, g2, g3, g4, g5, shaped, f1, f2, f3, f4, f5, ⟨read1, read2, read3, read4, read5⟩, rfl⟩, ?_⟩
  · rw [text_digits_eq shaped digits]
    exact Lib.Hex.decode_hex_append decoded1 (Lib.Hex.decode_hex_append decoded2
      (Lib.Hex.decode_hex_append decoded3 (Lib.Hex.decode_hex_append decoded4 decoded5)))
  · simp only [List.length_append, length1, length2, length3, length4, length5]
  · have made : guidBytes f1 f2 f3 f4 f5 = b1.reverse ++ b2.reverse ++ b3.reverse ++ (b4 ++ b5) := by
      rw [guidBytes, Lib.Hex.encode_le_reverse, Lib.Hex.encode_le_reverse,
        Lib.Hex.encode_le_reverse, bytes1, bytes2, bytes3, bytes4, bytes5, List.append_assoc _ b4]
    have size : (guidBytes f1 f2 f3 f4 f5).length = 16 := by
      rw [made]
      simp only [List.length_append, List.length_reverse, length1, length2, length3, length4,
        length5]
    rw [fixed_of_bytes 16 _ size]
    exact made.trans (mixed_endian_append length1 length2 length3 _).symm

/-! ## Two texts -/

theorem lower_hyphen_iff (c : Char) : c.toLower = '-' ↔ c = '-' := by
  constructor
  · intro same
    have number := congrArg Char.toNat same
    have hyphen : '-'.toNat = 45 := rfl
    rw [Lib.Hex.lower_to_nat, hyphen] at number
    apply Lib.Hex.char_of_to_nat
    split_ifs at number <;> omega
  · rintro rfl
    rfl

theorem digits_of_lower {first second : List Char} (digits : Digits first)
    (same : second.map Char.toLower = first.map Char.toLower) : Digits second := by
  intro c member
  have listed : c.toLower ∈ first.map Char.toLower := same ▸ List.mem_map_of_mem member
  obtain ⟨d, among, lowered⟩ := List.mem_map.mp listed
  rw [← Lib.Hex.hex_value_lower, ← lowered, Lib.Hex.hex_value_lower]
  exact digits d among

theorem canonical_of_lower {text other : String} (canonical : Canonical text)
    (same : other.toList.map Char.toLower = text.toList.map Char.toLower) : Canonical other := by
  obtain ⟨g1, g2, g3, g4, g5, shaped, digits⟩ := canonical
  have hyphen : '-'.toLower = '-' := by decide
  simp only [shaped.whole, List.map_append, List.map_cons, hyphen] at same
  have cut {g rest : List Char} {chars : List Char}
      (whole : chars.map Char.toLower = g.map Char.toLower ++ '-' :: rest) :
      ∃ h others, chars = h ++ '-' :: others ∧ h.map Char.toLower = g.map Char.toLower ∧
        others.map Char.toLower = rest := by
    obtain ⟨h, behind, rfl, first, later⟩ := List.map_eq_append_iff.mp whole
    obtain ⟨c, others, rfl, lowered, last⟩ := List.map_eq_cons_iff.mp later
    rw [(lower_hyphen_iff c).mp lowered]
    exact ⟨h, others, rfl, first, last⟩
  obtain ⟨h1, rest, whole, same1, same⟩ := cut same
  obtain ⟨h2, rest, rfl, same2, same⟩ := cut same
  obtain ⟨h3, rest, rfl, same3, same⟩ := cut same
  obtain ⟨h4, h5, rfl, same4, same5⟩ := cut same
  have length {h g : List Char} (lowered : h.map Char.toLower = g.map Char.toLower) :
      h.length = g.length := by
    have lengths := congrArg List.length lowered
    rwa [List.length_map, List.length_map] at lengths
  refine ⟨h1, h2, h3, h4, h5, ⟨whole, ?_⟩, ?_⟩
  · rw [← shaped.sizes]
    simp only [List.map_cons, List.map_nil, length same1, length same2, length same3, length same4,
      length same5]
  · simp only [List.forall_mem_cons, List.not_mem_nil, false_imp_iff, implies_true, and_true]
      at digits ⊢
    exact ⟨digits_of_lower digits.1 same1, digits_of_lower digits.2.1 same2,
      digits_of_lower digits.2.2.1 same3, digits_of_lower digits.2.2.2.1 same4,
      digits_of_lower digits.2.2.2.2 same5⟩

theorem text_digits_lower (text : String) : (textDigits text).map Char.toLower =
    (text.toList.map Char.toLower).filter (· ≠ '-') := by
  rw [textDigits, List.filter_map]
  congr 1
  refine List.filter_congr fun c _ => ?_
  rw [Function.comp_apply]
  exact decide_eq_decide.mpr (not_congr (lower_hyphen_iff c).symm)

/-- Canonical texts with the same digits but for case are the same but for case. -/
theorem lower_of_digits {text other : String} (canonical : Canonical text)
    (canonical' : Canonical other)
    (same : (textDigits other).map Char.toLower = (textDigits text).map Char.toLower) :
    other.toList.map Char.toLower = text.toList.map Char.toLower := by
  obtain ⟨g1, g2, g3, g4, g5, shaped, digits⟩ := canonical
  obtain ⟨h1, h2, h3, h4, h5, shaped', digits'⟩ := canonical'
  rw [text_digits_eq shaped digits, text_digits_eq shaped' digits'] at same
  have sizes := shaped'.sizes.trans shaped.sizes.symm
  simp only [List.map_cons, List.map_nil, List.cons.injEq, and_true] at sizes
  obtain ⟨size1, size2, size3, size4, size5⟩ := sizes
  simp only [List.map_append] at same
  have length {h g : List Char} (size : h.length = g.length) :
      (h.map Char.toLower).length = (g.map Char.toLower).length := by
    rw [List.length_map, List.length_map, size]
  obtain ⟨same1, same⟩ := List.append_inj same (length size1)
  obtain ⟨same2, same⟩ := List.append_inj same (length size2)
  obtain ⟨same3, same⟩ := List.append_inj same (length size3)
  obtain ⟨same4, same5⟩ := List.append_inj same (length size4)
  rw [shaped.whole, shaped'.whole]
  simp only [List.map_append, List.map_cons, same1, same2, same3, same4, same5]

/-- Two canonical texts are one GUID where they differ in case alone. -/
theorem same_guid_iff {text : String} (canonical : Canonical text) (other : String)
    (unsigned_ : ¬ Signed other) : (∃ guid, parseGuid text = some guid ∧ parseGuid other = some guid) ↔
      other.toList.map Char.toLower = text.toList.map Char.toLower := by
  obtain ⟨bytes, guid, decoded, size, parsed, stored⟩ := canonical_parsed canonical
  constructor
  · rintro ⟨found, left, right⟩
    have canonical' : Canonical other :=
      ((guid_parsed_iff other).mp (by rw [right]; rfl)).resolve_right unsigned_
    obtain ⟨bytes', guid', decoded', size', parsed', stored'⟩ := canonical_parsed canonical'
    obtain rfl := Option.some.inj (parsed.symm.trans left)
    obtain rfl := Option.some.inj (parsed'.symm.trans right)
    obtain rfl := mixed_endian_injective size size' (stored.symm.trans stored')
    exact lower_of_digits canonical canonical' (Lib.Hex.lower_of_decode _ _ _ decoded' decoded)
  · intro same
    have canonical' := canonical_of_lower canonical same
    obtain ⟨bytes', guid', decoded', _, parsed', stored'⟩ := canonical_parsed canonical'
    have digits : (textDigits other).map Char.toLower = (textDigits text).map Char.toLower := by
      rw [text_digits_lower, text_digits_lower, same]
    rw [← Lib.Hex.decode_hex_map_lower, digits, Lib.Hex.decode_hex_map_lower, decoded] at decoded'
    obtain rfl := Option.some.inj decoded'
    obtain rfl : guid = guid' := FixedBytes.ext (stored.trans stored'.symm)
    exact ⟨guid, parsed, parsed'⟩

/-- What `Guid::parse` is to be: it takes the canonical texts, stores their digits in mixed order,
and takes two texts for one GUID where they differ in case alone. -/
structure ExactlyParsed (text : String) : Prop where
  accepted : (parseGuid text).isSome = true ↔ Canonical text
  stored : ∀ guid, parseGuid text = some guid → ∃ bytes,
    Lib.Text.decodeHexChars (textDigits text) = some bytes ∧ guid.bytes = mixedEndian bytes
  same : ∀ other, ¬ Signed other →
    ((∃ guid, parseGuid text = some guid ∧ parseGuid other = some guid) ↔
      Canonical text ∧ other.toList.map Char.toLower = text.toList.map Char.toLower)

/-- A text is parsed exactly unless a group of it has a sign. -/
theorem exactly_parsed_iff (text : String) : ExactlyParsed text ↔ ¬ Signed text := by
  constructor
  · intro exact_ signed
    exact signed_not_canonical signed
      (exact_.accepted.mp ((guid_parsed_iff text).mpr (.inr signed)))
  · intro unsigned_
    have accepted : (parseGuid text).isSome = true ↔ Canonical text := by
      rw [guid_parsed_iff]
      exact or_iff_left unsigned_
    have canonical {guid : Guid} (parsed : parseGuid text = some guid) : Canonical text :=
      accepted.mp (by rw [parsed]; rfl)
    refine ⟨accepted, fun guid parsed => ?_, fun other plain => ?_⟩
    · obtain ⟨bytes, guid', decoded, _, parsed', stored⟩ := canonical_parsed (canonical parsed)
      obtain rfl := Option.some.inj (parsed.symm.trans parsed')
      exact ⟨bytes, decoded, stored⟩
    · constructor
      · rintro ⟨guid, left, right⟩
        exact ⟨canonical left, (same_guid_iff (canonical left) other plain).mp ⟨guid, left, right⟩⟩
      · rintro ⟨shape, lowered⟩
        exact (same_guid_iff shape other plain).mpr lowered

theorem signed_guid_taken : ¬ ∀ text, (parseGuid text).isSome = true ↔ Canonical text := by
  intro exact_
  have signed : Signed "+2345678-1234-1234-1234-123456789abc" := by
    refine ⟨"+2345678".toList, "1234".toList, "1234".toList, "1234".toList, "123456789abc".toList,
      ⟨by decide, by decide⟩, ?_, "+2345678".toList, List.mem_cons_self, by decide⟩
    simp only [List.forall_mem_cons, List.not_mem_nil, false_imp_iff, implies_true, and_true]
    decide
  exact signed_not_canonical signed ((exact_ _).mp ((guid_parsed_iff _).mpr (.inr signed)))

end HorizonOs.Keybuild.Disk
