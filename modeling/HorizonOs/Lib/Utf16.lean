import HorizonOs.Lib.ByteCodec

/-!
# UTF-16 text

The code units of a string: one for a character of the basic plane, a surrogate
pair for any other.
-/

namespace HorizonOs.Lib.Utf16

set_option autoImplicit false

def encodeChar (c : Char) : List UInt16 :=
  if c.toNat < 0x10000 then [UInt16.ofNat c.toNat]
  else
    [UInt16.ofNat (0xD800 + (c.toNat - 0x10000) / 0x400),
      UInt16.ofNat (0xDC00 + (c.toNat - 0x10000) % 0x400)]

/-- `str::encode_utf16`. -/
def encodeUtf16 (text : String) : List UInt16 := text.toList.flatMap encodeChar

def decodeChars : List UInt16 → Option (List Char)
  | [] => some []
  | unit :: rest =>
      if 0xD800 ≤ unit.toNat ∧ unit.toNat < 0xDC00 then
        match rest with
        | [] => none
        | low :: rest =>
            if 0xDC00 ≤ low.toNat ∧ low.toNat < 0xE000 then
              (decodeChars rest).map
                (Char.ofNat (0x10000 + (unit.toNat - 0xD800) * 0x400 + (low.toNat - 0xDC00)) :: ·)
            else none
      else if 0xDC00 ≤ unit.toNat ∧ unit.toNat < 0xE000 then none
      else (decodeChars rest).map (Char.ofNat unit.toNat :: ·)

/-- `String::from_utf16`: no text where a surrogate stands alone. -/
def decodeUtf16 (units : List UInt16) : Option String := (decodeChars units).map String.ofList

theorem decode_encode_char (c : Char) (rest : List UInt16) :
    decodeChars (encodeChar c ++ rest) = (decodeChars rest).map (c :: ·) := by
  have scalar : c.toNat < 0xD800 ∨ 0xDFFF < c.toNat ∧ c.toNat < 0x110000 := c.valid
  have back : Char.ofNat c.toNat = c := Char.ofNat_toNat c
  rw [encodeChar]
  split_ifs with plane
  · have unit : (UInt16.ofNat c.toNat).toNat = c.toNat := by
      rw [UInt16.toNat_ofNat', Nat.mod_eq_of_lt plane]
    rw [List.singleton_append, decodeChars.eq_def]
    simp only [unit, back]
    rw [if_neg (by omega), if_neg (by omega)]
  · have high : (UInt16.ofNat (0xD800 + (c.toNat - 0x10000) / 0x400)).toNat =
        0xD800 + (c.toNat - 0x10000) / 0x400 := by
      rw [UInt16.toNat_ofNat']
      omega
    have low : (UInt16.ofNat (0xDC00 + (c.toNat - 0x10000) % 0x400)).toNat =
        0xDC00 + (c.toNat - 0x10000) % 0x400 := by
      rw [UInt16.toNat_ofNat']
      omega
    have joined : 0x10000 + (0xD800 + (c.toNat - 0x10000) / 0x400 - 0xD800) * 0x400 +
        (0xDC00 + (c.toNat - 0x10000) % 0x400 - 0xDC00) = c.toNat := by
      omega
    rw [List.cons_append, List.singleton_append, decodeChars, high, if_pos (by omega)]
    simp only [low]
    rw [if_pos (by omega), joined, back]

/-- A string is the one its units spell. -/
theorem decode_encode_utf16 (text : String) : decodeUtf16 (encodeUtf16 text) = some text := by
  have chars : ∀ list : List Char, decodeChars (list.flatMap encodeChar) = some list := by
    intro list
    induction list with
    | nil => rfl
    | cons c list ih =>
        rw [List.flatMap_cons, decode_encode_char, ih]
        rfl
  rw [decodeUtf16, encodeUtf16, chars]
  exact congrArg some (String.ofList_toList)

/-! ## Lossy text -/

/-- The character of a unit that stands alone, a surrogate replaced. -/
def aloneChar (unit : UInt16) : Char :=
  if 0xD800 ≤ unit.toNat ∧ unit.toNat < 0xE000 then Char.ofNat 0xFFFD else Char.ofNat unit.toNat

def isPair (high low : UInt16) : Bool :=
  decide ((0xD800 ≤ high.toNat ∧ high.toNat < 0xDC00) ∧ 0xDC00 ≤ low.toNat ∧ low.toNat < 0xE000)

def lossyChars : List UInt16 → List Char
  | [] => []
  | [unit] => [aloneChar unit]
  | unit :: low :: rest =>
      if isPair unit low then
        Char.ofNat (0x10000 + (unit.toNat - 0xD800) * 0x400 + (low.toNat - 0xDC00)) ::
          lossyChars rest
      else aloneChar unit :: lossyChars (low :: rest)

/-- `String::from_utf16_lossy`. -/
def fromUtf16Lossy (units : List UInt16) : String := String.ofList (lossyChars units)

theorem lossy_alone (unit : UInt16) (rest : List UInt16)
    (plain : ¬(0xD800 ≤ unit.toNat ∧ unit.toNat < 0xDC00)) :
    lossyChars (unit :: rest) = aloneChar unit :: lossyChars rest := by
  cases rest with
  | nil => rfl
  | cons low rest =>
      rw [lossyChars, if_neg]
      simp only [isPair, decide_eq_true_eq]
      exact fun pair => plain pair.1

theorem lossy_encode_char (c : Char) (rest : List UInt16) :
    lossyChars (encodeChar c ++ rest) = c :: lossyChars rest := by
  have scalar : c.toNat < 0xD800 ∨ 0xDFFF < c.toNat ∧ c.toNat < 0x110000 := c.valid
  have back : Char.ofNat c.toNat = c := Char.ofNat_toNat c
  rw [encodeChar]
  split_ifs with plane
  · have unit : (UInt16.ofNat c.toNat).toNat = c.toNat := by
      rw [UInt16.toNat_ofNat', Nat.mod_eq_of_lt plane]
    rw [List.singleton_append, lossy_alone _ _ (by rw [unit]; omega), aloneChar, unit,
      if_neg (by omega), back]
  · have high : (UInt16.ofNat (0xD800 + (c.toNat - 0x10000) / 0x400)).toNat =
        0xD800 + (c.toNat - 0x10000) / 0x400 := by
      rw [UInt16.toNat_ofNat']
      omega
    have low : (UInt16.ofNat (0xDC00 + (c.toNat - 0x10000) % 0x400)).toNat =
        0xDC00 + (c.toNat - 0x10000) % 0x400 := by
      rw [UInt16.toNat_ofNat']
      omega
    have joined : 0x10000 + (0xD800 + (c.toNat - 0x10000) / 0x400 - 0xD800) * 0x400 +
        (0xDC00 + (c.toNat - 0x10000) % 0x400 - 0xDC00) = c.toNat := by
      omega
    have pair : isPair (UInt16.ofNat (0xD800 + (c.toNat - 0x10000) / 0x400))
        (UInt16.ofNat (0xDC00 + (c.toNat - 0x10000) % 0x400)) = true := by
      simp only [isPair, high, low, decide_eq_true_eq]
      omega
    rw [List.cons_append, List.singleton_append, lossyChars, if_pos pair, high, low, joined, back]

/-- Whole text is read as it is. -/
theorem lossy_encode_utf16 (text : String) : fromUtf16Lossy (encodeUtf16 text) = text := by
  have chars : ∀ list : List Char, lossyChars (list.flatMap encodeChar) = list := by
    intro list
    induction list with
    | nil => rfl
    | cons c list ih => rw [List.flatMap_cons, lossy_encode_char, ih]
  rw [fromUtf16Lossy, encodeUtf16, chars, String.ofList_toList]

theorem encode_char_length_le (c : Char) : (encodeChar c).length ≤ 2 := by
  rw [encodeChar]
  split_ifs <;> simp

theorem encode_alone_length (unit : UInt16) : (encodeChar (aloneChar unit)).length = 1 := by
  have below := unit.toNat_lt
  have plane : (aloneChar unit).toNat < 0x10000 := by
    rw [aloneChar]
    split_ifs with surrogate
    · decide
    · have valid : unit.toNat.isValidChar := by
        simp only [Nat.isValidChar]
        omega
      rw [Char.ofNat, dif_pos valid]
      exact below
  rw [encodeChar, if_pos plane]
  rfl

/-- What is read has no more units than were there. -/
theorem encode_lossy_length_le : ∀ units : List UInt16,
    ((lossyChars units).flatMap encodeChar).length ≤ units.length
  | [] => Nat.le_refl 0
  | [unit] => by
      rw [lossyChars, List.flatMap_cons, List.flatMap_nil, List.append_nil, encode_alone_length]
      exact Nat.le_refl 1
  | unit :: low :: rest => by
      rw [lossyChars]
      split_ifs with pair
      · have later := encode_lossy_length_le rest
        have first := encode_char_length_le
          (Char.ofNat (0x10000 + (unit.toNat - 0xD800) * 0x400 + (low.toNat - 0xDC00)))
        rw [List.flatMap_cons, List.length_append, List.length_cons, List.length_cons]
        omega
      · have later := encode_lossy_length_le (low :: rest)
        rw [List.flatMap_cons, List.length_append, encode_alone_length, List.length_cons]
        omega

theorem zero_unit_iff (text : String) : 0 ∈ encodeUtf16 text ↔ Char.ofNat 0 ∈ text.toList := by
  have one : ∀ c : Char, 0 ∈ encodeChar c ↔ c = Char.ofNat 0 := by
    intro c
    have scalar : c.toNat < 0xD800 ∨ 0xDFFF < c.toNat ∧ c.toNat < 0x110000 := c.valid
    have same : c = Char.ofNat 0 ↔ c.toNat = 0 := by
      constructor
      · rintro rfl
        rfl
      · intro zero
        rw [← zero, Char.ofNat_toNat]
    have unit : ∀ n, n < 0x10000 → (0 = UInt16.ofNat n ↔ n = 0) := by
      intro n below
      rw [← UInt16.toNat_inj, UInt16.toNat_ofNat', Nat.mod_eq_of_lt below]
      exact eq_comm
    rw [encodeChar, same]
    split_ifs with plane
    · rw [List.mem_singleton, unit _ plane]
    · rw [List.mem_cons, List.mem_singleton, unit _ (by omega), unit _ (by omega)]
      omega
  rw [encodeUtf16, List.mem_flatMap]
  constructor
  · rintro ⟨c, member, zero⟩
    rwa [← (one c).mp zero]
  · exact fun member => ⟨_, member, (one _).mpr rfl⟩

end HorizonOs.Lib.Utf16
