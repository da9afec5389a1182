import HorizonOs.Lib.LossyText

/-!
# Lower case

`str::to_lowercase` by the tables of Unicode, which may change how many bytes a text takes,
and what it does to the ASCII characters of a text.
-/

namespace HorizonOs.Lib.Lowercase

open HorizonOs.Lib.LossyText

set_option autoImplicit false

/-! ## Tables -/

/-- Every `step`-th character from `first` to `last` has a lower case, in the same order from
`lower` on. -/
structure CaseRange where
  first : Nat
  last : Nat
  step : Nat
  lower : Nat

/-- The characters with a lower case of one character, other than themselves. -/
def caseRanges : List CaseRange :=
  [⟨0x41, 0x5A, 1, 0x61⟩, ⟨0xC0, 0xD6, 1, 0xE0⟩, ⟨0xD8, 0xDE, 1, 0xF8⟩, ⟨0x100, 0x12E, 2, 0x101⟩,
    ⟨0x132, 0x136, 2, 0x133⟩, ⟨0x139, 0x147, 2, 0x13A⟩, ⟨0x14A, 0x176, 2, 0x14B⟩,
    ⟨0x178, 0x178, 1, 0xFF⟩, ⟨0x179, 0x17D, 2, 0x17A⟩, ⟨0x181, 0x181, 1, 0x253⟩,
    ⟨0x182, 0x184, 2, 0x183⟩, ⟨0x186, 0x186, 1, 0x254⟩, ⟨0x187, 0x187, 1, 0x188⟩,
    ⟨0x189, 0x18A, 1, 0x256⟩, ⟨0x18B, 0x18B, 1, 0x18C⟩, ⟨0x18E, 0x18E, 1, 0x1DD⟩,
    ⟨0x18F, 0x18F, 1, 0x259⟩, ⟨0x190, 0x190, 1, 0x25B⟩, ⟨0x191, 0x191, 1, 0x192⟩,
    ⟨0x193, 0x193, 1, 0x260⟩, ⟨0x194, 0x194, 1, 0x263⟩, ⟨0x196, 0x196, 1, 0x269⟩,
    ⟨0x197, 0x197, 1, 0x268⟩, ⟨0x198, 0x198, 1, 0x199⟩, ⟨0x19C, 0x19C, 1, 0x26F⟩,
    ⟨0x19D, 0x19D, 1, 0x272⟩, ⟨0x19F, 0x19F, 1, 0x275⟩, ⟨0x1A0, 0x1A4, 2, 0x1A1⟩,
    ⟨0x1A6, 0x1A6, 1, 0x280⟩, ⟨0x1A7, 0x1A7, 1, 0x1A8⟩, ⟨0x1A9, 0x1A9, 1, 0x283⟩,
    ⟨0x1AC, 0x1AC, 1, 0x1AD⟩, ⟨0x1AE, 0x1AE, 1, 0x288⟩, ⟨0x1AF, 0x1AF, 1, 0x1B0⟩,
    ⟨0x1B1, 0x1B2, 1, 0x28A⟩, ⟨0x1B3, 0x1B5, 2, 0x1B4⟩, ⟨0x1B7, 0x1B7, 1, 0x292⟩,
    ⟨0x1B8, 0x1B8, 1, 0x1B9⟩, ⟨0x1BC, 0x1BC, 1, 0x1BD⟩, ⟨0x1C4, 0x1C4, 1, 0x1C6⟩,
    ⟨0x1C5, 0x1C5, 1, 0x1C6⟩, ⟨0x1C7, 0x1C7, 1, 0x1C9⟩, ⟨0x1C8, 0x1C8, 1, 0x1C9⟩,
    ⟨0x1CA, 0x1CA, 1, 0x1CC⟩, ⟨0x1CB, 0x1DB, 2, 0x1CC⟩, ⟨0x1DE, 0x1EE, 2, 0x1DF⟩,
    ⟨0x1F1, 0x1F1, 1, 0x1F3⟩, ⟨0x1F2, 0x1F4, 2, 0x1F3⟩, ⟨0x1F6, 0x1F6, 1, 0x195⟩,
    ⟨0x1F7, 0x1F7, 1, 0x1BF⟩, ⟨0x1F8, 0x21E, 2, 0x1F9⟩, ⟨0x220, 0x220, 1, 0x19E⟩,
    ⟨0x222, 0x232, 2, 0x223⟩, ⟨0x23A, 0x23A, 1, 0x2C65⟩, ⟨0x23B, 0x23B, 1, 0x23C⟩,
    ⟨0x23D, 0x23D, 1, 0x19A⟩, ⟨0x23E, 0x23E, 1, 0x2C66⟩, ⟨0x241, 0x241, 1, 0x242⟩,
    ⟨0x243, 0x243, 1, 0x180⟩, ⟨0x244, 0x244, 1, 0x289⟩, ⟨0x245, 0x245, 1, 0x28C⟩,
    ⟨0x246, 0x24E, 2, 0x247⟩, ⟨0x370, 0x372, 2, 0x371⟩, ⟨0x376, 0x376, 1, 0x377⟩,
    ⟨0x37F, 0x37F, 1, 0x3F3⟩, ⟨0x386, 0x386, 1, 0x3AC⟩, ⟨0x388, 0x38A, 1, 0x3AD⟩,
    ⟨0x38C, 0x38C, 1, 0x3CC⟩, ⟨0x38E, 0x38F, 1, 0x3CD⟩, ⟨0x391, 0x3A1, 1, 0x3B1⟩,
    ⟨0x3A3, 0x3AB, 1, 0x3C3⟩, ⟨0x3CF, 0x3CF, 1, 0x3D7⟩, ⟨0x3D8, 0x3EE, 2, 0x3D9⟩,
    ⟨0x3F4, 0x3F4, 1, 0x3B8⟩, ⟨0x3F7, 0x3F7, 1, 0x3F8⟩, ⟨0x3F9, 0x3F9, 1, 0x3F2⟩,
    ⟨0x3FA, 0x3FA, 1, 0x3FB⟩, ⟨0x3FD, 0x3FF, 1, 0x37B⟩, ⟨0x400, 0x40F, 1, 0x450⟩,
    ⟨0x410, 0x42F, 1, 0x430⟩, ⟨0x460, 0x480, 2, 0x461⟩, ⟨0x48A, 0x4BE, 2, 0x48B⟩,
    ⟨0x4C0, 0x4C0, 1, 0x4CF⟩, ⟨0x4C1, 0x4CD, 2, 0x4C2⟩, ⟨0x4D0, 0x52E, 2, 0x4D1⟩,
    ⟨0x531, 0x556, 1, 0x561⟩, ⟨0x10A0, 0x10C5, 1, 0x2D00⟩, ⟨0x10C7, 0x10C7, 1, 0x2D27⟩,
    ⟨0x10CD, 0x10CD, 1, 0x2D2D⟩, ⟨0x13A0, 0x13EF, 1, 0xAB70⟩, ⟨0x13F0, 0x13F5, 1, 0x13F8⟩,
    ⟨0x1C89, 0x1C89, 1, 0x1C8A⟩, ⟨0x1C90, 0x1CBA, 1, 0x10D0⟩, ⟨0x1CBD, 0x1CBF, 1, 0x10FD⟩,
    ⟨0x1E00, 0x1E94, 2, 0x1E01⟩, ⟨0x1E9E, 0x1E9E, 1, 0xDF⟩, ⟨0x1EA0, 0x1EFE, 2, 0x1EA1⟩,
    ⟨0x1F08, 0x1F0F, 1, 0x1F00⟩, ⟨0x1F18, 0x1F1D, 1, 0x1F10⟩, ⟨0x1F28, 0x1F2F, 1, 0x1F20⟩,
    ⟨0x1F38, 0x1F3F, 1, 0x1F30⟩, ⟨0x1F48, 0x1F4D, 1, 0x1F40⟩, ⟨0x1F59, 0x1F5F, 2, 0x1F51⟩,
    ⟨0x1F68, 0x1F6F, 1, 0x1F60⟩, ⟨0x1F88, 0x1F8F, 1, 0x1F80⟩, ⟨0x1F98, 0x1F9F, 1, 0x1F90⟩,
    ⟨0x1FA8, 0x1FAF, 1, 0x1FA0⟩, ⟨0x1FB8, 0x1FB9, 1, 0x1FB0⟩, ⟨0x1FBA, 0x1FBB, 1, 0x1F70⟩,
    ⟨0x1FBC, 0x1FBC, 1, 0x1FB3⟩, ⟨0x1FC8, 0x1FCB, 1, 0x1F72⟩, ⟨0x1FCC, 0x1FCC, 1, 0x1FC3⟩,
    ⟨0x1FD8, 0x1FD9, 1, 0x1FD0⟩, ⟨0x1FDA, 0x1FDB, 1, 0x1F76⟩, ⟨0x1FE8, 0x1FE9, 1, 0x1FE0⟩,
    ⟨0x1FEA, 0x1FEB, 1, 0x1F7A⟩, ⟨0x1FEC, 0x1FEC, 1, 0x1FE5⟩, ⟨0x1FF8, 0x1FF9, 1, 0x1F78⟩,
    ⟨0x1FFA, 0x1FFB, 1, 0x1F7C⟩, ⟨0x1FFC, 0x1FFC, 1, 0x1FF3⟩, ⟨0x2126, 0x2126, 1, 0x3C9⟩,
    ⟨0x212A, 0x212A, 1, 0x6B⟩, ⟨0x212B, 0x212B, 1, 0xE5⟩, ⟨0x2132, 0x2132, 1, 0x214E⟩,
    ⟨0x2160, 0x216F, 1, 0x2170⟩, ⟨0x2183, 0x2183, 1, 0x2184⟩, ⟨0x24B6, 0x24CF, 1, 0x24D0⟩,
    ⟨0x2C00, 0x2C2F, 1, 0x2C30⟩, ⟨0x2C60, 0x2C60, 1, 0x2C61⟩, ⟨0x2C62, 0x2C62, 1, 0x26B⟩,
    ⟨0x2C63, 0x2C63, 1, 0x1D7D⟩, ⟨0x2C64, 0x2C64, 1, 0x27D⟩, ⟨0x2C67, 0x2C6B, 2, 0x2C68⟩,
    ⟨0x2C6D, 0x2C6D, 1, 0x251⟩, ⟨0x2C6E, 0x2C6E, 1, 0x271⟩, ⟨0x2C6F, 0x2C6F, 1, 0x250⟩,
    ⟨0x2C70, 0x2C70, 1, 0x252⟩, ⟨0x2C72, 0x2C72, 1, 0x2C73⟩, ⟨0x2C75, 0x2C75, 1, 0x2C76⟩,
    ⟨0x2C7E, 0x2C7F, 1, 0x23F⟩, ⟨0x2C80, 0x2CE2, 2, 0x2C81⟩, ⟨0x2CEB, 0x2CED, 2, 0x2CEC⟩,
    ⟨0x2CF2, 0x2CF2, 1, 0x2CF3⟩, ⟨0xA640, 0xA66C, 2, 0xA641⟩, ⟨0xA680, 0xA69A, 2, 0xA681⟩,
    ⟨0xA722, 0xA72E, 2, 0xA723⟩, ⟨0xA732, 0xA76E, 2, 0xA733⟩, ⟨0xA779, 0xA77B, 2, 0xA77A⟩,
    ⟨0xA77D, 0xA77D, 1, 0x1D79⟩, ⟨0xA77E, 0xA786, 2, 0xA77F⟩, ⟨0xA78B, 0xA78B, 1, 0xA78C⟩,
    ⟨0xA78D, 0xA78D, 1, 0x265⟩, ⟨0xA790, 0xA792, 2, 0xA791⟩, ⟨0xA796, 0xA7A8, 2, 0xA797⟩,
    ⟨0xA7AA, 0xA7AA, 1, 0x266⟩, ⟨0xA7AB, 0xA7AB, 1, 0x25C⟩, ⟨0xA7AC, 0xA7AC, 1, 0x261⟩,
    ⟨0xA7AD, 0xA7AD, 1, 0x26C⟩, ⟨0xA7AE, 0xA7AE, 1, 0x26A⟩, ⟨0xA7B0, 0xA7B0, 1, 0x29E⟩,
    ⟨0xA7B1, 0xA7B1, 1, 0x287⟩, ⟨0xA7B2, 0xA7B2, 1, 0x29D⟩, ⟨0xA7B3, 0xA7B3, 1, 0xAB53⟩,
    ⟨0xA7B4, 0xA7C2, 2, 0xA7B5⟩, ⟨0xA7C4, 0xA7C4, 1, 0xA794⟩, ⟨0xA7C5, 0xA7C5, 1, 0x282⟩,
    ⟨0xA7C6, 0xA7C6, 1, 0x1D8E⟩, ⟨0xA7C7, 0xA7C9, 2, 0xA7C8⟩, ⟨0xA7CB, 0xA7CB, 1, 0x264⟩,
    ⟨0xA7CC, 0xA7DA, 2, 0xA7CD⟩, ⟨0xA7DC, 0xA7DC, 1, 0x19B⟩, ⟨0xA7F5, 0xA7F5, 1, 0xA7F6⟩,
    ⟨0xFF21, 0xFF3A, 1, 0xFF41⟩, ⟨0x10400, 0x10427, 1, 0x10428⟩, ⟨0x104B0, 0x104D3, 1, 0x104D8⟩,
    ⟨0x10570, 0x1057A, 1, 0x10597⟩, ⟨0x1057C, 0x1058A, 1, 0x105A3⟩, ⟨0x1058C, 0x10592, 1, 0x105B3⟩,
    ⟨0x10594, 0x10595, 1, 0x105BB⟩, ⟨0x10C80, 0x10CB2, 1, 0x10CC0⟩, ⟨0x10D50, 0x10D65, 1, 0x10D70⟩,
    ⟨0x118A0, 0x118BF, 1, 0x118C0⟩, ⟨0x16E40, 0x16E5F, 1, 0x16E60⟩, ⟨0x16EA0, 0x16EB8, 1, 0x16EBB⟩,
    ⟨0x1E900, 0x1E921, 1, 0x1E922⟩]

def CaseRange.holds (range : CaseRange) (n : Nat) : Bool :=
  range.first ≤ n && n ≤ range.last && (n - range.first) % range.step = 0

def lowerNumber (n : Nat) : Nat :=
  match caseRanges.find? fun range => range.holds n with
  | some range => range.lower + (n - range.first)
  | none => n

/-- `char::to_lowercase`: the dotted capital I becomes an i and a dot above. -/
def lowerChar (c : Char) : List Char :=
  if c = '\u0130' then ['i', '\u0307'] else [Char.ofNat (lowerNumber c.toNat)]

/-! ## Texts

A capital sigma that ends a word becomes a final sigma, of the same size. What ends a word is
told by tables that matter for nothing else here. -/

variable (finalSigma : List Char → List Char → Bool)

/-- The lower case of a character with what stands before and behind it. -/
def lowerAt (before : List Char) (c : Char) (behind : List Char) : List Char :=
  if c = '\u03A3' ∧ finalSigma before behind = true then ['\u03C2'] else lowerChar c

def lowerIn (before : List Char) : List Char → List Char → List Char
  | [], _ => []
  | c :: rest, behind =>
      lowerAt finalSigma before c (rest ++ behind) ++ lowerIn (before ++ [c]) rest behind

/-- `str::to_lowercase`. -/
def toLowercase (chars : List Char) : List Char := lowerIn finalSigma [] chars []

/-! ## What the tables say -/

/-- Beyond ASCII the lower case stays beyond it, but for the Kelvin sign, and is a character. -/
theorem case_ranges_apart : ∀ range ∈ caseRanges,
    (range.first < 128 → range.last < 128) ∧
      (128 ≤ range.first → 128 ≤ range.lower ∨ range.first = 0x212A ∧ range.last = 0x212A) ∧
      (range.lower + (range.last - range.first) < 0xD800 ∨
        0xDFFF < range.lower ∧ range.lower + (range.last - range.first) < 0x110000) := by
  decide +kernel

/-- Past the first range there is no ASCII character. -/
theorem later_ranges_beyond : ∀ range ∈ caseRanges.tail, 128 ≤ range.first := by
  decide +kernel

theorem lower_number_ascii {n : Nat} (ascii : n < 128) :
    lowerNumber n = if 0x41 ≤ n ∧ n ≤ 0x5A then 0x61 + (n - 0x41) else n := by
  have ranges : caseRanges = ⟨0x41, 0x5A, 1, 0x61⟩ :: caseRanges.tail := rfl
  have later : (caseRanges.tail.find? fun range => range.holds n) = none := by
    rw [List.find?_eq_none]
    intro range member
    have beyond := later_ranges_beyond range member
    simp only [CaseRange.holds, Bool.and_eq_true, decide_eq_true_eq]
    omega
  rw [lowerNumber, ranges, List.find?_cons, later]
  by_cases upper : 0x41 ≤ n ∧ n ≤ 0x5A
  · have held : CaseRange.holds ⟨0x41, 0x5A, 1, 0x61⟩ n = true := by
      simp [CaseRange.holds, upper, Nat.mod_one]
    rw [held, if_pos upper]
  · have none : CaseRange.holds ⟨0x41, 0x5A, 1, 0x61⟩ n = false := by
      simp only [CaseRange.holds, Bool.and_eq_false_iff, decide_eq_false_iff_not]
      omega
    rw [none, if_neg upper]

theorem char_to_nat {n : Nat} (scalar : n < 0xD800 ∨ 0xDFFF < n ∧ n < 0x110000) :
    (Char.ofNat n).toNat = n := by
  have valid : n.isValidChar := scalar
  rw [Char.ofNat, dif_pos valid]
  rfl

theorem upper_to_lower : ∀ n < 128,
    Char.ofNat (if 0x41 ≤ n ∧ n ≤ 0x5A then 0x61 + (n - 0x41) else n) = (Char.ofNat n).toLower ∧
      Char.ofNat n ≠ '\u0130' := by
  decide

theorem lower_ascii {c : Char} (ascii : c.toNat < 128) : lowerChar c = [c.toLower] := by
  have found := upper_to_lower c.toNat ascii
  rw [Char.ofNat_toNat] at found
  rw [lowerChar, if_neg found.2, lower_number_ascii ascii, found.1]

/-- A character beyond ASCII has no ASCII character in its lower case, but for two. -/
theorem lower_beyond {c : Char} (beyond : 128 ≤ c.toNat) :
    c = '\u0130' ∨ c = '\u212A' ∨ ∃ d, lowerChar c = [d] ∧ 128 ≤ d.toNat := by
  by_cases dotted : c = '\u0130'
  · exact .inl dotted
  by_cases kelvin : c = '\u212A'
  · exact .inr (.inl kelvin)
  refine .inr (.inr ⟨_, if_neg dotted, ?_⟩)
  rw [lowerNumber]
  cases found : caseRanges.find? fun range => range.holds c.toNat with
  | none =>
      simp only [Char.ofNat_toNat]
      exact beyond
  | some range =>
      obtain ⟨low, high, valid⟩ := case_ranges_apart range (List.mem_of_find?_eq_some found)
      have held := List.find?_some found
      simp only [CaseRange.holds, Bool.and_eq_true, decide_eq_true_eq] at held
      have inside : range.lower + (c.toNat - range.first) ≤
          range.lower + (range.last - range.first) := by omega
      simp only
      rw [char_to_nat (by omega)]
      rcases high (by omega) with above | ⟨first, last⟩
      · omega
      · have number : c.toNat = 0x212A := by omega
        have same : c = '\u212A' := by rw [← Char.ofNat_toNat c, number]
        exact absurd same kelvin

/-! ## The lower case of a text, piece by piece -/

theorem lower_in_append (before left right behind : List Char) :
    lowerIn finalSigma before (left ++ right) behind =
      lowerIn finalSigma before left (right ++ behind) ++
        lowerIn finalSigma (before ++ left) right behind := by
  induction left generalizing before with
  | nil => rw [List.nil_append, lowerIn, List.nil_append, List.append_nil]
  | cons c left ih =>
      rw [List.cons_append, lowerIn, lowerIn, ih, List.append_assoc, List.append_assoc,
        List.append_assoc, List.singleton_append]

theorem size_lower_at (before : List Char) (c : Char) (behind : List Char) :
    size (lowerAt finalSigma before c behind) = size (lowerChar c) := by
  rw [lowerAt]
  split_ifs with final
  · rw [final.1]
    decide
  · rfl

/-- The size of a lower case does not depend on where the text stands. -/
theorem size_lower_in (before behind other more chars : List Char) :
    size (lowerIn finalSigma before chars behind) = size (lowerIn finalSigma other chars more) := by
  induction chars generalizing before other with
  | nil => rfl
  | cons c rest ih =>
      rw [lowerIn, lowerIn, size_append, size_append, size_lower_at, size_lower_at, ih]

theorem lower_at_ascii (before behind : List Char) {c : Char} (ascii : c.toNat < 128) :
    lowerAt finalSigma before c behind = [c.toLower] := by
  rw [lowerAt, if_neg, lower_ascii ascii]
  rintro ⟨rfl, _⟩
  exact absurd ascii (by decide)

theorem lower_in_ascii (before behind chars : List Char) (ascii : ∀ c ∈ chars, c.toNat < 128) :
    lowerIn finalSigma before chars behind = chars.map Char.toLower := by
  induction chars generalizing before with
  | nil => rfl
  | cons c rest ih =>
      obtain ⟨here, others⟩ := List.forall_mem_cons.mp ascii
      rw [lowerIn, lower_at_ascii finalSigma before _ here, ih _ others, List.map_cons,
        List.singleton_append]

/-- What the lower case of a character can be. -/
theorem lower_at_cases (before behind : List Char) (c : Char) :
    lowerAt finalSigma before c behind = [c.toLower] ∨
      lowerAt finalSigma before c behind = ['i', '\u0307'] ∨
      lowerAt finalSigma before c behind = ['k'] ∨
      ∃ d, lowerAt finalSigma before c behind = [d] ∧ 128 ≤ d.toNat := by
  by_cases ascii : c.toNat < 128
  · exact .inl (lower_at_ascii finalSigma before behind ascii)
  · rw [lowerAt]
    split_ifs with final
    · exact .inr (.inr (.inr ⟨'\u03C2', rfl, by decide⟩))
    · rcases lower_beyond (Nat.le_of_not_lt ascii) with rfl | rfl | other
      · exact .inr (.inl rfl)
      · exact .inr (.inr (.inl (by decide)))
      · exact .inr (.inr (.inr other))

/-! ## Words found in a lower case -/

/-- A word whose ASCII letters no other characters are lowered to: no k, and no i at its end. -/
structure Plain (word : List Char) : Prop where
  letters : ∀ d ∈ word, d.toNat < 128 ∧ d ≠ 'k'
  ended : word.getLast? ≠ some 'i'

theorem Plain.tail {d : Char} {word : List Char} (plain : Plain (d :: word)) : Plain word where
  letters := fun c member => plain.letters c (List.mem_cons_of_mem d member)
  ended := by
    cases word with
    | nil => simp
    | cons c rest =>
        have ended := plain.ended
        rwa [List.getLast?_cons_cons] at ended

/-- A lower case that starts with a plain word is that of a text that does, in some case. -/
theorem word_of_lower {word : List Char} (plain : Plain word) {before chars behind more : List Char}
    (starts : lowerIn finalSigma before chars behind = word ++ more) :
    ∃ occurrence rest, chars = occurrence ++ rest ∧ occurrence.map Char.toLower = word := by
  induction word generalizing before chars with
  | nil => exact ⟨[], chars, rfl, rfl⟩
  | cons d word ih =>
      have letter := plain.letters d List.mem_cons_self
      cases chars with
      | nil => cases starts
      | cons c rest =>
          rw [lowerIn] at starts
          rcases lower_at_cases finalSigma before (rest ++ behind) c with
            single | dotted | kelvin | ⟨e, other, beyond⟩
          · rw [single, List.singleton_append, List.cons_append, List.cons.injEq] at starts
            obtain ⟨occurrence, left, parts, lowered⟩ := ih plain.tail starts.2
            refine ⟨c :: occurrence, left, by rw [parts, List.cons_append], ?_⟩
            rw [List.map_cons, lowered, starts.1]
          · -- the second character of a dotted capital is in no plain word
            rw [dotted] at starts
            obtain ⟨rfl, same⟩ := List.cons.inj starts
            cases word with
            | nil => exact absurd rfl plain.ended
            | cons e word =>
                have mark := (plain.letters e (List.mem_cons_of_mem _ List.mem_cons_self)).1
                rw [← (List.cons.inj same).1] at mark
                exact absurd mark (by decide)
          · rw [kelvin, List.singleton_append, List.cons_append, List.cons.injEq] at starts
            exact absurd starts.1.symm letter.2
          · rw [other, List.singleton_append, List.cons_append, List.cons.injEq] at starts
            rw [← starts.1] at letter
            omega

/-- The lower case of a character lies before an ASCII character or ends behind it. -/
theorem lower_at_before {before behind rest front more : List Char} {c d e : Char}
    (ascii : d.toNat < 128)
    (found : lowerAt finalSigma before c behind ++ rest = e :: front ++ d :: more) :
    ∃ tail, e :: front = lowerAt finalSigma before c behind ++ tail ∧ rest = tail ++ d :: more := by
  have single : ∀ a, lowerAt finalSigma before c behind = [a] →
      ∃ tail, e :: front = lowerAt finalSigma before c behind ++ tail ∧
        rest = tail ++ d :: more := by
    intro a image
    rw [image] at found ⊢
    obtain ⟨rfl, same⟩ := List.cons.inj found
    exact ⟨front, rfl, same⟩
  rcases lower_at_cases finalSigma before behind c with one | dotted | kelvin | ⟨o, other, _⟩
  · exact single _ one
  · rw [dotted] at found ⊢
    obtain ⟨rfl, same⟩ := List.cons.inj found
    cases front with
    | nil =>
        rw [← (List.cons.inj same).1] at ascii
        exact absurd ascii (by decide)
    | cons f front =>
        obtain ⟨rfl, tail⟩ := List.cons.inj same
        exact ⟨front, rfl, tail⟩
  · exact single _ kelvin
  · exact single _ other

/-- What is before an ASCII character in a lower case is the lower case of what is before some
character. -/
theorem boundary_of_lower {d : Char} (ascii : d.toNat < 128) {before chars behind front more : List Char}
    (found : lowerIn finalSigma before chars behind = front ++ d :: more) :
    ∃ left right, chars = left ++ right ∧
      lowerIn finalSigma before left (right ++ behind) = front ∧
      lowerIn finalSigma (before ++ left) right behind = d :: more := by
  induction chars generalizing before front with
  | nil => cases front <;> cases found
  | cons c rest ih =>
      cases front with
      | nil => exact ⟨[], c :: rest, rfl, rfl, by rw [List.append_nil]; exact found⟩
      | cons e front =>
          rw [lowerIn] at found
          obtain ⟨tail, parts, same⟩ := lower_at_before finalSigma ascii found
          obtain ⟨left, right, whole, lowered, starts⟩ := ih same
          refine ⟨c :: left, right, by rw [whole, List.cons_append], ?_, ?_⟩
          · rw [lowerIn, lowered, ← List.append_assoc, ← whole, ← parts]
          · rw [List.append_assoc, List.singleton_append] at starts
            exact starts

end HorizonOs.Lib.Lowercase
