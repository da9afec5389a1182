import HorizonOs.Lib.Text
import Mathlib.Data.List.TakeWhile

/-!
# Text cut at a byte

A text whose bytes are cut off anywhere and then decoded lossily: the characters that came
whole, and one U+FFFD for a character that came in part.
-/

namespace HorizonOs.Lib.LossyText

open HorizonOs.Lib.ByteCodec HorizonOs.Lib.Text

set_option autoImplicit false

/-- What a lossy decoder makes of the first `count` bytes of a text. -/
def cutChars : Nat → List Char → List Char
  | _, [] => []
  | count, c :: rest =>
      if c.utf8Size ≤ count then c :: cutChars (count - c.utf8Size) rest
      else if count = 0 then []
      else ['\uFFFD']

/-! ## The bytes of one character -/

/-- A character's first byte announces the others, and they lie in the ranges it gives. -/
structure Announced (first : UInt8) (others : Bytes) (low high : UInt8) : Prop where
  leading : leadingByte first = some (others.length, low, high)
  second : ∀ byte ∈ others.head?, low ≤ byte ∧ byte ≤ high
  later : ∀ byte ∈ others.tail, isContinuation byte = true

theorem to_nat_of_nat {n : Nat} (small : n < 256) : (UInt8.ofNat n).toNat = n := by
  rw [UInt8.toNat_ofNat', Nat.mod_eq_of_lt small]

theorem byte_range {low high n : Nat} (small : n < 256) (lowSmall : low < 256)
    (highSmall : high < 256) (above : low ≤ n) (below : n ≤ high) :
    UInt8.ofNat low ≤ UInt8.ofNat n ∧ UInt8.ofNat n ≤ UInt8.ofNat high := by
  rw [UInt8.le_iff_toNat_le, UInt8.le_iff_toNat_le, to_nat_of_nat small, to_nat_of_nat lowSmall,
    to_nat_of_nat highSmall]
  exact ⟨above, below⟩

theorem continuation_byte (n : Nat) : isContinuation (UInt8.ofNat (n % 64 + 0x80)) = true := by
  have range : UInt8.ofNat 0x80 ≤ UInt8.ofNat (n % 64 + 0x80) ∧
      UInt8.ofNat (n % 64 + 0x80) ≤ UInt8.ofNat 0xBF :=
    byte_range (by omega) (by decide) (by decide) (by omega) (by omega)
  rw [isContinuation, Bool.and_eq_true, decide_eq_true_eq, decide_eq_true_eq]
  exact range

/-- `leadingByte` on numbers. -/
def leadingNumber (n : Nat) : Option (Nat × UInt8 × UInt8) :=
  if n < 0x80 then some (0, 0x80, 0xBF)
  else if 0xC2 ≤ n ∧ n ≤ 0xDF then some (1, 0x80, 0xBF)
  else if n = 0xE0 then some (2, 0xA0, 0xBF)
  else if n = 0xED then some (2, 0x80, 0x9F)
  else if 0xE1 ≤ n ∧ n ≤ 0xEF then some (2, 0x80, 0xBF)
  else if n = 0xF0 then some (3, 0x90, 0xBF)
  else if 0xF1 ≤ n ∧ n ≤ 0xF3 then some (3, 0x80, 0xBF)
  else if n = 0xF4 then some (3, 0x80, 0x8F)
  else none

theorem leading_number : ∀ n < 256, leadingByte (UInt8.ofNat n) = leadingNumber n := by
  decide +kernel

/-- Two or more bytes: the second in the range of the first, the others continuations. -/
theorem announced_many {n second : Nat} {low high : Nat} {others : Bytes} (small : n < 256)
    (secondSmall : second < 256) (lowSmall : low < 256) (highSmall : high < 256)
    (leading : leadingNumber n = some (others.length + 1, UInt8.ofNat low, UInt8.ofNat high))
    (above : low ≤ second) (below : second ≤ high)
    (later : ∀ byte ∈ others, isContinuation byte = true) :
    Announced (UInt8.ofNat n) (UInt8.ofNat second :: others) (UInt8.ofNat low)
      (UInt8.ofNat high) where
  leading := (leading_number n small).trans leading
  second byte member := by
    cases member
    exact byte_range secondSmall lowSmall highSmall above below
  later := later

theorem encoded_char (c : Char) : ∃ first others low high,
    String.utf8EncodeChar c = first :: others ∧ Announced first others low high := by
  have scalar : c.val.toNat < 0xD800 ∨ 0xDFFF < c.val.toNat ∧ c.val.toNat < 0x110000 := c.valid
  rw [String.utf8EncodeChar]
  generalize c.val.toNat = v at scalar
  split_ifs with one two three
  · refine ⟨_, [], 0x80, 0xBF, rfl, ?_, fun _ none => ?_, fun _ none => ?_⟩
    · rw [leading_number v (by omega), leadingNumber, if_pos (by omega)]
      rfl
    · cases none
    · cases none
  · refine ⟨_, _, UInt8.ofNat 0x80, UInt8.ofNat 0xBF, rfl, announced_many (by omega) (by omega)
      (by decide) (by decide) ?_ (by omega) (by omega) fun _ none => ?_⟩
    · rw [leadingNumber, if_neg (by omega), if_pos (by omega)]
      rfl
    · cases none
  · have later : ∀ byte ∈ [UInt8.ofNat (v % 64 + 0x80)], isContinuation byte = true :=
      List.forall_mem_singleton.mpr (continuation_byte v)
    by_cases low : v < 0x1000
    · refine ⟨_, _, UInt8.ofNat 0xA0, UInt8.ofNat 0xBF, rfl, announced_many (by omega) (by omega)
        (by decide) (by decide) ?_ (by omega) (by omega) later⟩
      rw [leadingNumber, if_neg (by omega), if_neg (by omega), if_pos (by omega)]
      rfl
    by_cases surrogates : v / 4096 = 0xD
    · refine ⟨_, _, UInt8.ofNat 0x80, UInt8.ofNat 0x9F, rfl, announced_many (by omega) (by omega)
        (by decide) (by decide) ?_ (by omega) (by omega) later⟩
      rw [leadingNumber, if_neg (by omega), if_neg (by omega), if_neg (by omega), if_pos (by omega)]
      rfl
    · refine ⟨_, _, UInt8.ofNat 0x80, UInt8.ofNat 0xBF, rfl, announced_many (by omega) (by omega)
        (by decide) (by decide) ?_ (by omega) (by omega) later⟩
      rw [leadingNumber, if_neg (by omega), if_neg (by omega), if_neg (by omega), if_neg (by omega),
        if_pos (by omega)]
      rfl
  · have later : ∀ byte ∈ [UInt8.ofNat (v / 64 % 64 + 0x80), UInt8.ofNat (v % 64 + 0x80)],
        isContinuation byte = true :=
      List.forall_mem_cons.mpr ⟨continuation_byte (v / 64),
        List.forall_mem_singleton.mpr (continuation_byte v)⟩
    by_cases low : v < 0x40000
    · refine ⟨_, _, UInt8.ofNat 0x90, UInt8.ofNat 0xBF, rfl, announced_many (by omega) (by omega)
        (by decide) (by decide) ?_ (by omega) (by omega) later⟩
      rw [leadingNumber, if_neg (by omega), if_neg (by omega), if_neg (by omega), if_neg (by omega),
        if_neg (by omega), if_pos (by omega)]
      rfl
    by_cases high : 0x100000 ≤ v
    · refine ⟨_, _, UInt8.ofNat 0x80, UInt8.ofNat 0x8F, rfl, announced_many (by omega) (by omega)
        (by decide) (by decide) ?_ (by omega) (by omega) later⟩
      rw [leadingNumber, if_neg (by omega), if_neg (by omega), if_neg (by omega), if_neg (by omega),
        if_neg (by omega), if_neg (by omega), if_neg (by omega), if_pos (by omega)]
      rfl
    · refine ⟨_, _, UInt8.ofNat 0x80, UInt8.ofNat 0xBF, rfl, announced_many (by omega) (by omega)
        (by decide) (by decide) ?_ (by omega) (by omega) later⟩
      rw [leadingNumber, if_neg (by omega), if_neg (by omega), if_neg (by omega), if_neg (by omega),
        if_neg (by omega), if_neg (by omega), if_pos (by omega)]
      rfl

/-! ## What is read of it -/

section Reading

variable {first : UInt8} {others : Bytes} {low high : UInt8}

/-- Of the bytes a character announces, those that are there are read. -/
theorem tail_read (announced : Announced first others low high) (present : Nat)
    (inside : present ≤ others.length) (rest : Bytes)
    (ended : present < others.length → rest = []) :
    wellFormedTail others.length low high (others.take present ++ rest) = present := by
  cases others with
  | nil =>
      rw [Nat.le_zero.mp inside, List.take_zero, List.nil_append]
      cases rest with
      | nil => rfl
      | cons byte rest => rfl
  | cons second later =>
      cases present with
      | zero =>
          rw [ended (Nat.succ_pos _)]
          rfl
      | succ present =>
          have range := announced.second second rfl
          have inner : present ≤ later.length := Nat.le_of_succ_le_succ inside
          have whole : (later.take present ++ rest).take later.length = later.take present := by
            by_cases all : present = later.length
            · rw [all, List.take_length, List.take_left]
            · have none : rest = [] := ended (by rw [List.length_cons]; omega)
              rw [none, List.append_nil, List.take_take, Nat.min_eq_right inner]
          have continued : (later.take present).takeWhile isContinuation = later.take present := by
            apply List.takeWhile_eq_self_iff.mpr
            exact fun byte member => announced.later byte (List.mem_of_mem_take member)
          rw [List.take_succ_cons, List.cons_append, wellFormedTail, if_neg, List.length_cons,
            Nat.add_sub_cancel, whole, continued, List.length_take, Nat.min_eq_left inner,
            Nat.add_comm]
          simp [range]

end Reading

theorem announced_length {first : UInt8} {others more : Bytes} {low high low' high' : UInt8}
    (announced : Announced first others low high) (same : Announced first more low' high') :
    others.length = more.length := by
  have both := announced.leading.symm.trans same.leading
  exact (Prod.mk.inj (Option.some.inj both)).1

/-- A character that is not there to its end is no text. -/
theorem partial_not_text {c : Char} {first : UInt8} {others : Bytes} {low high : UInt8}
    (encoded : String.utf8EncodeChar c = first :: others)
    (announced : Announced first others low high) (present : Nat) (short : present < others.length) :
    fromUtf8 (first :: others.take present) = none := by
  cases decoded : fromUtf8 (first :: others.take present) with
  | none => rfl
  | some text =>
      have bytes := utf8_of_from_utf8 decoded
      rw [← String.ofList_toList (s := text), utf8_of_list] at bytes
      cases chars : text.toList with
      | nil =>
          rw [chars] at bytes
          cases bytes
      | cons d rest =>
          obtain ⟨other, more, low', high', encoded', announced'⟩ := encoded_char d
          rw [chars, List.flatMap_cons, encoded', List.cons_append, List.cons.injEq] at bytes
          obtain ⟨rfl, tail⟩ := bytes
          have sizes := congrArg List.length tail
          rw [List.length_append, List.length_take, announced_length announced' announced] at sizes
          omega

theorem lossy_chars_cut (chars : List Char) (count fuel : Nat)
    (enough : ((utf8 (String.ofList chars)).take count).length ≤ fuel) :
    lossyChars fuel ((utf8 (String.ofList chars)).take count) = cutChars count chars := by
  rw [utf8_of_list] at enough ⊢
  induction chars generalizing count fuel with
  | nil =>
      rw [List.flatMap_nil, List.take_nil, cutChars]
      cases fuel <;> rfl
  | cons c rest ih =>
      obtain ⟨first, others, low, high, encoded, announced⟩ := encoded_char c
      have size : others.length + 1 = c.utf8Size := by
        rw [← String.length_utf8EncodeChar c, encoded, List.length_cons]
      rw [List.flatMap_cons, encoded] at enough ⊢
      rw [cutChars]
      by_cases whole : c.utf8Size ≤ count
      · rw [if_pos whole]
        have cut : (first :: others ++ rest.flatMap String.utf8EncodeChar).take count =
            first :: (others ++ (rest.flatMap String.utf8EncodeChar).take (count - c.utf8Size)) := by
          rw [List.take_append, List.take_of_length_le (by rw [List.length_cons]; omega),
            List.length_cons, size, List.cons_append]
        rw [cut] at enough ⊢
        cases fuel with
        | zero => cases enough
        | succ fuel =>
            have read := tail_read announced others.length (Nat.le_refl _)
              ((rest.flatMap String.utf8EncodeChar).take (count - c.utf8Size))
              (fun less => absurd less (Nat.lt_irrefl _))
            rw [List.take_length] at read
            have text : fromUtf8 (first :: others) = some (String.ofList [c]) := by
              rw [← encoded, ← List.append_nil (String.utf8EncodeChar c), ← List.flatMap_nil,
                ← List.flatMap_cons, ← utf8_of_list, from_utf8_utf8]
            rw [lossyChars, announced.leading]
            simp only [read, List.take_left, List.drop_left, text, Option.getD_some,
              String.toList_ofList]
            rw [ih _ fuel]
            · rfl
            · simp only [List.length_cons, List.length_append] at enough
              omega
      · rw [if_neg whole]
        by_cases none : count = 0
        · rw [if_pos none, none, List.take_zero]
          cases fuel <;> rfl
        · rw [if_neg none]
          obtain ⟨present, rfl⟩ := Nat.exists_eq_succ_of_ne_zero none
          have short : present < others.length := by omega
          have cut : (first :: others ++ rest.flatMap String.utf8EncodeChar).take (present + 1) =
              first :: others.take present := by
            rw [List.cons_append, List.take_succ_cons, List.take_append_of_le_length short.le]
          rw [cut] at enough ⊢
          cases fuel with
          | zero => cases enough
          | succ fuel =>
              have read := tail_read announced present short.le [] (fun _ => rfl)
              rw [List.append_nil] at read
              rw [lossyChars, announced.leading]
              simp only [read, List.take_take, Nat.min_self,
                partial_not_text encoded announced present short, Option.getD_none]
              rw [List.drop_of_length_le (List.length_take_le _ _)]
              cases fuel <;> rfl

/-! ## What is left of a cut text -/

/-- The bytes of a text. -/
def size (chars : List Char) : Nat := (chars.map Char.utf8Size).sum

theorem size_append (front rest : List Char) : size (front ++ rest) = size front + size rest := by
  rw [size, List.map_append, List.sum_append, size, size]

theorem cut_append (front rest : List Char) (count : Nat) (inside : size front ≤ count) :
    cutChars count (front ++ rest) = front ++ cutChars (count - size front) rest := by
  induction front generalizing count with
  | nil => rfl
  | cons c front ih =>
      rw [size, List.map_cons, List.sum_cons] at inside
      rw [List.cons_append, cutChars, if_pos (by omega), ih _ (by rw [size]; omega), size, size,
        List.map_cons, List.sum_cons, Nat.sub_sub, List.cons_append]

theorem cut_all (chars : List Char) (count : Nat) (inside : size chars ≤ count) :
    cutChars count chars = chars := by
  have parts := cut_append chars [] count inside
  rw [List.append_nil, cutChars, List.append_nil] at parts
  exact parts

theorem cut_zero (chars : List Char) : cutChars 0 chars = [] := by
  cases chars with
  | nil => rfl
  | cons c rest =>
      have positive := c.utf8Size_pos
      rw [cutChars, if_neg (by omega), if_pos rfl]

/-- Of one-byte characters, as many are left as bytes. -/
theorem cut_take (chars : List Char) (sizes : ∀ c ∈ chars, c.utf8Size = 1) (count : Nat) :
    cutChars count chars = chars.take count := by
  induction chars generalizing count with
  | nil => rw [cutChars, List.take_nil]
  | cons c rest ih =>
      have one := sizes c List.mem_cons_self
      cases count with
      | zero => rw [cut_zero, List.take_zero]
      | succ count =>
          rw [cutChars, one, if_pos (by omega), Nat.add_sub_cancel, List.take_succ_cons,
            ih fun d member => sizes d (List.mem_cons_of_mem _ member)]

/-- Behind a cut nothing counts. -/
theorem cut_beyond (chars rest : List Char) (count : Nat) (beyond : count < size chars) :
    cutChars count (chars ++ rest) = cutChars count chars := by
  induction chars generalizing count with
  | nil => cases beyond
  | cons c chars ih =>
      rw [size, List.map_cons, List.sum_cons] at beyond
      rw [List.cons_append, cutChars, cutChars]
      by_cases whole : c.utf8Size ≤ count
      · rw [if_pos whole, if_pos whole, ih _ (by rw [size]; omega)]
      · rw [if_neg whole, if_neg whole]

/-- A text that does not fit is cut before one of its characters, which may leave a U+FFFD. -/
theorem cut_before (chars : List Char) (count : Nat) (beyond : count < size chars) :
    ∃ front c behind, chars = front ++ c :: behind ∧
      (cutChars count chars = front ∨ cutChars count chars = front ++ ['\uFFFD']) := by
  induction chars generalizing count with
  | nil => cases beyond
  | cons c chars ih =>
      rw [size, List.map_cons, List.sum_cons] at beyond
      rw [cutChars]
      by_cases whole : c.utf8Size ≤ count
      · obtain ⟨front, d, behind, parts, left⟩ := ih (count - c.utf8Size) (by rw [size]; omega)
        rw [if_pos whole]
        refine ⟨c :: front, d, behind, by rw [parts, List.cons_append], ?_⟩
        rcases left with left | left
        · exact .inl (by rw [left])
        · exact .inr (by rw [left, List.cons_append])
      · rw [if_neg whole]
        refine ⟨[], c, chars, rfl, ?_⟩
        by_cases none : count = 0
        · exact .inl (if_pos none)
        · exact .inr (if_neg none)

/-- A cut leaves a text as it is where it fits, and where all that is cut off is a part of
a U+FFFD at the end. -/
theorem cut_whole_iff (chars : List Char) (count : Nat) :
    cutChars count chars = chars ↔
      size chars ≤ count ∨ chars.getLast? = some '\uFFFD' ∧ size chars < count + 3 := by
  induction chars generalizing count with
  | nil => exact ⟨fun _ => .inl (Nat.zero_le _), fun _ => rfl⟩
  | cons c rest ih =>
      have total : size (c :: rest) = c.utf8Size + size rest := by
        rw [size, List.map_cons, List.sum_cons, size]
      have positive := c.utf8Size_pos
      rw [cutChars, total]
      by_cases whole : c.utf8Size ≤ count
      · rw [if_pos whole, List.cons.injEq, ih]
        cases rest with
        | nil => simp [size, whole]
        | cons d rest =>
            rw [List.getLast?_cons_cons]
            constructor
            · rintro ⟨_, fits | ⟨last, fits⟩⟩
              · exact .inl (by omega)
              · exact .inr ⟨last, by omega⟩
            · rintro (fits | ⟨last, fits⟩)
              · exact ⟨rfl, .inl (by omega)⟩
              · exact ⟨rfl, .inr ⟨last, by omega⟩⟩
      · rw [if_neg whole]
        have mark : Char.utf8Size '\uFFFD' = 3 := rfl
        constructor
        · intro left
          split_ifs at left with none
          cases left
          exact .inr ⟨rfl, by rw [mark, size]; simp; omega⟩
        · rintro (fits | ⟨last, fits⟩)
          · omega
          · -- the character that is cut is the last one
            cases rest with
            | nil =>
                obtain rfl : c = '\uFFFD' := Option.some.inj last
                rw [size, mark] at fits
                exact if_neg (by simp at fits; omega)
            | cons d rest =>
                have behind : 3 ≤ size (d :: rest) := by
                  rw [List.getLast?_cons_cons] at last
                  obtain ⟨front, parts⟩ := List.getLast?_eq_some_iff.mp last
                  rw [parts, size_append]
                  exact Nat.le_add_left _ _
                omega

/-- A lossy decoder of a text cut at a byte. -/
theorem lossy_cut (chars : List Char) (count : Nat) :
    fromUtf8Lossy ((utf8 (String.ofList chars)).take count) = String.ofList (cutChars count chars) := by
  rw [fromUtf8Lossy]
  cases decoded : fromUtf8 ((utf8 (String.ofList chars)).take count) with
  | none => exact congrArg String.ofList (lossy_chars_cut chars count _ (Nat.le_refl _))
  | some text =>
      have bytes := utf8_of_from_utf8 decoded
      have whole : size text.toList = (utf8 text).length := by
        rw [size, ← utf8_length, String.ofList_toList]
      -- the decoder of what is no text reads this one too
      have read := lossy_chars_cut text.toList (utf8 text).length (utf8 text).length
        (List.length_take_le _ _ |>.trans (Nat.le_refl _))
      rw [String.ofList_toList, List.take_length, cut_all _ _ (Nat.le_of_eq whole), bytes,
        lossy_chars_cut chars count _ (Nat.le_refl _)] at read
      exact (String.ofList_toList (s := text)).symm.trans (congrArg String.ofList read.symm)

end HorizonOs.Lib.LossyText
