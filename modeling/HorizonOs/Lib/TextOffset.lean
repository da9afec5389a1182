import HorizonOs.Lib.Lowercase

/-!
# Byte offsets in a text

Finding a text in another, cutting a text at a byte, and where a word that is found in the
lower case of a text stands in the text itself.
-/

namespace HorizonOs.Lib.TextOffset

open HorizonOs.Lib.LossyText HorizonOs.Lib.Lowercase

set_option autoImplicit false

/-! ## Finding and cutting -/

/-- `str::find`: the bytes before the first place where the key stands. -/
def findText (key : List Char) : List Char → Option Nat
  | [] => if key = [] then some 0 else none
  | c :: rest =>
      if key <+: c :: rest then some 0 else (findText key rest).map fun count => c.utf8Size + count

/-- The parts before and behind a byte, where a character begins there; a slice is out of
range otherwise, which panics. -/
def splitAtByte : Nat → List Char → Option (List Char × List Char)
  | 0, chars => some ([], chars)
  | _ + 1, [] => none
  | count + 1, c :: rest =>
      if c.utf8Size ≤ count + 1 then
        (splitAtByte (count + 1 - c.utf8Size) rest).map fun parts => (c :: parts.1, parts.2)
      else none

theorem find_text_none {key chars : List Char} (absent : findText key chars = none)
    (before after : List Char) : chars ≠ before ++ key ++ after := by
  induction chars generalizing before with
  | nil =>
      rintro whole
      obtain ⟨front, _⟩ := List.append_eq_nil_iff.mp whole.symm
      rw [findText, if_pos (List.append_eq_nil_iff.mp front).2] at absent
      cases absent
  | cons c rest ih =>
      rw [findText] at absent
      split_ifs at absent with starts
      have later := Option.map_eq_none_iff.mp absent
      rintro whole
      cases before with
      | nil => exact starts ⟨after, whole.symm⟩
      | cons d before => exact ih later before (List.cons.inj whole).2

theorem find_text_some {key chars : List Char} {count : Nat} (found : findText key chars = some count) :
    ∃ before after, chars = before ++ key ++ after ∧ size before = count ∧
      ∀ other rest, chars = other ++ key ++ rest → before.length ≤ other.length := by
  induction chars generalizing count with
  | nil =>
      rw [findText] at found
      split_ifs at found with empty
      cases found
      exact ⟨[], [], by rw [empty]; rfl, rfl, fun _ _ _ => Nat.zero_le _⟩
  | cons c rest ih =>
      rw [findText] at found
      split_ifs at found with starts
      · cases found
        obtain ⟨after, whole⟩ := starts
        exact ⟨[], after, whole.symm, rfl, fun _ _ _ => Nat.zero_le _⟩
      · obtain ⟨inner, later, rfl⟩ := Option.map_eq_some_iff.mp found
        obtain ⟨before, after, whole, counted, first⟩ := ih later
        refine ⟨c :: before, after, by rw [whole, List.cons_append, List.cons_append], ?_, ?_⟩
        · rw [size, List.map_cons, List.sum_cons, ← counted, size]
        · intro other tail parts
          cases other with
          | nil => exact absurd ⟨tail, parts.symm⟩ starts
          | cons d other => exact Nat.succ_le_succ (first other tail (List.cons.inj parts).2)

theorem split_at_byte_iff (count : Nat) (chars left right : List Char) :
    splitAtByte count chars = some (left, right) ↔ chars = left ++ right ∧ size left = count := by
  induction chars generalizing count left with
  | nil =>
      cases count with
      | zero =>
          constructor
          · intro cut
            cases cut
            exact ⟨rfl, rfl⟩
          · rintro ⟨whole, _⟩
            obtain ⟨rfl, rfl⟩ := List.append_eq_nil_iff.mp whole.symm
            rfl
      | succ count =>
          constructor
          · intro cut
            cases cut
          · rintro ⟨whole, counted⟩
            obtain ⟨rfl, rfl⟩ := List.append_eq_nil_iff.mp whole.symm
            cases counted
  | cons c rest ih =>
      cases count with
      | zero =>
          constructor
          · intro cut
            cases cut
            exact ⟨rfl, rfl⟩
          · rintro ⟨whole, counted⟩
            cases left with
            | nil => rw [splitAtByte, whole, List.nil_append]
            | cons d left =>
                have positive := d.utf8Size_pos
                rw [size, List.map_cons, List.sum_cons] at counted
                omega
      | succ count =>
          have positive := c.utf8Size_pos
          rw [splitAtByte]
          constructor
          · intro cut
            split_ifs at cut with fits
            obtain ⟨parts, inner, same⟩ := Option.map_eq_some_iff.mp cut
            cases same
            obtain ⟨whole, counted⟩ := (ih _ _).mp inner
            refine ⟨by rw [whole, List.cons_append], ?_⟩
            rw [size] at counted ⊢
            rw [List.map_cons, List.sum_cons, counted]
            omega
          · rintro ⟨whole, counted⟩
            cases left with
            | nil => cases counted
            | cons d left =>
                obtain ⟨rfl, same⟩ := List.cons.inj whole
                rw [size, List.map_cons, List.sum_cons] at counted
                have inner := (ih (count + 1 - c.utf8Size) left).mpr ⟨same, by rw [size]; omega⟩
                rw [if_pos (by omega), inner, Option.map_some]

/-! ## A word in any case -/

/-- A keyword in some case, with what is before and behind it. -/
structure Occurs (keyword chars before occurrence after : List Char) : Prop where
  whole : chars = before ++ occurrence ++ after
  lowered : occurrence.map Char.toLower = keyword

structure FirstOccurs (keyword chars before occurrence after : List Char) : Prop
    extends Occurs keyword chars before occurrence after where
  first : ∀ other word rest, Occurs keyword chars other word rest → before.length ≤ other.length

theorem ascii_of_lower {c : Char} (ascii : c.toLower.toNat < 128) : c.toNat < 128 := by
  delta Char.toLower at ascii
  split_ifs at ascii with upper
  · have below : c.val ≤ 'Z'.val := upper.2
    rw [UInt32.le_iff_toNat_le] at below
    exact Nat.lt_of_le_of_lt below (by decide)
  · exact ascii

variable (finalSigma : List Char → List Char → Bool)

/-- An occurrence stands in the lower case behind the lower case of what is before it. -/
theorem lower_of_occurs {keyword chars before occurrence after : List Char} (plain : Plain keyword)
    (occurs : Occurs keyword chars before occurrence after) :
    toLowercase finalSigma chars = lowerIn finalSigma [] before (occurrence ++ after) ++ keyword ++
      lowerIn finalSigma (before ++ occurrence) after [] := by
  have ascii : ∀ c ∈ occurrence, c.toNat < 128 := by
    intro c member
    apply ascii_of_lower
    apply (plain.letters _ _).1
    rw [← occurs.lowered]
    exact List.mem_map_of_mem member
  rw [toLowercase, occurs.whole, List.append_assoc, lower_in_append, lower_in_append,
    lower_in_ascii finalSigma _ _ occurrence ascii, occurs.lowered, List.nil_append,
    List.append_nil, List.append_assoc]

/-- What is found in the lower case is the first occurrence, at the size of the lower case of
what is before it. -/
theorem find_lowered {keyword : List Char} (plain : Plain keyword) (present : keyword ≠ [])
    (chars : List Char) :
    (findText keyword (toLowercase finalSigma chars) = none ∧
        ∀ before occurrence after, ¬Occurs keyword chars before occurrence after) ∨
      ∃ before occurrence after, FirstOccurs keyword chars before occurrence after ∧
        findText keyword (toLowercase finalSigma chars) =
          some (size (toLowercase finalSigma before)) := by
  cases found : findText keyword (toLowercase finalSigma chars) with
  | none =>
      refine .inl ⟨rfl, fun before occurrence after occurs => ?_⟩
      exact find_text_none found _ _ (lower_of_occurs finalSigma plain occurs)
  | some count =>
      obtain ⟨front, more, lower, counted, minimal⟩ := find_text_some found
      obtain ⟨d, word, rfl⟩ := List.exists_cons_of_ne_nil present
      have ascii := (plain.letters d List.mem_cons_self).1
      have placed : lowerIn finalSigma [] chars [] = front ++ d :: (word ++ more) := by
        rw [← toLowercase, lower, List.append_assoc, List.cons_append]
      obtain ⟨before, right, parts, lowered, starts⟩ := boundary_of_lower finalSigma ascii placed
      rw [List.nil_append] at starts
      obtain ⟨occurrence, after, tail, same⟩ := word_of_lower finalSigma plain starts
      have occurs : Occurs (d :: word) chars before occurrence after :=
        ⟨by rw [parts, tail, List.append_assoc], same⟩
      refine .inr ⟨before, occurrence, after, ⟨occurs, fun other key rest elsewhere => ?_⟩, ?_⟩
      · -- were another occurrence before this one, so would its lower case
        by_contra earlier
        have behind : ∃ c gap, before = other ++ c :: gap := by
          have both : other ++ (key ++ rest) = before ++ right := by
            rw [← parts, elsewhere.whole, List.append_assoc]
          rcases List.append_eq_append_iff.mp both with ⟨gap, left, _⟩ | ⟨gap, left, _⟩
          · cases gap with
            | nil => rw [left, List.append_nil] at earlier; exact absurd (Nat.le_refl _) earlier
            | cons c gap => exact ⟨c, gap, left⟩
          · rw [left, List.length_append] at earlier
            omega
        obtain ⟨c, gap, rfl⟩ := behind
        have least := minimal _ _ (lower_of_occurs finalSigma plain elsewhere)
        have rejoined : key ++ rest = c :: gap ++ right := by
          have both := elsewhere.whole.symm.trans parts
          rw [List.append_assoc, List.append_assoc] at both
          exact List.append_cancel_left both
        rw [← lowered, lower_in_append, List.append_nil, ← rejoined, List.length_append, lowerIn,
          List.length_append] at least
        have nonempty : lowerAt finalSigma ([] ++ other) c (gap ++ right) ≠ [] := by
          rcases lower_at_cases finalSigma ([] ++ other) (gap ++ right) c with
            image | image | image | ⟨o, image, _⟩ <;> rw [image] <;> exact List.cons_ne_nil _ _
        have positive := List.length_pos_of_ne_nil nonempty
        omega
      · rw [← counted, ← lowered, toLowercase]
        exact congrArg some (size_lower_in finalSigma _ _ _ _ before)

end HorizonOs.Lib.TextOffset
