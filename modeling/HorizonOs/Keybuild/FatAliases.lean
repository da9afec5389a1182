import Mathlib.Data.String.Basic
import HorizonOs.Keybuild.FatRoundTrip

/-!
# Short names in a directory

The short field each child of a directory is given. Two short names share a field when one
is the other with a dot behind it, which the canonical form drops; otherwise the fields are
apart, and an alias is free as long as one of its numbers is.
-/

namespace HorizonOs.Keybuild.Fat

open HorizonOs.Lib.ByteCodec HorizonOs.Lib.Buffer

set_option autoImplicit false

/-! ## Which names share a field -/

/-- A text is split at its first dot. -/
theorem split_first_dot (name : List Char) (dotted : '.' ∈ name) :
    name = name.takeWhile (· ≠ '.') ++ '.' :: (name.dropWhile (· ≠ '.')).tail := by
  induction name with
  | nil => exact absurd dotted List.not_mem_nil
  | cons c rest ih =>
      by_cases dot : c = '.'
      · rw [dot, List.takeWhile_cons_of_neg (by simp), List.dropWhile_cons_of_neg (by simp)]
        rfl
      · have later : '.' ∈ rest := (List.mem_cons.mp dotted).resolve_left (Ne.symm dot)
        rw [List.takeWhile_cons_of_pos (by simpa using dot),
          List.dropWhile_cons_of_pos (by simpa using dot), List.cons_append, ← ih later]

theorem rsplit_dotted (name : List Char) (dotted : '.' ∈ name) :
    name = (rsplitDot name).1 ++ '.' :: (rsplitDot name).2 := by
  have parts := congrArg List.reverse
    (split_first_dot name.reverse (List.mem_reverse.mpr dotted))
  rw [List.reverse_reverse, List.reverse_append, List.reverse_cons, List.append_assoc] at parts
  rw [rsplitDot, if_pos dotted]
  exact parts

theorem rsplit_plain (name : List Char) (plain : '.' ∉ name) : rsplitDot name = (name, []) :=
  if_neg plain

/-- A dot at the end splits off nothing. -/
theorem rsplit_end (name : List Char) : rsplitDot (name ++ ['.']) = (name, []) := by
  rw [rsplitDot, if_pos (List.mem_append_right name (List.mem_singleton_self _)),
    List.reverse_append, List.reverse_singleton, List.singleton_append,
    List.dropWhile_cons_of_neg (by simp), List.takeWhile_cons_of_neg (by simp), List.tail_cons,
    List.reverse_reverse, List.reverse_nil]

/-- A short name is its canonical form, or that with a dot behind it. -/
theorem canon_upper {name : String} {canon : List Char} (made : canon83 name = some canon) :
    upper name = canon ∨ upper name = canon ++ ['.'] := by
  rw [canon83] at made
  split at made
  case h_1 base ext parts =>
    split at made
    case isTrue => cases made
    case isFalse =>
      cases made
      by_cases dotted : '.' ∈ upper name
      · have whole := rsplit_dotted (upper name) dotted
        rw [parts] at whole
        by_cases bare : ext = []
        · rw [bare] at whole
          rw [if_pos bare]
          exact .inr whole
        · rw [if_neg bare]
          exact .inl whole
      · rw [rsplit_plain _ dotted] at parts
        cases parts
        exact .inl (if_pos rfl).symm

/-- Fields are the same only of the same canonical form. -/
theorem canon_of_field {left right : String} {field : Bytes} (leftFits : fits83 left = some field)
    (rightFits : fits83 right = some field) : canon83 left = canon83 right := by
  obtain ⟨canon, made, rfl⟩ := Option.map_eq_some_iff.mp leftFits
  obtain ⟨other, otherMade, same⟩ := Option.map_eq_some_iff.mp rightFits
  have names := (canon_read made).2
  rw [← same, (canon_read otherMade).2] at names
  rw [made, otherMade, String.ofList_injective names]

theorem dot_of_upper {c : Char} (dot : c.toUpper = '.') : c = '.' := by
  delta Char.toUpper at dot
  split_ifs at dot with letter
  · have number := congrArg (fun c => c.val.toNat) dot
    have low := UInt32.le_iff_toNat_le.mp letter.1
    have high := UInt32.le_iff_toNat_le.mp letter.2
    simp at number low high
    omega
  · exact dot

/-- A usable name that is another with a dot behind it is short, and so is the other. -/
theorem fits_of_dot {left right : String} (valid : validateName right = true)
    (dotted : upper right = upper left ++ ['.']) :
    fits83 left = fits83 right ∧ (fits83 left).isSome := by
  have ends : right.toList.getLast? = some '.' := by
    have last : (upper right).getLast? = some '.' := by
      rw [dotted, List.getLast?_append, List.getLast?_singleton, Option.some_or]
    rw [upper, List.getLast?_map, Option.map_eq_some_iff] at last
    obtain ⟨c, found, dot⟩ := last
    rw [found, dot_of_upper dot]
  have short : (fits83 right).isSome := by
    rw [validateName, Bool.or_eq_true] at valid
    refine valid.resolve_right ?_
    simp [isLongName, ends]
  obtain ⟨field, fits⟩ := Option.isSome_iff_exists.mp short
  obtain ⟨canon, made, _⟩ := Option.map_eq_some_iff.mp fits
  have same : canon83 left = canon83 right := by
    rw [canon83, dotted, rsplit_end] at made
    dsimp only at made
    split_ifs at made with bad bare
    · have plain : '.' ∉ upper left := by
        intro dot
        push Not at bad
        exact absurd rfl (short_char_range (List.all_eq_true.mp bad.2.2.2.1 '.' dot)).2.2
      rw [canon83, canon83, dotted, rsplit_end, rsplit_plain _ plain]
    · exact absurd rfl bare
  have sameField : fits83 left = fits83 right := congrArg (Option.map toField) same
  exact ⟨sameField, sameField ▸ short⟩

/-- Up to the case of its letters, one name is the other with a dot behind it. -/
def Dotted (left right : String) : Prop :=
  upper right = upper left ++ ['.'] ∨ upper left = upper right ++ ['.']

theorem same_field_iff {left right : String} (leftValid : validateName left = true)
    (rightValid : validateName right = true) (apart : upper left ≠ upper right) :
    (∃ field, fits83 left = some field ∧ fits83 right = some field) ↔ Dotted left right := by
  constructor
  · rintro ⟨field, leftFits, rightFits⟩
    have same := canon_of_field leftFits rightFits
    obtain ⟨canon, made, _⟩ := Option.map_eq_some_iff.mp leftFits
    have other := same.symm.trans made
    rcases canon_upper made with plain | dot <;> rcases canon_upper other with plain' | dot'
    · exact absurd (plain.trans plain'.symm) apart
    · exact .inl (dot'.trans (congrArg (· ++ ['.']) plain.symm))
    · exact .inr (dot.trans (congrArg (· ++ ['.']) plain'.symm))
    · exact absurd (dot.trans dot'.symm) apart
  · rintro (dotted | dotted)
    · obtain ⟨same, short⟩ := fits_of_dot rightValid dotted
      obtain ⟨field, fits⟩ := Option.isSome_iff_exists.mp short
      exact ⟨field, fits, same ▸ fits⟩
    · obtain ⟨same, short⟩ := fits_of_dot leftValid dotted
      obtain ⟨field, fits⟩ := Option.isSome_iff_exists.mp short
      exact ⟨field, same ▸ fits, fits⟩

/-! ## The numbers of an alias -/

/-- A byte of a short field that is neither a filling space nor a dot. -/
def Solid (b : UInt8) : Prop := b ≠ 0x20 ∧ b ≠ 0x2E

theorem solid_of_short {c : Char} (ok : shortChar c = true) : Solid (UInt8.ofNat c.toNat) := by
  have range := short_char_range ok
  have number : (UInt8.ofNat c.toNat).toNat = c.toNat := by
    rw [UInt8.toNat_ofNat', Nat.mod_eq_of_lt (by omega)]
  constructor
  · intro space
    rw [space] at number
    have blank : (0x20 : UInt8).toNat = 0x20 := rfl
    omega
  · intro dot
    rw [dot] at number
    have same : c = Char.ofNat 0x2E := by
      rw [← Char.ofNat_toNat c, ← number]
      rfl
    exact range.2.2 same

theorem solid_ascii {chars : List Char} (ok : chars.all shortChar = true) :
    ∀ b ∈ asciiBytes chars, Solid b := by
  intro b member
  obtain ⟨c, inside, rfl⟩ := List.mem_map.mp member
  exact solid_of_short (List.all_eq_true.mp ok c inside)

theorem solid_clean (part : List Char) (count : Nat) : ∀ b ∈ clean part count, Solid b := by
  intro b member
  obtain ⟨c, _, rfl⟩ := List.mem_map.mp (List.mem_of_mem_take member)
  split_ifs with ok
  · exact solid_of_short ok
  · exact ⟨by decide, by decide⟩

theorem digits_short (i : Nat) : (Nat.toDigits 10 i).all shortChar = true := by
  apply List.all_eq_true.mpr
  intro c member
  have digit := Nat.isDigit_of_mem_toDigits (by decide) (by decide) member
  simp [shortChar, digit]

theorem tilde_not_digit (i : Nat) : (0x7E : UInt8) ∉ asciiBytes (Nat.toDigits 10 i) := by
  intro member
  obtain ⟨c, inside, same⟩ := List.mem_map.mp member
  have digit := Nat.isDigit_of_mem_toDigits (by decide) (by decide) inside
  have bounds : 48 ≤ c.toNat ∧ c.toNat ≤ 57 := by
    simpa [Char.isDigit, UInt32.le_iff_toNat_le] using digit
  have number := congrArg UInt8.toNat same
  rw [UInt8.toNat_ofNat', Nat.mod_eq_of_lt (by omega)] at number
  have tilde : (0x7E : UInt8).toNat = 126 := rfl
  omega

/-- The tail `~i` of an alias. -/
def aliasTail (i : Nat) : Bytes := asciiBytes ('~' :: Nat.toDigits 10 i)

theorem length_alias_tail {i : Nat} (below : i < 10 ^ 7) : (aliasTail i).length ≤ 8 := by
  have digits := (Nat.length_toDigits_le_iff (by decide) (by decide)).mpr below
  rw [aliasTail, asciiBytes, List.length_map, List.length_cons]
  omega

/-- The base of an alias, whole where the number has no more than seven digits. -/
theorem alias_base (long : String) {i : Nat} (below : i < 10 ^ 7) :
    trimField (slice (aliasField long i) 0 8) =
      clean (rsplitDot (upper long)).1 (8 - (aliasTail i).length) ++ aliasTail i := by
  have tail := length_alias_tail below
  have cleaned : (clean (rsplitDot (upper long)).1 (8 - (aliasTail i).length)).length ≤
      8 - (aliasTail i).length := List.length_take_le _ _
  have size : (clean (rsplitDot (upper long)).1 (8 - (aliasTail i).length) ++
      aliasTail i).length ≤ 8 := by
    rw [List.length_append]
    omega
  have field : aliasField long i = nameField (clean (rsplitDot (upper long)).1
      (8 - (aliasTail i).length) ++ aliasTail i) (clean (rsplitDot (upper long)).2 3) := by
    rw [← List.take_of_length_le size]
    rfl
  rw [field, name_field_base _ _ size]
  apply trim_field_padded
  intro b member
  rcases List.mem_append.mp member with front | behind
  · exact (solid_clean _ _ b front).1
  · rcases List.mem_cons.mp behind with rfl | digit
    · decide
    · exact (solid_ascii (digits_short i) b digit).1

/-- What is behind the last tilde. -/
def behindTilde (bytes : Bytes) : Bytes := (bytes.reverse.takeWhile (· ≠ 0x7E)).reverse

theorem behind_tilde_tail (front : Bytes) (i : Nat) :
    behindTilde (front ++ aliasTail i) = asciiBytes (Nat.toDigits 10 i) := by
  have tail : aliasTail i = [0x7E] ++ asciiBytes (Nat.toDigits 10 i) := rfl
  have digits : ∀ b ∈ (asciiBytes (Nat.toDigits 10 i)).reverse, decide (b ≠ 0x7E) = true := by
    intro b member
    apply decide_eq_true
    rintro rfl
    exact tilde_not_digit i (List.mem_reverse.mp member)
  rw [behindTilde, tail, ← List.append_assoc, List.reverse_append, List.reverse_append,
    List.takeWhile_append_of_pos digits, List.reverse_singleton, List.singleton_append,
    List.takeWhile_cons_of_neg (by simp), List.append_nil, List.reverse_reverse]

/-- Numbers of at most seven digits give a long name different aliases. -/
theorem alias_number_injective (long : String) {i j : Nat} (left : i < 10 ^ 7) (right : j < 10 ^ 7)
    (same : aliasField long i = aliasField long j) : i = j := by
  have bases := alias_base long left
  rw [same, alias_base long right] at bases
  have digits := congrArg behindTilde bases
  rw [behind_tilde_tail, behind_tilde_tail] at digits
  have chars := field_chars_padded (Nat.toDigits 10 i) 0 (digits_short i)
  rw [← digits, field_chars_padded _ 0 (digits_short j)] at chars
  calc
    i = Nat.ofDigitChars 10 (Nat.toDigits 10 i) 0 := Nat.ofDigitChars_ten_toDigits.symm
    _ = Nat.ofDigitChars 10 (Nat.toDigits 10 j) 0 := by rw [chars]
    _ = j := Nat.ofDigitChars_ten_toDigits

/-- Fewer fields than numbers leave one free. -/
theorem alias_free (long : String) (taken : List Bytes) (few : taken.length + 1 < 10 ^ 7) :
    ∃ i, 1 ≤ i ∧ i < 10 ^ 7 ∧ aliasField long i ∉ taken := by
  by_contra all
  push Not at all
  have fields : ((List.range' 1 (taken.length + 1)).map (aliasField long)).Nodup := by
    apply List.Nodup.map_on _ (List.nodup_range' _ Nat.one_pos)
    intro i leftMember j rightMember
    rw [List.mem_range'_1] at leftMember rightMember
    exact alias_number_injective long (by omega) (by omega)
  have inside : ((List.range' 1 (taken.length + 1)).map (aliasField long)) ⊆ taken := by
    intro field member
    obtain ⟨i, ranged, rfl⟩ := List.mem_map.mp member
    rw [List.mem_range'_1] at ranged
    exact all i ranged.1 (by omega)
  have count := (List.subperm_of_subset fields inside).length_le
  rw [List.length_map, List.length_range'] at count
  omega

/-! ## The plan of a directory -/

/-- Each long name has a number that is free when its turn comes. -/
def Supplied (taken : List Bytes) : List String → Prop
  | [] => True
  | name :: names =>
      match fits83 name with
      | some _ => Supplied taken names
      | none => ∃ i, 1 ≤ i ∧ i < 2 ^ 32 ∧ aliasField name i ∉ taken ∧
          (∀ j, 1 ≤ j → j < i → aliasField name j ∈ taken) ∧
          Supplied (aliasField name i :: taken) names

theorem alias_from_spec (long : String) (taken : List Bytes) (fuel start : Nat) (field : Bytes) :
    aliasFrom long taken fuel start = some field ↔
      ∃ i, start ≤ i ∧ i < start + fuel ∧ aliasField long i ∉ taken ∧
        (∀ j, start ≤ j → j < i → aliasField long j ∈ taken) ∧ field = aliasField long i := by
  induction fuel generalizing start with
  | zero =>
      refine iff_of_false (fun found => by cases found) ?_
      rintro ⟨i, low, high, _⟩
      omega
  | succ fuel ih =>
      rw [aliasFrom]
      by_cases used : aliasField long start ∈ taken
      · rw [if_pos used, ih]
        constructor
        · rintro ⟨i, low, high, free, before, rfl⟩
          refine ⟨i, by omega, by omega, free, ?_, rfl⟩
          intro j from_ below
          rcases Nat.eq_or_lt_of_le from_ with rfl | later
          · exact used
          · exact before j later below
        · rintro ⟨i, low, high, free, before, rfl⟩
          have later : i ≠ start := by
            rintro rfl
            exact free used
          exact ⟨i, by omega, by omega, free, fun j from_ below => before j (by omega) below, rfl⟩
      · rw [if_neg used]
        constructor
        · intro found
          cases found
          exact ⟨start, Nat.le_refl _, by omega, used, fun j from_ below => by omega, rfl⟩
        · rintro ⟨i, low, high, free, before, rfl⟩
          rcases Nat.eq_or_lt_of_le low with rfl | later
          · rfl
          · exact absurd (before start (Nat.le_refl _) later) used

theorem plan_fields_supplied (taken : List Bytes) (names : List String) :
    (planFields taken names).isSome ↔ Supplied taken names := by
  induction names generalizing taken with
  | nil => exact iff_of_true rfl trivial
  | cons name names ih =>
      rw [planFields, Supplied]
      cases fits : fits83 name with
      | some field => rw [Option.isSome_map, ih]
      | none =>
          simp only [Option.bind_eq_bind]
          constructor
          · intro made
            obtain ⟨plan, whole⟩ := Option.isSome_iff_exists.mp made
            obtain ⟨field, found, rest⟩ := Option.bind_eq_some_iff.mp whole
            obtain ⟨more, planned, _⟩ := Option.bind_eq_some_iff.mp rest
            obtain ⟨i, low, high, free, before, rfl⟩ := (alias_from_spec _ _ _ _ _).mp found
            exact ⟨i, low, by omega, free, before, (ih _).mp (Option.isSome_of_mem planned)⟩
          · rintro ⟨i, low, high, free, before, more⟩
            have found : shortAlias name taken = some (aliasField name i) :=
              (alias_from_spec _ _ _ _ _).mpr ⟨i, low, by omega, free, before, rfl⟩
            obtain ⟨plan, planned⟩ := Option.isSome_iff_exists.mp ((ih _).mpr more)
            rw [found, Option.bind_some, planned, Option.bind_some, Option.isSome_some]

/-- A directory with fewer children than there are numbers supplies every one of them. -/
theorem supplied_of_few (taken : List Bytes) (names : List String)
    (few : taken.length + (names.filter fun name => (fits83 name).isNone).length < 10 ^ 7) :
    Supplied taken names := by
  induction names generalizing taken with
  | nil => trivial
  | cons name names ih =>
      rw [Supplied]
      cases fits : fits83 name with
      | some field =>
          rw [List.filter_cons_of_neg (by rw [fits]; simp)] at few
          exact ih taken few
      | none =>
          rw [List.filter_cons_of_pos (by rw [fits]; rfl), List.length_cons] at few
          have free := alias_free name taken (by omega)
          obtain ⟨low, high, unused⟩ := Nat.find_spec free
          refine ⟨Nat.find free, low, by omega, unused, ?_, ih _ ?_⟩
          · intro j from_ below
            by_contra other
            exact Nat.find_min free below ⟨from_, by omega, other⟩
          · rw [List.length_cons]
            omega

theorem short_and_long (names : List String) :
    (names.filterMap fits83).length + (names.filter fun name => (fits83 name).isNone).length =
      names.length := by
  induction names with
  | nil => rfl
  | cons name names ih =>
      cases fits : fits83 name with
      | some field =>
          rw [List.filterMap_cons_some fits, List.filter_cons_of_neg (by rw [fits]; simp),
            List.length_cons, List.length_cons]
          omega
      | none =>
          rw [List.filterMap_cons_none fits, List.filter_cons_of_pos (by rw [fits]; rfl),
            List.length_cons, List.length_cons]
          omega

section Plans

variable {taken : List Bytes} {names : List String} {plan : List (Bytes × Option String)}

/-- The short names keep their fields, in their order. -/
theorem shorts_sublist (made : planFields taken names = some plan) :
    (names.filterMap fits83).Sublist (plan.map Prod.fst) := by
  induction names generalizing taken plan with
  | nil => exact List.nil_sublist _
  | cons name names ih =>
      rw [planFields] at made
      cases fits : fits83 name with
      | some field =>
          rw [fits] at made
          obtain ⟨rest, more, rfl⟩ := Option.map_eq_some_iff.mp made
          rw [List.filterMap_cons_some fits, List.map_cons]
          exact (ih more).cons_cons field
      | none =>
          rw [fits] at made
          simp only [Option.bind_eq_bind] at made
          obtain ⟨field, _, rest⟩ := Option.bind_eq_some_iff.mp made
          obtain ⟨more, planned, same⟩ := Option.bind_eq_some_iff.mp rest
          rw [← Option.some.inj same, List.filterMap_cons_none fits, List.map_cons]
          exact (ih planned).cons field

theorem planned_entry (made : planFields taken names = some plan) {entry : Bytes × Option String}
    (member : entry ∈ plan) : ∃ name ∈ names, Planned name entry := by
  have each := plan_fields_planned made
  clear made
  induction each with
  | nil => exact absurd member List.not_mem_nil
  | cons first rest ih =>
      rcases List.mem_cons.mp member with rfl | later
      · exact ⟨_, List.mem_cons_self, first⟩
      · obtain ⟨name, inside, planned⟩ := ih later
        exact ⟨name, List.mem_cons_of_mem _ inside, planned⟩

/-- The aliases are none of the fields taken before, and no two fields of the plan are the
same where those of the short names are not. -/
theorem plan_distinct (made : planFields taken names = some plan)
    (shorts : ∀ name ∈ names, ∀ field, fits83 name = some field → field ∈ taken)
    (distinct : (names.filterMap fits83).Nodup) :
    (plan.map Prod.fst).Nodup ∧ ∀ field name, (field, some name) ∈ plan → field ∉ taken := by
  induction names generalizing taken plan with
  | nil =>
      cases made
      exact ⟨List.nodup_nil, fun _ _ none => absurd none List.not_mem_nil⟩
  | cons name names ih =>
      have others : ∀ other ∈ names, ∀ field, fits83 other = some field → field ∈ taken :=
        fun other member => shorts other (List.mem_cons_of_mem name member)
      rw [planFields] at made
      cases fits : fits83 name with
      | some field =>
          rw [fits] at made
          obtain ⟨rest, more, rfl⟩ := Option.map_eq_some_iff.mp made
          rw [List.filterMap_cons_some fits, List.nodup_cons] at distinct
          obtain ⟨nodup, apart⟩ := ih more others distinct.2
          have here := shorts name List.mem_cons_self field fits
          refine ⟨?_, ?_⟩
          · rw [List.map_cons, List.nodup_cons]
            refine ⟨?_, nodup⟩
            intro again
            obtain ⟨entry, member, same⟩ := List.mem_map.mp again
            obtain ⟨other, inside, planned⟩ := planned_entry more member
            rcases planned with ⟨short, _⟩ | ⟨_, long, _⟩
            · exact distinct.1 (List.mem_filterMap.mpr ⟨other, inside, short.trans (congrArg some same)⟩)
            · refine apart entry.1 other ?_ (same.symm ▸ here)
              rw [← long]
              exact member
          · intro given long member
            rcases List.mem_cons.mp member with same | later
            · cases same
            · exact apart given long later
      | none =>
          rw [fits] at made
          simp only [Option.bind_eq_bind] at made
          obtain ⟨field, found, rest⟩ := Option.bind_eq_some_iff.mp made
          obtain ⟨more, planned, same⟩ := Option.bind_eq_some_iff.mp rest
          obtain ⟨i, _, _, free, _, rfl⟩ := (alias_from_spec _ _ _ _ _).mp found
          rw [List.filterMap_cons_none fits] at distinct
          obtain ⟨nodup, apart⟩ := ih planned
            (fun other member field short => List.mem_cons_of_mem _ (others other member field short))
            distinct
          rw [← Option.some.inj same]
          refine ⟨?_, ?_⟩
          · rw [List.map_cons, List.nodup_cons]
            refine ⟨?_, nodup⟩
            intro again
            obtain ⟨entry, member, same⟩ := List.mem_map.mp again
            obtain ⟨other, inside, planned⟩ := planned_entry planned member
            rcases planned with ⟨short, _⟩ | ⟨_, long, _⟩
            · exact free (others other inside _ (short.trans (congrArg some same)))
            · have member' : (entry.1, some other) ∈ more := by
                rw [← long]
                exact member
              exact apart entry.1 other member' (List.mem_cons.mpr (.inl same))
          · intro given long member
            rcases List.mem_cons.mp member with head | later
            · cases head
              exact free
            · exact fun used => apart given long later (List.mem_cons_of_mem _ used)

end Plans

/-! ## No field is a dot entry's -/

theorem short_field_undotted {name : String} {field : Bytes} (fits : fits83 name = some field) :
    field.head? ≠ some 0x2E := by
  obtain ⟨canon, made, rfl⟩ := Option.map_eq_some_iff.mp fits
  obtain ⟨base, ext, nonempty, _, _, baseOk, _, rfl⟩ := canon_parts made
  rw [to_field_parts base ext baseOk]
  cases base with
  | nil => exact absurd rfl nonempty
  | cons c base =>
      intro dot
      exact (solid_of_short (List.all_eq_true.mp baseOk c List.mem_cons_self)).2 (Option.some.inj dot)

theorem alias_undotted (long : String) (i : Nat) : (aliasField long i).head? ≠ some 0x2E := by
  have field : aliasField long i = nameField ((clean (rsplitDot (upper long)).1
      (8 - (aliasTail i).length) ++ aliasTail i).take 8) (clean (rsplitDot (upper long)).2 3) := rfl
  rw [field]
  cases cleaned : clean (rsplitDot (upper long)).1 (8 - (aliasTail i).length) with
  | nil =>
      intro dot
      exact absurd (Option.some.inj dot) (by decide)
  | cons b rest =>
      intro dot
      exact (solid_clean _ _ b (cleaned ▸ List.mem_cons_self)).2 (Option.some.inj dot)

/-! ## The keys of a tree that is built -/

mutual

/-- Every directory is in the order of its keys, each the upper case of its name. -/
def Node.Keyed : Node → Prop
  | .file _ => True
  | .dir sub => Dir.Keyed sub

def Dir.Keyed : Dir → Prop
  | .nil => True
  | .cons key name node rest =>
      key = keyOf name ∧ (∀ other ∈ rest.names, key < keyOf other) ∧ node.Keyed ∧ Dir.Keyed rest

end

mutual

def Node.directories : Node → List Dir
  | .file _ => []
  | .dir sub => sub :: Dir.directories sub

/-- The directories below one, at any depth. -/
def Dir.directories : Dir → List Dir
  | .nil => []
  | .cons _ _ node rest => node.directories ++ Dir.directories rest

end

theorem mem_names_insert (key name : String) (node : Node) : ∀ (dir : Dir) (other : String),
    other ∈ (dir.insert key name node).names → other = name ∨ other ∈ dir.names
  | .nil, other, member => .inl (List.mem_singleton.mp member)
  | .cons first firstName firstNode rest, other, member => by
      rw [Dir.insert] at member
      split_ifs at member
      · exact (List.mem_cons.mp member).imp_right (List.mem_cons_of_mem _)
      · exact List.mem_cons.mp member
      · rcases List.mem_cons.mp member with rfl | later
        · exact .inr List.mem_cons_self
        · exact (mem_names_insert key name node rest other later).imp_right
            (List.mem_cons_of_mem _)

theorem names_set_node (key : String) (node : Node) (dir : Dir) :
    (dir.setNode key node).names = dir.names := by
  cases dir with
  | nil => rfl
  | cons first name old rest =>
      have later := names_set_node key node rest
      rw [Dir.setNode]
      split_ifs
      · rfl
      · exact congrArg (name :: ·) later

theorem insert_keyed (name : String) (node : Node) (keyed : node.Keyed) : ∀ dir : Dir,
    dir.Keyed → (dir.insert (keyOf name) name node).Keyed
  | .nil, _ => ⟨rfl, fun _ none => absurd none List.not_mem_nil, keyed, trivial⟩
  | .cons first firstName firstNode rest, whole => by
      obtain ⟨named, sorted, inner, later⟩ := whole
      rw [Dir.insert]
      split_ifs with same before
      · exact ⟨rfl, fun other member => same ▸ sorted other member, keyed, later⟩
      · refine ⟨rfl, ?_, keyed, named, sorted, inner, later⟩
        intro other member
        rcases List.mem_cons.mp member with rfl | behind
        · rwa [← named]
        · exact before.trans (sorted other behind)
      · refine ⟨named, ?_, inner, insert_keyed name node keyed rest later⟩
        intro other member
        rcases mem_names_insert _ _ _ _ _ member with rfl | behind
        · exact lt_of_le_of_ne (not_lt.mp before) (Ne.symm same)
        · exact sorted other behind

theorem set_node_keyed (key : String) (node : Node) (keyed : node.Keyed) : ∀ dir : Dir,
    dir.Keyed → (dir.setNode key node).Keyed
  | .nil, _ => trivial
  | .cons first name old rest, whole => by
      obtain ⟨named, sorted, inner, later⟩ := whole
      rw [Dir.setNode]
      split_ifs
      · exact ⟨named, sorted, keyed, later⟩
      · refine ⟨named, ?_, inner, set_node_keyed key node keyed rest later⟩
        rwa [names_set_node]

theorem find_keyed (key : String) : ∀ (dir : Dir) (node : Node), dir.Keyed →
    dir.find key = some node → node.Keyed
  | .nil, _, _, found => by cases found
  | .cons other name old rest, node, whole, found => by
      obtain ⟨_, _, inner, later⟩ := whole
      rw [Dir.find] at found
      split_ifs at found
      · cases found
        exact inner
      · exact find_keyed key rest node later found

theorem within_keyed (act : Dir → Dir × Except Error Unit)
    (kept : ∀ dir : Dir, dir.Keyed → (act dir).1.Keyed) :
    ∀ (path : List String) (dir : Dir), dir.Keyed → (Dir.within act path dir).1.Keyed := by
  intro path
  induction path with
  | nil => exact kept
  | cons name path ih =>
      intro dir keyed
      rw [Dir.within]
      by_cases carried : validateName name = true
      · rw [if_neg (not_not.mpr carried)]
        cases found : dir.find (keyOf name) with
        | none =>
            exact insert_keyed name (.dir (Dir.within act path .nil).1) (ih .nil trivial) dir keyed
        | some node =>
            cases node with
            | file data => exact keyed
            | dir sub =>
                exact set_node_keyed _ (.dir (Dir.within act path sub).1)
                  (ih sub (find_keyed _ dir _ keyed found)) dir keyed
      · rw [if_pos carried]
        exact keyed

theorem built_keyed {dir : Dir} (built : Built dir) : dir.Keyed := by
  induction built with
  | empty => trivial
  | @insertFile dir path data _ keyed =>
      rw [Dir.insertFile]
      cases (components path).getLast? with
      | none => exact keyed
      | some file =>
          apply within_keyed _ _ _ dir keyed
          intro last whole
          by_cases carried : validateName file = true
          · rw [if_neg (not_not.mpr carried)]
            exact insert_keyed file (.file data) trivial last whole
          · rw [if_pos carried]
            exact whole
  | @mkdir dir path _ keyed => exact within_keyed _ (fun _ whole => whole) _ dir keyed

/-- A directory as the builder makes it. -/
def Dir.Sound (dir : Dir) : Prop := dir.Valid ∧ dir.Keyed

mutual

theorem node_directories_sound (node : Node) (valid : node.Valid) (keyed : node.Keyed) :
    ∀ dir ∈ node.directories, dir.Sound := by
  cases node with
  | file data => exact fun _ none => absurd none List.not_mem_nil
  | dir sub =>
      intro dir member
      rcases List.mem_cons.mp member with rfl | later
      · exact ⟨valid, keyed⟩
      · exact directories_sound sub valid keyed dir later

theorem directories_sound (root : Dir) (valid : root.Valid) (keyed : root.Keyed) :
    ∀ dir ∈ root.directories, dir.Sound := by
  cases root with
  | nil => exact fun _ none => absurd none List.not_mem_nil
  | cons key name node rest =>
      intro dir member
      rcases List.mem_append.mp member with here | later
      · exact node_directories_sound node valid.2.1 keyed.2.2.1 dir here
      · exact directories_sound rest valid.2.2 keyed.2.2.2 dir later

end

/-! ## The fields of a directory -/

theorem pairwise_iff_beside {α : Type} {apart left right : α → α → Prop} (items : List α)
    (beside : items.Pairwise apart)
    (same : ∀ x ∈ items, ∀ y ∈ items, apart x y → (left x y ↔ right x y)) :
    items.Pairwise left ↔ items.Pairwise right := by
  induction items with
  | nil => exact iff_of_true .nil .nil
  | cons item items ih =>
      obtain ⟨first, others⟩ := List.pairwise_cons.mp beside
      rw [List.pairwise_cons, List.pairwise_cons, ih others fun x inside y among =>
        same x (List.mem_cons_of_mem _ inside) y (List.mem_cons_of_mem _ among)]
      apply and_congr_left
      intro _
      exact forall₂_congr fun y among =>
        same item List.mem_cons_self y (List.mem_cons_of_mem _ among) (first y among)

theorem names_apart (dir : Dir) (keyed : dir.Keyed) :
    dir.names.Pairwise fun left right => upper left ≠ upper right := by
  induction dir using Dir.names.induct with
  | case1 => exact .nil
  | case2 key name node rest ih =>
      obtain ⟨named, sorted, _, later⟩ := keyed
      refine List.Pairwise.cons ?_ (ih later)
      intro other member same
      have key := sorted other member
      rw [named, keyOf, keyOf, same] at key
      exact lt_irrefl _ key

theorem names_valid (dir : Dir) (valid : dir.Valid) :
    ∀ name ∈ dir.names, validateName name = true := by
  induction dir using Dir.names.induct with
  | case1 => exact fun _ none => absurd none List.not_mem_nil
  | case2 key name node rest ih =>
      intro other member
      rcases List.mem_cons.mp member with rfl | later
      · exact valid.1
      · exact ih valid.2.2 other later

/-- No name is another of the directory with a dot behind it, up to the case of letters. -/
def Undotted (names : List String) : Prop :=
  ∀ left ∈ names, ∀ right ∈ names, upper right ≠ upper left ++ ['.']

theorem undotted_iff (names : List String) :
    Undotted names ↔ names.Pairwise fun left right => ¬Dotted left right := by
  constructor
  · intro undotted
    apply List.pairwise_of_forall_mem_list
    rintro left inside right among (dotted | dotted)
    · exact undotted left inside right among dotted
    · exact undotted right among left inside dotted
  · intro apart left inside right among dotted
    have own : ∀ name : String, ¬Dotted name name := by
      rintro name (dotted | dotted)
      all_goals
        have sizes := congrArg List.length dotted
        rw [List.length_append, List.length_singleton] at sizes
        omega
    have flipped : names.Pairwise (flip fun left right => ¬Dotted left right) :=
      apart.imp fun far dotted => far dotted.symm
    exact List.Pairwise.forall_of_forall_of_flip (fun name _ => own name) apart flipped inside among
      (.inl dotted)

/-- The fields of the short names of a directory are apart unless a dot tells two apart. -/
theorem shorts_nodup_iff (dir : Dir) (sound : dir.Sound) :
    (dir.names.filterMap fits83).Nodup ↔ Undotted dir.names := by
  rw [undotted_iff, List.Nodup, List.pairwise_filterMap]
  apply pairwise_iff_beside dir.names (names_apart dir sound.2)
  intro left inside right among apart
  have valid := names_valid dir sound.1
  rw [← not_iff_not, not_not, ← same_field_iff (valid left inside) (valid right among) apart]
  push Not
  constructor
  · rintro ⟨field, fits, other, fitsToo, same⟩
    exact ⟨field, fits, same ▸ fitsToo⟩
  · rintro ⟨field, fits, fitsToo⟩
    exact ⟨field, fits, field, fitsToo, rfl⟩

/-- Every child has a field of eleven bytes, no two the same and none a dot entry's, and no
alias is the field of a short name. -/
def Dir.ShortNamesUnique (dir : Dir) : Prop :=
  ∃ plan, planChildren dir = some plan ∧ (plan.map Prod.fst).Nodup ∧
    (∀ entry ∈ plan, entry.1.length = 11 ∧ entry.1 ≠ dotName "." ∧ entry.1 ≠ dotName "..") ∧
    ∀ field long, (field, some long) ∈ plan → ∀ name ∈ dir.names, fits83 name ≠ some field

theorem plan_undotted {taken : List Bytes} {names : List String}
    {plan : List (Bytes × Option String)} (made : planFields taken names = some plan) :
    ∀ entry ∈ plan, entry.1.head? ≠ some 0x2E := by
  induction names generalizing taken plan with
  | nil =>
      cases made
      exact fun _ none => absurd none List.not_mem_nil
  | cons name names ih =>
      rw [planFields] at made
      cases fits : fits83 name with
      | some field =>
          rw [fits] at made
          obtain ⟨rest, more, rfl⟩ := Option.map_eq_some_iff.mp made
          exact List.forall_mem_cons.mpr ⟨short_field_undotted fits, ih more⟩
      | none =>
          rw [fits] at made
          simp only [Option.bind_eq_bind] at made
          obtain ⟨field, found, rest⟩ := Option.bind_eq_some_iff.mp made
          obtain ⟨more, planned, same⟩ := Option.bind_eq_some_iff.mp rest
          obtain ⟨i, _, _, _, _, rfl⟩ := (alias_from_spec _ _ _ _ _).mp found
          rw [← Option.some.inj same]
          exact List.forall_mem_cons.mpr ⟨alias_undotted name i, ih planned⟩

theorem planned_length {name : String} {entry : Bytes × Option String}
    (planned : Planned name entry) : entry.1.length = 11 := by
  rcases planned with ⟨short, _⟩ | ⟨_, _, whole⟩
  · obtain ⟨canon, made, same⟩ := Option.map_eq_some_iff.mp short
    rw [← same]
    exact (canon_read made).1.size
  · exact whole.size

theorem short_names_unique_of_sound (dir : Dir) (sound : dir.Sound) :
    dir.ShortNamesUnique ↔
      Undotted dir.names ∧ Supplied (dir.names.filterMap fits83) dir.names := by
  rw [← shorts_nodup_iff dir sound, ← plan_fields_supplied]
  constructor
  · rintro ⟨plan, made, distinct, _⟩
    exact ⟨distinct.sublist (shorts_sublist made), Option.isSome_of_mem made⟩
  · rintro ⟨apart, found⟩
    obtain ⟨plan, made⟩ := Option.isSome_iff_exists.mp found
    have shorts : ∀ name ∈ dir.names, ∀ field, fits83 name = some field →
        field ∈ dir.names.filterMap fits83 :=
      fun name member field fits => List.mem_filterMap.mpr ⟨name, member, fits⟩
    obtain ⟨distinct, aliases⟩ := plan_distinct made shorts apart
    refine ⟨plan, made, distinct, ?_, ?_⟩
    · intro entry member
      obtain ⟨name, _, planned⟩ := planned_entry made member
      have first := plan_undotted made entry member
      refine ⟨planned_length planned, ?_, ?_⟩
      all_goals
        intro same
        rw [same] at first
        exact absurd rfl first
    · intro field long member name inside fits
      exact aliases field long member (shorts name inside field fits)

/-- In a directory of a tree that was built the fields are unique exactly when no two names
differ by a dot at the end and every alias finds a number, as it does among fewer than ten
million children. -/
theorem short_names_unique_iff (root : Dir) (built : Built root) (dir : Dir)
    (inside : dir ∈ root :: root.directories) :
    (dir.ShortNamesUnique ↔
      Undotted dir.names ∧ Supplied (dir.names.filterMap fits83) dir.names) ∧
    (dir.names.length < 10 ^ 7 → (dir.ShortNamesUnique ↔ Undotted dir.names)) := by
  have sound : dir.Sound := by
    rcases List.mem_cons.mp inside with rfl | below
    · exact ⟨built_valid built, built_keyed built⟩
    · exact directories_sound root (built_valid built) (built_keyed built) dir below
  have whole := short_names_unique_of_sound dir sound
  refine ⟨whole, ?_⟩
  intro few
  have supplied : Supplied (dir.names.filterMap fits83) dir.names := by
    apply supplied_of_few
    rwa [short_and_long]
  rw [whole, and_iff_left supplied]

theorem short_names_unique_sample :
    (sampleTree.ShortNamesUnique ↔
      Undotted sampleTree.names ∧
        Supplied (sampleTree.names.filterMap fits83) sampleTree.names) ∧
    (sampleTree.names.length < 10 ^ 7 →
      (sampleTree.ShortNamesUnique ↔ Undotted sampleTree.names)) :=
  short_names_unique_iff sampleTree (.insertFile _ _ .empty) sampleTree List.mem_cons_self

/-- The files `FOO` and `FOO.`, which have two keys and one field. -/
def dottedTree : Dir := ((Dir.insertFile .nil "FOO" [1]).1.insertFile "FOO." [2]).1

theorem dotted_names_share_a_field :
    ¬∀ root : Dir, Built root → ∀ dir ∈ root :: root.directories, dir.ShortNamesUnique := by
  intro unique
  have built : Built dottedTree := .insertFile _ _ (.insertFile _ _ .empty)
  have kept := unique dottedTree built dottedTree List.mem_cons_self
  have undotted :=
    ((short_names_unique_of_sound dottedTree ⟨built_valid built, built_keyed built⟩).mp kept).1
  have names : dottedTree.names = ["FOO", "FOO."] := rfl
  rw [names] at undotted
  exact undotted "FOO" (by decide) "FOO." (by decide) rfl

end HorizonOs.Keybuild.Fat
