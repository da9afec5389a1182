import HorizonOs.Lib.Text
import HorizonOs.Lib.Utf16
import Mathlib.Data.List.TakeWhile

/-!
# JSON texts

What a string literal denotes by the JSON standard, and how arrays and objects of things with
a spelling of their own are spelled.
-/

namespace HorizonOs.Lib.JsonText

open HorizonOs.Lib.Text HorizonOs.Lib.Utf16

set_option autoImplicit false

/-! ## String literals -/

/-- The characters of the two-character escapes. -/
def escapedChar : Char → Option Char
  | '"' => some '"'
  | '\\' => some '\\'
  | '/' => some '/'
  | 'b' => some '\u0008'
  | 'f' => some '\u000C'
  | 'n' => some '\n'
  | 'r' => some '\r'
  | 't' => some '\t'
  | _ => none

/-- The code unit of four hexadecimal digits. -/
def hexUnit (a b c d : Char) : Option UInt16 := do
  let first ← hexValue a
  let second ← hexValue b
  let third ← hexValue c
  let fourth ← hexValue d
  some (UInt16.ofNat (4096 * first + 256 * second + 16 * third + fourth))

/-- The code units that what stands between two quotes denotes, where it is a literal: a
character below U+0020 has to be escaped, and an escape may be half of a surrogate pair. -/
def jsonUnits : List Char → Option (List UInt16)
  | [] => some []
  | c :: rest =>
      if c = '\\' then
        match rest with
        | [] => none
        | e :: tail =>
            if e = 'u' then
              match tail with
              | first :: second :: third :: fourth :: more => do
                  let unit ← hexUnit first second third fourth
                  let units ← jsonUnits more
                  some (unit :: units)
              | _ => none
            else do
              let escaped ← escapedChar e
              let units ← jsonUnits tail
              some (encodeChar escaped ++ units)
      else if c = '"' ∨ c.toNat < 0x20 then none
      else do
        let units ← jsonUnits rest
        some (encodeChar c ++ units)

/-- One character of a string, as it can be written. -/
inductive Piece where
  | plain (c : Char)
  | escape (e : Char)
  | unicode (a b c d : Char)

namespace Piece

def chars : Piece → List Char
  | plain c => [c]
  | escape e => ['\\', e]
  | unicode a b c d => ['\\', 'u', a, b, c, d]

/-- A piece of a literal in which control characters may stand as they are. -/
def Legal : Piece → Prop
  | plain c => c ≠ '"' ∧ c ≠ '\\'
  | escape e => (escapedChar e).isSome = true
  | unicode a b c d => (hexUnit a b c d).isSome = true

/-- A piece that denotes one character. -/
def Whole : Piece → Prop
  | plain c => 0x20 ≤ c.toNat
  | escape _ => True
  | unicode a b c d => ∀ unit ∈ hexUnit a b c d, unit.toNat < 0xD800 ∨ 0xE000 ≤ unit.toNat

/-- The units a piece denotes. -/
def units : Piece → Option (List UInt16)
  | plain c => if c.toNat < 0x20 then none else some (encodeChar c)
  | escape e => (escapedChar e).map encodeChar
  | unicode a b c d => (hexUnit a b c d).map fun unit => [unit]

/-- The character a reader makes of a piece that takes each escape by itself. -/
def read : Piece → Char
  | plain c => c
  | escape e => (escapedChar e).getD '\uFFFD'
  | unicode a b c d => (hexUnit a b c d).elim '\uFFFD' aloneChar

end Piece

def pieceChars (pieces : List Piece) : List Char := pieces.flatMap Piece.chars

theorem json_units_cons {piece : Piece} (legal : piece.Legal) (rest : List Char) :
    jsonUnits (piece.chars ++ rest) = piece.units.bind fun first =>
      (jsonUnits rest).map fun others => first ++ others := by
  cases piece with
  | plain c =>
      obtain ⟨quote, slash⟩ := legal
      rw [Piece.chars, List.singleton_append, jsonUnits.eq_def, Piece.units]
      by_cases low : c.toNat < 0x20
      · simp [slash, low]
      · simp only [if_neg slash, if_neg low, quote, false_or]
        cases jsonUnits rest <;> rfl
  | escape e =>
      have other : e ≠ 'u' := by
        rintro rfl
        cases legal
      rw [Piece.chars, List.cons_append, List.singleton_append, jsonUnits.eq_def]
      simp only [if_pos, if_neg other, Piece.units]
      cases escapedChar e with
      | none => rfl
      | some escaped => cases jsonUnits rest <;> rfl
  | unicode a b c d =>
      rw [Piece.chars, List.cons_append, List.cons_append, List.cons_append, List.cons_append,
        List.cons_append, List.singleton_append, jsonUnits.eq_def]
      simp only [if_pos, Piece.units]
      cases hexUnit a b c d with
      | none => rfl
      | some unit => cases jsonUnits rest <;> rfl

/-- A piece that denotes one character denotes the one that is read. -/
theorem units_of_whole {piece : Piece} (legal : piece.Legal) (whole : piece.Whole) :
    piece.units = some (encodeChar piece.read) := by
  cases piece with
  | plain c => exact if_neg (Nat.not_lt.mpr whole)
  | escape e =>
      obtain ⟨escaped, found⟩ := Option.isSome_iff_exists.mp legal
      rw [Piece.units, Piece.read, found]
      rfl
  | unicode a b c d =>
      obtain ⟨unit, found⟩ := Option.isSome_iff_exists.mp legal
      have plain := whole unit found
      have bound := unit.toNat_lt
      have number : (Char.ofNat unit.toNat).toNat = unit.toNat := by
        have valid : unit.toNat.isValidChar := by
          rw [Nat.isValidChar]
          omega
        rw [Char.ofNat, dif_pos valid]
        rfl
      rw [Piece.units, Piece.read, found, Option.map_some, Option.elim_some, aloneChar,
        if_neg (by omega), encodeChar, number, if_pos (by omega), UInt16.ofNat_toNat]

/-- Any other denotes nothing, or one unit that is not the one of what is read. -/
theorem units_of_broken {piece : Piece} (legal : piece.Legal) (broken : ¬piece.Whole) :
    piece.units = none ∨ ∃ unit, piece.units = some [unit] ∧
      ∃ other, encodeChar piece.read = [other] ∧ unit ≠ other := by
  cases piece with
  | plain c => exact .inl (if_pos (Nat.lt_of_not_le broken))
  | escape e => exact absurd trivial broken
  | unicode a b c d =>
      obtain ⟨unit, found⟩ := Option.isSome_iff_exists.mp legal
      have surrogate : 0xD800 ≤ unit.toNat ∧ unit.toNat < 0xE000 := by
        by_contra plain
        apply broken
        intro other same
        rw [found] at same
        cases same
        omega
      refine .inr ⟨unit, by rw [Piece.units, found]; rfl, 0xFFFD, ?_, ?_⟩
      · rw [Piece.read, found, Option.elim_some, aloneChar, if_pos surrogate]
        decide
      · rintro rfl
        exact absurd surrogate.2 (by decide)

/-- A literal denotes what is read of it, piece by piece, exactly when every piece denotes one
character. -/
theorem json_units_iff (pieces : List Piece) (legal : ∀ piece ∈ pieces, piece.Legal) :
    jsonUnits (pieceChars pieces) = some ((pieces.map Piece.read).flatMap encodeChar) ↔
      ∀ piece ∈ pieces, piece.Whole := by
  induction pieces with
  | nil => simp [pieceChars, jsonUnits]
  | cons piece pieces ih =>
      obtain ⟨here, others⟩ := List.forall_mem_cons.mp legal
      rw [pieceChars, List.flatMap_cons, json_units_cons here, List.map_cons, List.flatMap_cons,
        List.forall_mem_cons, ← ih others, ← pieceChars]
      by_cases whole : piece.Whole
      · rw [units_of_whole here whole, Option.bind_some]
        cases jsonUnits (pieceChars pieces) with
        | none => simp [whole]
        | some found => simp [whole]
      · rcases units_of_broken here whole with none | ⟨unit, one, other, read, apart⟩
        · simp [none, whole]
        · rw [one, read, Option.bind_some]
          cases jsonUnits (pieceChars pieces) with
          | none => simp [whole]
          | some found => simp [whole, apart]

/-- What is read of a literal. -/
def readText (pieces : List Piece) : String := String.ofList (pieces.map Piece.read)

/-- A text without quotes and backslashes, as a literal. -/
def plainPieces (text : List Char) : List Piece := text.map Piece.plain

theorem plain_piece_chars (text : List Char) : pieceChars (plainPieces text) = text := by
  induction text with
  | nil => rfl
  | cons c rest ih =>
      rw [plainPieces, List.map_cons, pieceChars, List.flatMap_cons, ← plainPieces, ← pieceChars, ih]
      rfl

theorem read_plain_pieces (text : String) : readText (plainPieces text.toList) = text := by
  have same : (text.toList.map Piece.plain).map Piece.read = text.toList := by
    rw [List.map_map]
    exact List.map_id _
  rw [readText, plainPieces, same, String.ofList_toList]

/-! ## Arrays and objects -/

def isBlank (c : Char) : Bool := c = ' ' || c = '\t' || c = '\n' || c = '\r'

def Blank (s : List Char) : Prop := ∀ c ∈ s, isBlank c = true

def quoted (pieces : List Piece) : List Char := '"' :: pieceChars pieces ++ ['"']

section Spelling

variable {V : Type}

/-- The members of an object that is not empty. -/
inductive Members (spell : V → List Char → Prop) : List (List Piece × V) → List Char → Prop where
  | last {a b c d s : List Char} {key : List Piece} {value : V} (before : Blank a) (behind : Blank b)
      (inner : Blank c) (after : Blank d) (legal : ∀ piece ∈ key, piece.Legal)
      (spelled : spell value s) :
      Members spell [(key, value)] (a ++ quoted key ++ b ++ ':' :: c ++ s ++ d)
  | more {a b c d s rest : List Char} {key : List Piece} {value : V}
      {others : List (List Piece × V)} (before : Blank a) (behind : Blank b) (inner : Blank c)
      (after : Blank d) (legal : ∀ piece ∈ key, piece.Legal) (spelled : spell value s)
      (tail : Members spell others rest) :
      Members spell ((key, value) :: others)
        (a ++ quoted key ++ b ++ ':' :: c ++ s ++ d ++ ',' :: rest)

inductive ObjectText (spell : V → List Char → Prop) : List (List Piece × V) → List Char → Prop where
  | empty {a : List Char} (inner : Blank a) : ObjectText spell [] ('{' :: a ++ ['}'])
  | members {members : List (List Piece × V)} {s : List Char} (inner : Members spell members s) :
      ObjectText spell members ('{' :: s ++ ['}'])

/-- The items of an array that is not empty. -/
inductive Items (spell : V → List Char → Prop) : List V → List Char → Prop where
  | last {a b s : List Char} {value : V} (before : Blank a) (behind : Blank b)
      (spelled : spell value s) : Items spell [value] (a ++ s ++ b)
  | more {a b s rest : List Char} {value : V} {others : List V} (before : Blank a)
      (behind : Blank b) (spelled : spell value s) (tail : Items spell others rest) :
      Items spell (value :: others) (a ++ s ++ b ++ ',' :: rest)

end Spelling

theorem Members.spelled {V : Type} {spell : V → List Char → Prop} {members : List (List Piece × V)}
    {s : List Char} (whole : Members spell members s) :
    ∀ entry ∈ members, ∃ t, spell entry.2 t := by
  induction whole with
  | last _ _ _ _ _ here => exact List.forall_mem_singleton.mpr ⟨_, here⟩
  | more _ _ _ _ _ here _ ih => exact List.forall_mem_cons.mpr ⟨⟨_, here⟩, ih⟩

theorem ObjectText.spelled {V : Type} {spell : V → List Char → Prop}
    {members : List (List Piece × V)} {s : List Char} (whole : ObjectText spell members s) :
    ∀ entry ∈ members, ∃ t, spell entry.2 t := by
  cases whole with
  | empty _ => exact List.forall_mem_nil _
  | members inner => exact inner.spelled

theorem Items.spelled {V : Type} {spell : V → List Char → Prop} {items : List V} {s : List Char}
    (whole : Items spell items s) : ∀ item ∈ items, ∃ t, spell item t := by
  induction whole with
  | last _ _ here => exact List.forall_mem_singleton.mpr ⟨_, here⟩
  | more _ _ here _ ih => exact List.forall_mem_cons.mpr ⟨⟨_, here⟩, ih⟩

/-- A string literal. -/
def StringText (pieces : List Piece) (s : List Char) : Prop :=
  s = quoted pieces ∧ ∀ piece ∈ pieces, piece.Legal

/-! ## What a text spells is unique -/

/-- No spelling is the start of another. -/
def PrefixFree {V : Type} (spell : V → List Char → Prop) : Prop :=
  ∀ v s w t r r', spell v s → spell w t → s ++ r = t ++ r' → v = w ∧ s = t

/-- Every spelling starts with a character that is no blank. -/
def Solid {V : Type} (spell : V → List Char → Prop) : Prop :=
  ∀ v s, spell v s → ∃ c t, s = c :: t ∧ isBlank c = false

theorem blank_unique {a b r r' : List Char} {c d : Char} (first : Blank a) (second : Blank b)
    (solid : isBlank c = false) (solid' : isBlank d = false)
    (same : a ++ c :: r = b ++ d :: r') : a = b ∧ c = d ∧ r = r' := by
  have leading : ∀ {blank tail : List Char} {e : Char}, Blank blank → isBlank e = false →
      (blank ++ e :: tail).takeWhile isBlank = blank := by
    intro blank tail e all other
    rw [List.takeWhile_append_of_pos all, List.takeWhile_cons_of_neg (by rw [other]; simp),
      List.append_nil]
  have blanks : (a ++ c :: r).takeWhile isBlank = a := leading first solid
  rw [same, leading second solid'] at blanks
  rw [blanks] at same
  obtain ⟨rfl, rest⟩ := List.cons.inj (List.append_cancel_left same)
  exact ⟨blanks.symm, rfl, rest⟩

theorem pieces_unique {pieces others : List Piece} (legal : ∀ piece ∈ pieces, piece.Legal)
    (otherLegal : ∀ piece ∈ others, piece.Legal) {r r' : List Char}
    (same : pieceChars pieces ++ '"' :: r = pieceChars others ++ '"' :: r') : pieces = others := by
  induction pieces generalizing others with
  | nil =>
      cases others with
      | nil => rfl
      | cons piece others =>
          have there := (List.forall_mem_cons.mp otherLegal).1
          cases piece with
          | plain c => exact absurd (List.cons.inj same).1.symm there.1
          | escape e => cases (List.cons.inj same).1
          | unicode a b c d => cases (List.cons.inj same).1
  | cons piece pieces ih =>
      obtain ⟨here, tail⟩ := List.forall_mem_cons.mp legal
      cases others with
      | nil =>
          cases piece with
          | plain c => exact absurd (List.cons.inj same).1 here.1
          | escape e => cases (List.cons.inj same).1
          | unicode a b c d => cases (List.cons.inj same).1
      | cons other others =>
          obtain ⟨there, otherTail⟩ := List.forall_mem_cons.mp otherLegal
          rw [pieceChars, pieceChars, List.flatMap_cons, List.flatMap_cons] at same
          have both : piece = other ∧
              pieceChars pieces ++ '"' :: r = pieceChars others ++ '"' :: r' := by
            cases piece with
            | plain c =>
                cases other with
                | plain d =>
                    obtain ⟨rfl, rest⟩ := List.cons.inj same
                    exact ⟨rfl, rest⟩
                | escape e => exact absurd (List.cons.inj same).1 here.2
                | unicode a b c d => exact absurd (List.cons.inj same).1 here.2
            | escape e =>
                cases other with
                | plain d => exact absurd (List.cons.inj same).1.symm there.2
                | escape f =>
                    obtain ⟨rfl, rest⟩ := List.cons.inj (List.cons.inj same).2
                    exact ⟨rfl, rest⟩
                | unicode a b c d =>
                    obtain ⟨rfl, _⟩ := List.cons.inj (List.cons.inj same).2
                    cases here
            | unicode a b c d =>
                cases other with
                | plain d => exact absurd (List.cons.inj same).1.symm there.2
                | escape f =>
                    obtain ⟨rfl, _⟩ := List.cons.inj (List.cons.inj same).2
                    cases there
                | unicode a' b' c' d' =>
                    simp only [Piece.chars, List.cons_append, List.cons.injEq, true_and,
                      List.nil_append] at same
                    obtain ⟨rfl, rfl, rfl, rfl, rest⟩ := same
                    exact ⟨rfl, rest⟩
          rw [both.1, ih tail otherTail both.2]

theorem string_prefix_free : PrefixFree StringText := by
  rintro pieces s others t r r' ⟨rfl, legal⟩ ⟨rfl, otherLegal⟩ same
  rw [quoted, quoted, List.cons_append, List.cons_append, List.cons_append, List.cons_append,
    List.append_assoc, List.append_assoc] at same
  obtain rfl := pieces_unique legal otherLegal (List.cons.inj same).2
  exact ⟨rfl, rfl⟩

theorem string_solid : Solid StringText := by
  rintro pieces s ⟨rfl, _⟩
  exact ⟨'"', _, rfl, by decide⟩

section Uniqueness

variable {V : Type} {spell : V → List Char → Prop}

/-- A key and a value with their blanks, before a character that is no blank. -/
theorem entry_unique (free : PrefixFree spell) (solid : Solid spell)
    {a b c d s a' b' c' d' s' r r' : List Char} {key key' : List Piece} {value value' : V}
    {next next' : Char} (blanks : Blank a ∧ Blank b ∧ Blank c ∧ Blank d)
    (blanks' : Blank a' ∧ Blank b' ∧ Blank c' ∧ Blank d')
    (legal : (∀ piece ∈ key, piece.Legal) ∧ ∀ piece ∈ key', piece.Legal)
    (spelled : spell value s) (spelled' : spell value' s')
    (apart : isBlank next = false) (apart' : isBlank next' = false)
    (same : a ++ quoted key ++ b ++ ':' :: c ++ s ++ d ++ next :: r =
      a' ++ quoted key' ++ b' ++ ':' :: c' ++ s' ++ d' ++ next' :: r') :
    a ++ quoted key ++ b ++ ':' :: c ++ s ++ d =
        a' ++ quoted key' ++ b' ++ ':' :: c' ++ s' ++ d' ∧
      key = key' ∧ value = value' ∧ next = next' ∧ r = r' := by
  obtain ⟨c₁, t₁, start, solid₁⟩ := solid _ _ spelled
  obtain ⟨c₂, t₂, start', solid₂⟩ := solid _ _ spelled'
  have shape : ∀ (x y z w v : List Char) (k : List Piece) (e : Char) (m : List Char),
      x ++ quoted k ++ y ++ ':' :: z ++ v ++ w ++ e :: m =
        x ++ '"' :: (pieceChars k ++ '"' :: (y ++ ':' :: (z ++ (v ++ (w ++ e :: m))))) := by
    intro x y z w v k e m
    simp [quoted]
  rw [shape, shape] at same
  obtain ⟨rfl, _, keys⟩ := blank_unique blanks.1 blanks'.1 (by decide) (by decide) same
  obtain rfl := pieces_unique legal.1 legal.2 keys
  have colons := (List.cons.inj (List.append_cancel_left keys)).2
  obtain ⟨rfl, _, values⟩ := blank_unique blanks.2.1 blanks'.2.1 (by decide) (by decide) colons
  have inner : c = c' := by
    rw [start, start', List.cons_append, List.cons_append] at values
    exact (blank_unique blanks.2.2.1 blanks'.2.2.1 solid₁ solid₂ values).1
  rw [inner] at values
  have others := List.append_cancel_left values
  obtain ⟨rfl, rfl⟩ := free _ _ _ _ _ _ spelled spelled' others
  obtain ⟨rfl, rfl, rfl⟩ := blank_unique blanks.2.2.2 blanks'.2.2.2 apart apart'
    (List.append_cancel_left others)
  rw [inner]
  exact ⟨rfl, rfl, rfl, rfl, rfl⟩

theorem members_unique (free : PrefixFree spell) (solid : Solid spell)
    {members others : List (List Piece × V)} {s t r r' : List Char}
    (first : Members spell members s) (second : Members spell others t)
    (same : s ++ '\x7d' :: r = t ++ '\x7d' :: r') : members = others ∧ s = t := by
  induction first generalizing others t with
  | last before behind inner after legal spelled =>
      cases second with
      | last before' behind' inner' after' legal' spelled' =>
          obtain ⟨texts, rfl, rfl, _, _⟩ := entry_unique free solid ⟨before, behind, inner, after⟩
            ⟨before', behind', inner', after'⟩ ⟨legal, legal'⟩ spelled spelled' (by decide)
            (by decide) same
          exact ⟨rfl, texts⟩
      | more before' behind' inner' after' legal' spelled' _ =>
          rw [List.append_assoc _ (',' :: _), List.cons_append] at same
          obtain ⟨_, _, _, none, _⟩ := entry_unique free solid ⟨before, behind, inner, after⟩
            ⟨before', behind', inner', after'⟩ ⟨legal, legal'⟩ spelled spelled' (by decide)
            (by decide) same
          cases none
  | more before behind inner after legal spelled tail ih =>
      cases second with
      | last before' behind' inner' after' legal' spelled' =>
          rw [List.append_assoc _ (',' :: _), List.cons_append] at same
          obtain ⟨_, _, _, none, _⟩ := entry_unique free solid ⟨before, behind, inner, after⟩
            ⟨before', behind', inner', after'⟩ ⟨legal, legal'⟩ spelled spelled' (by decide)
            (by decide) same
          cases none
      | more before' behind' inner' after' legal' spelled' tail' =>
          rw [List.append_assoc _ (',' :: _), List.append_assoc _ (',' :: _), List.cons_append,
            List.cons_append] at same
          obtain ⟨texts, rfl, rfl, _, rest⟩ := entry_unique free solid
            ⟨before, behind, inner, after⟩ ⟨before', behind', inner', after'⟩ ⟨legal, legal'⟩
            spelled spelled' (by decide) (by decide) same
          obtain ⟨rfl, rfl⟩ := ih tail' rest
          exact ⟨rfl, by rw [texts]⟩

/-- Members start with the quote of their first key. -/
theorem members_front {members : List (List Piece × V)} {s : List Char}
    (spelled : Members spell members s) : ∃ a rest, s = a ++ '"' :: rest ∧ Blank a := by
  cases spelled with
  | @last a b c d t key _ before =>
      exact ⟨a, pieceChars key ++ ['"'] ++ b ++ ':' :: c ++ t ++ d, by simp [quoted], before⟩
  | @more a b c d t rest key _ _ before =>
      exact ⟨a, pieceChars key ++ ['"'] ++ b ++ ':' :: c ++ t ++ d ++ ',' :: rest,
        by simp [quoted], before⟩

theorem no_members {members : List (List Piece × V)} {a s r r' : List Char} (inner : Blank a)
    (spelled : Members spell members s)
    (same : a ++ '\x7d' :: r = s ++ '\x7d' :: r') : False := by
  obtain ⟨before, rest, rfl, blank⟩ := members_front spelled
  rw [List.append_assoc, List.cons_append] at same
  obtain ⟨_, quote, _⟩ := blank_unique inner blank (by decide) (by decide) same
  cases quote

theorem object_prefix_free (free : PrefixFree spell) (solid : Solid spell) :
    PrefixFree (ObjectText spell) := by
  intro members s others t r r' first second same
  cases first with
  | empty inner =>
      cases second with
      | empty inner' =>
          simp only [List.cons_append, List.append_assoc, List.nil_append] at same
          obtain ⟨rfl, _, _⟩ := blank_unique inner inner' (by decide) (by decide)
            (List.cons.inj same).2
          exact ⟨rfl, rfl⟩
      | members spelled' =>
          simp only [List.cons_append, List.append_assoc, List.nil_append] at same
          exact (no_members inner spelled' (List.cons.inj same).2).elim
  | members spelled =>
      cases second with
      | empty inner' =>
          simp only [List.cons_append, List.append_assoc, List.nil_append] at same
          exact (no_members inner' spelled (List.cons.inj same).2.symm).elim
      | members spelled' =>
          simp only [List.cons_append, List.append_assoc, List.nil_append] at same
          obtain ⟨rfl, rfl⟩ := members_unique free solid spelled spelled' (List.cons.inj same).2
          exact ⟨rfl, rfl⟩

theorem object_solid : Solid (ObjectText spell) := by
  intro members s spelled
  cases spelled with
  | empty _ => exact ⟨'\x7b', _, rfl, by decide⟩
  | members _ => exact ⟨'\x7b', _, rfl, by decide⟩

/-- An item with its blanks, before a character that is no blank. -/
theorem item_unique (free : PrefixFree spell) (solid : Solid spell)
    {a b s a' b' s' r r' : List Char} {value value' : V} {next next' : Char}
    (blanks : Blank a ∧ Blank b) (blanks' : Blank a' ∧ Blank b') (spelled : spell value s)
    (spelled' : spell value' s') (apart : isBlank next = false) (apart' : isBlank next' = false)
    (same : a ++ s ++ b ++ next :: r = a' ++ s' ++ b' ++ next' :: r') :
    value = value' ∧ next = next' ∧ r = r' := by
  obtain ⟨c₁, t₁, start, solid₁⟩ := solid _ _ spelled
  obtain ⟨c₂, t₂, start', solid₂⟩ := solid _ _ spelled'
  simp only [List.append_assoc] at same
  have front : a = a' := by
    rw [start, start', List.cons_append, List.cons_append] at same
    exact (blank_unique blanks.1 blanks'.1 solid₁ solid₂ same).1
  rw [front] at same
  have others := List.append_cancel_left same
  obtain ⟨rfl, rfl⟩ := free _ _ _ _ _ _ spelled spelled' others
  obtain ⟨_, rfl, rfl⟩ := blank_unique blanks.2 blanks'.2 apart apart'
    (List.append_cancel_left others)
  exact ⟨rfl, rfl, rfl⟩

theorem items_unique (free : PrefixFree spell) (solid : Solid spell) {items others : List V}
    {s t r r' : List Char} (first : Items spell items s) (second : Items spell others t)
    (same : s ++ ']' :: r = t ++ ']' :: r') : items = others := by
  induction first generalizing others t with
  | last before behind spelled =>
      cases second with
      | last before' behind' spelled' =>
          obtain ⟨rfl, _, _⟩ := item_unique free solid ⟨before, behind⟩ ⟨before', behind'⟩ spelled
            spelled' (by decide) (by decide) same
          rfl
      | more before' behind' spelled' _ =>
          rw [List.append_assoc _ (',' :: _), List.cons_append] at same
          obtain ⟨_, none, _⟩ := item_unique free solid ⟨before, behind⟩ ⟨before', behind'⟩ spelled
            spelled' (by decide) (by decide) same
          cases none
  | more before behind spelled tail ih =>
      cases second with
      | last before' behind' spelled' =>
          rw [List.append_assoc _ (',' :: _), List.cons_append] at same
          obtain ⟨_, none, _⟩ := item_unique free solid ⟨before, behind⟩ ⟨before', behind'⟩ spelled
            spelled' (by decide) (by decide) same
          cases none
      | more before' behind' spelled' tail' =>
          rw [List.append_assoc _ (',' :: _), List.append_assoc _ (',' :: _), List.cons_append,
            List.cons_append] at same
          obtain ⟨rfl, _, rest⟩ := item_unique free solid ⟨before, behind⟩ ⟨before', behind'⟩
            spelled spelled' (by decide) (by decide) same
          rw [ih tail' rest]

end Uniqueness

end HorizonOs.Lib.JsonText
