import Mathlib.Data.List.Basic
import Mathlib.Data.List.TakeWhile

/-!
# GBNF grammars

Grammars as a constrained sampler reads them: which texts a grammar derives, and the tokens
its notation is made of.
-/

namespace HorizonOs.Lib.Gbnf

set_option autoImplicit false

/-- What a rule is made of. -/
inductive Elem where
  | text (chars : List Char)
  | oneOf (except : Bool) (ranges : List (Char × Char))
  | rule (name : List Char)
  | many (elem : Elem)
  | maybe (elem : Elem)
  | group (alternatives : List (List Elem))

structure Rule where
  name : List Char
  alternatives : List (List Elem)

abbrev Grammar := List Rule

def inRanges (ranges : List (Char × Char)) (c : Char) : Bool :=
  ranges.any fun range => range.1 ≤ c && c ≤ range.2

/-- Ranges of one character each. -/
theorem in_singles_iff (chars : List Char) (c : Char) :
    inRanges (chars.map fun single => (single, single)) c = true ↔ c ∈ chars := by
  rw [inRanges, List.any_map, List.any_eq_true]
  constructor
  · rintro ⟨single, member, both⟩
    rw [Function.comp_apply, Bool.and_eq_true, decide_eq_true_eq, decide_eq_true_eq] at both
    exact Char.le_antisymm both.1 both.2 ▸ member
  · intro member
    refine ⟨c, member, ?_⟩
    rw [Function.comp_apply, Bool.and_eq_true, decide_eq_true_eq]
    exact ⟨Char.le_refl c, Char.le_refl c⟩

/-- The texts of a sequence. Rules of one name are alternatives of each other; a reader that
keeps one of them derives no more. -/
inductive Derives (g : Grammar) : List Elem → List Char → Prop where
  | nil : Derives g [] []
  | text {chars s : List Char} {rest : List Elem} (behind : Derives g rest s) :
      Derives g (.text chars :: rest) (chars ++ s)
  | oneOf {except : Bool} {ranges : List (Char × Char)} {c : Char} {s : List Char}
      {rest : List Elem} (listed : inRanges ranges c = !except) (behind : Derives g rest s) :
      Derives g (.oneOf except ranges :: rest) (c :: s)
  | rule {entry : Rule} {body rest : List Elem} {s t : List Char} (member : entry ∈ g)
      (chosen : body ∈ entry.alternatives) (inner : Derives g body s) (behind : Derives g rest t) :
      Derives g (.rule entry.name :: rest) (s ++ t)
  | none {elem : Elem} {rest : List Elem} {s : List Char} (behind : Derives g rest s) :
      Derives g (.many elem :: rest) s
  | more {elem : Elem} {rest : List Elem} {s t : List Char} (first : Derives g [elem] s)
      (behind : Derives g (.many elem :: rest) t) : Derives g (.many elem :: rest) (s ++ t)
  | absent {elem : Elem} {rest : List Elem} {s : List Char} (behind : Derives g rest s) :
      Derives g (.maybe elem :: rest) s
  | present {elem : Elem} {rest : List Elem} {s t : List Char} (first : Derives g [elem] s)
      (behind : Derives g rest t) : Derives g (.maybe elem :: rest) (s ++ t)
  | group {alternatives : List (List Elem)} {body rest : List Elem} {s t : List Char}
      (chosen : body ∈ alternatives) (inner : Derives g body s) (behind : Derives g rest t) :
      Derives g (.group alternatives :: rest) (s ++ t)

section Rules

variable {g : Grammar} {s : List Char}

/-! ## Sequences -/

theorem derives_nil_iff : Derives g [] s ↔ s = [] := by
  constructor
  · rintro ⟨⟩
    rfl
  · rintro rfl
    exact .nil

/-- One element in front of a sequence. -/
theorem Derives.cons {elem : Elem} {rest : List Elem} {first behind : List Char}
    (here : Derives g [elem] first) (others : Derives g rest behind) :
    Derives g (elem :: rest) (first ++ behind) := by
  generalize whole : [elem] = sequence at here
  induction here with
  | nil => cases whole
  | text inner ih =>
      cases whole
      rw [derives_nil_iff.mp inner, List.append_nil]
      exact .text others
  | oneOf listed inner ih =>
      cases whole
      rw [derives_nil_iff.mp inner]
      exact .oneOf listed others
  | rule member chosen inner last _ ih =>
      cases whole
      rw [derives_nil_iff.mp last, List.append_nil]
      exact .rule member chosen inner others
  | none inner ih =>
      cases whole
      rw [derives_nil_iff.mp inner]
      exact .none others
  | more one last _ ih =>
      cases whole
      rw [List.append_assoc]
      exact .more one (ih rfl)
  | absent inner ih =>
      cases whole
      rw [derives_nil_iff.mp inner]
      exact .absent others
  | present one last _ ih =>
      cases whole
      rw [derives_nil_iff.mp last, List.append_nil]
      exact .present one others
  | group chosen inner last _ ih =>
      cases whole
      rw [derives_nil_iff.mp last, List.append_nil]
      exact .group chosen inner others

theorem derives_cons_iff {elem : Elem} {rest : List Elem} : Derives g (elem :: rest) s ↔
    ∃ first behind, s = first ++ behind ∧ Derives g [elem] first ∧ Derives g rest behind := by
  constructor
  · intro derived
    generalize whole : elem :: rest = sequence at derived
    induction derived with
    | nil => cases whole
    | text inner ih =>
        cases whole
        exact ⟨_, _, rfl, by simpa using Derives.text .nil, inner⟩
    | oneOf listed inner ih =>
        cases whole
        exact ⟨[_], _, rfl, .oneOf listed .nil, inner⟩
    | rule member chosen inner last _ ih =>
        cases whole
        exact ⟨_, _, rfl, by simpa using Derives.rule member chosen inner .nil, last⟩
    | none inner ih =>
        cases whole
        exact ⟨[], _, rfl, .none .nil, inner⟩
    | more one last _ ih =>
        cases whole
        obtain ⟨first, behind, rfl, others, tail⟩ := ih rfl
        exact ⟨_, behind, (List.append_assoc _ _ _).symm, .more one others, tail⟩
    | absent inner ih =>
        cases whole
        exact ⟨[], _, rfl, .absent .nil, inner⟩
    | present one last _ ih =>
        cases whole
        exact ⟨_, _, rfl, by simpa using Derives.present one .nil, last⟩
    | group chosen inner last _ ih =>
        cases whole
        exact ⟨_, _, rfl, by simpa using Derives.group chosen inner .nil, last⟩
  · rintro ⟨first, behind, rfl, here, others⟩
    exact here.cons others

theorem derives_append_iff {left right : List Elem} : Derives g (left ++ right) s ↔
    ∃ first behind, s = first ++ behind ∧ Derives g left first ∧ Derives g right behind := by
  induction left generalizing s with
  | nil =>
      constructor
      · intro derived
        exact ⟨[], s, rfl, .nil, derived⟩
      · rintro ⟨first, behind, rfl, none, derived⟩
        rw [derives_nil_iff.mp none]
        exact derived
  | cons elem left ih =>
      rw [List.cons_append, derives_cons_iff]
      constructor
      · rintro ⟨first, behind, rfl, here, others⟩
        obtain ⟨middle, last, rfl, inner, tail⟩ := ih.mp others
        exact ⟨first ++ middle, last, (List.append_assoc _ _ _).symm, here.cons inner, tail⟩
      · rintro ⟨first, behind, rfl, front, tail⟩
        obtain ⟨here, middle, rfl, one, inner⟩ := derives_cons_iff.mp front
        exact ⟨here, middle ++ behind, List.append_assoc _ _ _, one, ih.mpr ⟨middle, behind, rfl, inner, tail⟩⟩

/-! ## Single elements -/

theorem derives_text_iff {chars : List Char} : Derives g [.text chars] s ↔ s = chars := by
  constructor
  · intro derived
    cases derived with
    | text inner => rw [derives_nil_iff.mp inner, List.append_nil]
  · rintro rfl
    have one : Derives g [.text s] (s ++ []) := .text .nil
    rwa [List.append_nil] at one

theorem derives_text_cons_iff {chars : List Char} {rest : List Elem} :
    Derives g (.text chars :: rest) s ↔ ∃ behind, s = chars ++ behind ∧ Derives g rest behind := by
  rw [derives_cons_iff]
  constructor
  · rintro ⟨first, behind, rfl, here, others⟩
    exact ⟨behind, by rw [derives_text_iff.mp here], others⟩
  · rintro ⟨behind, rfl, others⟩
    exact ⟨chars, behind, rfl, derives_text_iff.mpr rfl, others⟩

theorem derives_one_of_iff {except : Bool} {ranges : List (Char × Char)} :
    Derives g [.oneOf except ranges] s ↔ ∃ c, s = [c] ∧ inRanges ranges c = !except := by
  constructor
  · intro derived
    cases derived with
    | oneOf listed inner =>
        rw [derives_nil_iff.mp inner]
        exact ⟨_, rfl, listed⟩
  · rintro ⟨c, rfl, listed⟩
    exact .oneOf listed .nil

theorem derives_rule_iff {name : List Char} : Derives g [.rule name] s ↔
    ∃ entry ∈ g, entry.name = name ∧ ∃ body ∈ entry.alternatives, Derives g body s := by
  constructor
  · intro derived
    generalize whole : [Elem.rule name] = sequence at derived
    cases derived with
    | rule member chosen inner behind =>
        cases whole
        rw [derives_nil_iff.mp behind, List.append_nil]
        exact ⟨_, member, rfl, _, chosen, inner⟩
    | _ => cases whole
  · rintro ⟨entry, member, rfl, body, chosen, inner⟩
    simpa using Derives.rule member chosen inner .nil

theorem derives_group_iff {alternatives : List (List Elem)} :
    Derives g [.group alternatives] s ↔ ∃ body ∈ alternatives, Derives g body s := by
  constructor
  · intro derived
    cases derived with
    | group chosen inner behind =>
        rw [derives_nil_iff.mp behind, List.append_nil]
        exact ⟨_, chosen, inner⟩
  · rintro ⟨body, chosen, inner⟩
    simpa using Derives.group chosen inner .nil

theorem derives_maybe_iff {elem : Elem} :
    Derives g [.maybe elem] s ↔ s = [] ∨ Derives g [elem] s := by
  constructor
  · intro derived
    cases derived with
    | absent behind => exact .inl (derives_nil_iff.mp behind)
    | present first behind =>
        rw [derives_nil_iff.mp behind, List.append_nil]
        exact .inr first
  · rintro (rfl | first)
    · exact .absent .nil
    · simpa using Derives.present first .nil

/-- A repetition is any number of its element. -/
theorem derives_many_iff {elem : Elem} : Derives g [.many elem] s ↔
    ∃ parts : List (List Char), s = parts.flatten ∧ ∀ part ∈ parts, Derives g [elem] part := by
  constructor
  · intro derived
    generalize whole : [Elem.many elem] = sequence at derived
    induction derived with
    | none inner ih =>
        cases whole
        exact ⟨[], derives_nil_iff.mp inner, List.forall_mem_nil _⟩
    | more one last _ ih =>
        cases whole
        obtain ⟨parts, rfl, all⟩ := ih rfl
        exact ⟨_ :: parts, rfl, List.forall_mem_cons.mpr ⟨one, all⟩⟩
    | _ => cases whole
  · rintro ⟨parts, rfl, all⟩
    induction parts with
    | nil => exact .none .nil
    | cons part parts ih =>
        obtain ⟨one, others⟩ := List.forall_mem_cons.mp all
        exact .more one (ih others)

end Rules

/-! ## Notation -/

inductive Token where
  | name (chars : List Char)
  | text (chars : List Char)
  | oneOf (except : Bool) (ranges : List (Char × Char))
  | assign
  | bar
  | opening
  | closing
  | star
  | question
  | newline

/-- A text as it stands between quotes. -/
def quoteChar : Char → List Char
  | '"' => ['\\', '"']
  | '\\' => ['\\', '\\']
  | c => [c]

/-- A character as it stands between brackets. -/
def bracketChar : Char → List Char
  | '\\' => ['\\', '\\']
  | '\t' => ['\\', 't']
  | '\n' => ['\\', 'n']
  | c => [c]

def rangeChars (range : Char × Char) : List Char :=
  if range.1 = range.2 then bracketChar range.1
  else bracketChar range.1 ++ '-' :: bracketChar range.2

def Token.chars : Token → List Char
  | .name chars => chars
  | .text chars => '"' :: chars.flatMap quoteChar ++ ['"']
  | .oneOf except ranges =>
      '[' :: (if except then ['^'] else []) ++ ranges.flatMap rangeChars ++ [']']
  | .assign => "::=".toList
  | .bar => ['|']
  | .opening => ['(']
  | .closing => [')']
  | .star => ['*']
  | .question => ['?']
  | .newline => ['\n']

mutual

def Elem.tokens : Elem → List Token
  | .text chars => [.text chars]
  | .oneOf except ranges => [.oneOf except ranges]
  | .rule name => [.name name]
  | .many elem => elem.tokens ++ [.star]
  | .maybe elem => elem.tokens ++ [.question]
  | .group alternatives => .opening :: alternativesTokens alternatives ++ [.closing]

def sequenceTokens : List Elem → List Token
  | [] => []
  | elem :: rest => elem.tokens ++ sequenceTokens rest

def alternativesTokens : List (List Elem) → List Token
  | [] => []
  | [body] => sequenceTokens body
  | body :: rest => sequenceTokens body ++ .bar :: alternativesTokens rest

end

def Rule.tokens (rule : Rule) : List Token :=
  .name rule.name :: .assign :: alternativesTokens rule.alternatives ++ [.newline]

/-- A text that consists of these tokens, with blanks between them. -/
inductive Layout : List Token → List Char → Prop where
  | nil : Layout [] []
  | blank {tokens : List Token} {s : List Char} (rest : Layout tokens s) : Layout tokens (' ' :: s)
  | token {token : Token} {tokens : List Token} {s : List Char} (rest : Layout tokens s) :
      Layout (token :: tokens) (token.chars ++ s)

/-- A text is the notation of a grammar. -/
def Notes (g : Grammar) (s : List Char) : Prop := Layout (g.flatMap Rule.tokens) s

theorem Layout.append {left right : List Token} {s t : List Char} (front : Layout left s)
    (back : Layout right t) : Layout (left ++ right) (s ++ t) := by
  induction front with
  | nil => exact back
  | blank rest ih => exact .blank ih
  | token rest ih =>
      rw [List.cons_append, List.append_assoc]
      exact .token ih

/-- Reading the tokens off a text. -/
def isLayout : List Token → List Char → Bool
  | [], s => s.all (· = ' ')
  | token :: tokens, s =>
      token.chars.isPrefixOf (s.dropWhile (· = ' ')) &&
        isLayout tokens ((s.dropWhile (· = ' ')).drop token.chars.length)

theorem layout_of_blanks {tokens : List Token} {s : List Char}
    (inner : Layout tokens (s.dropWhile (· = ' '))) : Layout tokens s := by
  induction s with
  | nil => exact inner
  | cons c rest ih =>
      by_cases blank : c = ' '
      · rw [List.dropWhile_cons_of_pos (by simpa using blank)] at inner
        rw [blank]
        exact .blank (ih inner)
      · rwa [List.dropWhile_cons_of_neg (by simpa using blank)] at inner

theorem layout_of_is_layout {tokens : List Token} {s : List Char} (read : isLayout tokens s = true) :
    Layout tokens s := by
  induction tokens generalizing s with
  | nil =>
      apply layout_of_blanks
      rw [isLayout, List.all_eq_true] at read
      rw [List.dropWhile_eq_nil_iff.mpr read]
      exact .nil
  | cons token tokens ih =>
      rw [isLayout, Bool.and_eq_true, List.isPrefixOf_iff_prefix] at read
      obtain ⟨⟨rest, whole⟩, tail⟩ := read
      apply layout_of_blanks
      rw [← whole, List.drop_left] at tail
      rw [← whole]
      exact .token (ih tail)

end HorizonOs.Lib.Gbnf
