import HorizonOs.Aura.Brokerage
import HorizonOs.Lib.TextOffset
import HorizonOs.Lib.Trim

/-!
# The rule planner

A plan of one step from an intent that starts with a known verb. Some verbs split the rest of
the intent around a keyword, which is found in a lower-case copy of it: the offset of the copy
is the offset the rest is cut at.
-/

namespace HorizonOs.Aura

open HorizonOs.Lib.Text HorizonOs.Lib.LossyText HorizonOs.Lib.Lowercase HorizonOs.Lib.TextOffset

set_option autoImplicit false

/-! ## Splitting around a keyword -/

/-- `split_keyword`: the parts before and behind the keyword, trimmed. The outer option is
empty where a slice is out of range, which panics. -/
def splitKeyword (finalSigma : List Char → List Char → Bool) (s kw : List Char) :
    Option (Option (List Char × List Char)) :=
  let lower := toLowercase finalSigma s
  match findText (toLowercase finalSigma kw) lower with
  | none => some none
  | some count => do
      let (before, _) ← splitAtByte count s
      let (_, behind) ← splitAtByte (count + size kw) s
      let left := trimChars before
      let right := trimChars behind
      if left = [] ∨ right = [] then some none else some (some (left, right))

/-! ## Rules -/

/-- A verb whose rest stands around a keyword: the tool, the keyword, how the verb is used, and
the arguments that the parts before and behind the keyword become. -/
structure SplitRule where
  tool : String
  keyword : String
  usage : String
  left : String
  right : String
  rationale : String → String → String

inductive Rule where
  | whole (tool : String) (rationale : String → String)
  | parts (rule : SplitRule)

section Rules

-- `{:?}` quotes a text by tables of what can be printed
variable (debug : String → String)

def findRule : SplitRule where
  tool := "find"
  keyword := " in "
  usage := "find <query> in <dir>"
  left := "query"
  right := "dir"
  rationale query dir := s!"search {dir} for {debug query}"

def searchRule : SplitRule where
  tool := "find"
  keyword := " for "
  usage := "search <dir> for <query>"
  left := "dir"
  right := "query"
  rationale dir query := s!"search {dir} for {debug query}"

def moveRule : SplitRule where
  tool := "move_file"
  keyword := " to "
  usage := "move <src> to <dst>"
  left := "src"
  right := "dst"
  rationale src dst := s!"move {src} to {dst}"

/-- The verbs and their rules. -/
def ruleFor (verb : String) : Option Rule :=
  if verb = "list" ∨ verb = "ls" then
    some (.whole "list_dir" fun rest => s!"list the entries under {rest}")
  else if verb = "read" ∨ verb = "show" ∨ verb = "cat" then
    some (.whole "read_file" fun rest => s!"read {rest}")
  else if verb = "find" then some (.parts (findRule debug))
  else if verb = "search" then some (.parts (searchRule debug))
  else if verb = "move" ∨ verb = "mv" then some (.parts moveRule)
  else if verb = "delete" ∨ verb = "remove" ∨ verb = "rm" then
    some (.whole "delete_file" fun rest => s!"delete {rest}")
  else none

end Rules

/-! ## Planning -/

/-- What a call comes to. -/
inductive Ran (α : Type) where
  | panicked
  | failed (error : Error)
  | made (value : α)

/-- The verb of an intent, in lower case, and the rest. -/
def verbAndRest (finalSigma : List Char → List Char → Bool) (intent : String) :
    String × List Char :=
  let trimmed := trimChars intent.toList
  match splitOnce isWhiteSpace trimmed with
  | some (verb, rest) => (String.ofList (toLowercase finalSigma verb), trimChars rest)
  | none => (String.ofList (toLowercase finalSigma trimmed), [])

/-- Only a tool the catalog carries is planned for. -/
def planStep (catalog : Catalog) (intent : String) (step : Step) : Ran Plan :=
  if (catalog.get step.tool).isNone then
    .failed (.plan s!"tool {step.tool} is not available")
  else .made ⟨trim intent, [step]⟩

def SplitRule.step (rule : SplitRule) (left right : List Char) : Step where
  tool := rule.tool
  args := ((∅ : Args).insert rule.left (String.ofList left)).insert rule.right (String.ofList right)
  rationale := rule.rationale (String.ofList left) (String.ofList right)

/-- `RulePlanner::plan`. -/
def rulePlan (finalSigma : List Char → List Char → Bool) (debug : String → String)
    (intent : String) (catalog : Catalog) : Ran Plan :=
  let (verb, rest) := verbAndRest finalSigma intent
  match ruleFor debug verb with
  | none => .failed (.plan (s!"no rule for {debug verb}; " ++
      "known verbs: list, read, find, search, move, delete"))
  | some (.whole tool rationale) => planStep catalog intent
      ⟨tool, (∅ : Args).insert "path" (String.ofList rest), rationale (String.ofList rest)⟩
  | some (.parts rule) =>
      match splitKeyword finalSigma rest rule.keyword.toList with
      | none => .panicked
      | some none => .failed (.plan rule.usage)
      | some (some (left, right)) => planStep catalog intent (rule.step left right)

/-! ## What a sound split is -/

/-- A plan is made without a panic, and a rest that is split is split around an occurrence of
the keyword. -/
def PlansSoundly (finalSigma : List Char → List Char → Bool) (debug : String → String)
    (intent : String) (catalog : Catalog) : Prop :=
  rulePlan finalSigma debug intent catalog ≠ .panicked ∧
    ∀ rule plan, ruleFor debug (verbAndRest finalSigma intent).1 = some (.parts rule) →
      rulePlan finalSigma debug intent catalog = .made plan → ∀ step ∈ plan.steps,
        ∃ before occurrence after,
          Occurs rule.keyword.toList (verbAndRest finalSigma intent).2 before occurrence after ∧
          step.args.lookup rule.left = some (String.ofList (trimChars before)) ∧
          step.args.lookup rule.right = some (String.ofList (trimChars after))

/-- What is cut out of a text is the keyword, up to a blank gained on one side for the
keyword's own on the other. -/
def CutsOut (keyword left middle right : List Char) : Prop :=
  middle.map Char.toLower = keyword ∨
    (∃ front body w, left = front ++ [' '] ∧ middle = body ++ [w] ∧
      (' ' :: body).map Char.toLower = keyword ∧ isWhiteSpace w = true ∧ w.utf8Size = 1) ∨
    ∃ w body back, middle = w :: body ∧ right = ' ' :: back ∧
      (body ++ [' ']).map Char.toLower = keyword ∧ isWhiteSpace w = true ∧ w.utf8Size = 1

/-- Where a rest is cut: as many bytes in as the lower case of what is before the first
occurrence of the keyword takes. The cuts fall between characters, and cut out the keyword
unless nothing comes of them. -/
def SplitFits (finalSigma : List Char → List Char → Bool) (catalog : Catalog) (rule : SplitRule)
    (rest : List Char) : Prop :=
  ∀ before occurrence after, FirstOccurs rule.keyword.toList rest before occurrence after →
    ∃ left middle right, rest = left ++ middle ++ right ∧
      size left = size (toLowercase finalSigma before) ∧ size middle = size rule.keyword.toList ∧
      (trimChars left = [] ∨ trimChars right = [] ∨ (catalog.get rule.tool).isNone = true ∨
        CutsOut rule.keyword.toList left middle right)

/-! ## Keywords -/

/-- A keyword in lower case that stands between two spaces. -/
structure Spaced (keyword word : List Char) : Prop where
  shape : keyword = ' ' :: (word ++ [' '])
  letters : ∀ c ∈ word, c.toNat < 128 ∧ c ≠ 'k' ∧ isWhiteSpace c = false ∧ c.toLower = c
  present : word ≠ []

theorem Spaced.plain {keyword word : List Char} (spaced : Spaced keyword word) : Plain keyword where
  letters c member := by
    rw [spaced.shape, List.mem_cons, List.mem_append, List.mem_singleton] at member
    rcases member with rfl | inside | rfl
    · exact ⟨by decide, by decide⟩
    · exact ⟨(spaced.letters c inside).1, (spaced.letters c inside).2.1⟩
    · exact ⟨by decide, by decide⟩
  ended := by
    rw [spaced.shape, List.getLast?_cons, List.getLast?_concat]
    decide

theorem Spaced.lower {keyword word : List Char} (spaced : Spaced keyword word)
    (finalSigma : List Char → List Char → Bool) : toLowercase finalSigma keyword = keyword := by
  rw [toLowercase, lower_in_ascii finalSigma _ _ _ fun c member => (spaced.plain.letters c member).1,
    spaced.shape, List.map_cons, List.map_append]
  have same : word.map Char.toLower = word := by
    rw [List.map_congr_left (g := id) fun c member => (spaced.letters c member).2.2.2, List.map_id]
  rw [same]
  rfl

theorem spaced_of_letters {keyword word : List Char} (shape : keyword = ' ' :: (word ++ [' ']))
    (present : word ≠ [])
    (letters : (word.all fun c => c.toNat < 128 ∧ c ≠ 'k' ∧ isWhiteSpace c = false ∧
      c.toLower = c) = true) : Spaced keyword word where
  shape := shape
  letters c member := of_decide_eq_true (List.all_eq_true.mp letters c member)
  present := present

theorem find_spaced : Spaced " in ".toList ['i', 'n'] :=
  spaced_of_letters (by decide) (by decide) (by decide)

theorem search_spaced : Spaced " for ".toList ['f', 'o', 'r'] :=
  spaced_of_letters (by decide) (by decide) (by decide)

theorem move_spaced : Spaced " to ".toList ['t', 'o'] :=
  spaced_of_letters (by decide) (by decide) (by decide)

/-- Every rule that splits has a spaced keyword and two arguments. -/
theorem split_rule_spaced {debug : String → String} {verb : String} {rule : SplitRule}
    (found : ruleFor debug verb = some (.parts rule)) :
    (∃ word, Spaced rule.keyword.toList word) ∧ rule.left ≠ rule.right := by
  rw [ruleFor] at found
  split_ifs at found
  · cases found
  · cases found
  · cases found
    exact ⟨⟨_, find_spaced⟩, by simp [findRule]⟩
  · cases found
    exact ⟨⟨_, search_spaced⟩, by simp [searchRule]⟩
  · cases found
    exact ⟨⟨_, move_spaced⟩, by simp [moveRule]⟩
  · cases found

theorem size_ascii {chars : List Char} (ascii : ∀ c ∈ chars, c.toNat < 128) :
    size chars = chars.length := by
  induction chars with
  | nil => rfl
  | cons c rest ih =>
      obtain ⟨here, others⟩ := List.forall_mem_cons.mp ascii
      have one : c.utf8Size = 1 := by
        rw [Char.utf8Size_eq_one_iff, UInt32.le_iff_toNat_le]
        exact Nat.le_of_lt_succ here
      rw [size, List.map_cons, List.sum_cons, one, List.length_cons, ← ih others, size, Nat.add_comm]

/-- White space has no case. -/
theorem lower_white {c : Char} (white : isWhiteSpace c = true) : c.toLower = c := by
  delta Char.toLower
  rw [dif_neg]
  rintro ⟨low, high⟩
  rw [ge_iff_le, UInt32.le_iff_toNat_le] at low
  rw [UInt32.le_iff_toNat_le] at high
  have number : c.toNat = c.val.toNat := rfl
  have first : 'A'.val.toNat = 65 := rfl
  have last : 'Z'.val.toNat = 90 := rfl
  simp only [isWhiteSpace, Bool.or_eq_true, Bool.and_eq_true, decide_eq_true_eq, beq_iff_eq] at white
  omega

theorem space_of_lower {c : Char} (lowered : c.toLower = ' ') : c = ' ' := by
  delta Char.toLower at lowered
  split_ifs at lowered with upper
  · obtain ⟨low, high⟩ := upper
    rw [ge_iff_le, UInt32.le_iff_toNat_le] at low
    rw [UInt32.le_iff_toNat_le] at high
    have number := congrArg (fun d : Char => d.val.toNat) lowered
    have sum : (c.val + ('a'.val - 'A'.val)).toNat = c.val.toNat + 32 := by
      have bound : 'Z'.val.toNat = 90 := rfl
      rw [UInt32.toNat_add]
      have step : ('a'.val - 'A'.val).toNat = 32 := rfl
      rw [step, Nat.mod_eq_of_lt (by omega)]
    have space : ' '.val.toNat = 32 := rfl
    have least : 'A'.val.toNat = 65 := rfl
    simp only at number
    omega
  · exact lowered

/-- An occurrence of a spaced keyword is a word between two spaces, as long as the keyword. -/
theorem occurrence_spaced {keyword word occurrence : List Char} (spaced : Spaced keyword word)
    (lowered : occurrence.map Char.toLower = keyword) :
    ∃ inner, occurrence = ' ' :: (inner ++ [' ']) ∧ inner ≠ [] ∧
      (∀ c ∈ inner, isWhiteSpace c = false) ∧ size occurrence = size keyword := by
  rw [spaced.shape] at lowered
  obtain ⟨c, tail, rfl, first, others⟩ := List.map_eq_cons_iff.mp lowered
  obtain ⟨inner, last, rfl, letters, ending⟩ := List.map_eq_append_iff.mp others
  obtain ⟨d, none, rfl, space, empty⟩ := List.map_eq_cons_iff.mp ending
  obtain rfl := List.map_eq_nil_iff.mp empty
  rw [space_of_lower first, space_of_lower space] at *
  have solid : ∀ c ∈ inner, c.toNat < 128 ∧ isWhiteSpace c = false := by
    intro c member
    have letter := spaced.letters c.toLower (by rw [← letters]; exact List.mem_map_of_mem member)
    refine ⟨ascii_of_lower letter.1, ?_⟩
    cases white : isWhiteSpace c with
    | false => rfl
    | true =>
        have same := letter.2.2.1
        rw [lower_white white, white] at same
        cases same
  refine ⟨inner, rfl, ?_, fun c member => (solid c member).2, ?_⟩
  · rintro rfl
    exact spaced.present letters.symm
  · have ascii : ∀ c ∈ ' ' :: (inner ++ [' ']), c.toNat < 128 := by
      intro c member
      rw [List.mem_cons, List.mem_append, List.mem_singleton] at member
      rcases member with rfl | inside | rfl
      · decide
      · exact (solid c inside).1
      · decide
    rw [size_ascii ascii, size_ascii fun c member => (spaced.plain.letters c member).1,
      spaced.shape, ← letters]
    simp

/-! ## Cuts beside an occurrence -/

theorem one_byte (chars : List Char) (one : size chars = 1) :
    ∃ c, chars = [c] ∧ c.utf8Size = 1 := by
  cases chars with
  | nil => cases one
  | cons c rest =>
      have positive := c.utf8Size_pos
      rw [size, List.map_cons, List.sum_cons] at one
      cases rest with
      | nil => exact ⟨c, rfl, by omega⟩
      | cons d rest =>
          have more := d.utf8Size_pos
          rw [List.map_cons, List.sum_cons] at one
          omega

theorem size_pos {chars : List Char} (present : chars ≠ []) : 0 < size chars := by
  cases chars with
  | nil => exact absurd rfl present
  | cons c rest =>
      have positive := c.utf8Size_pos
      rw [size, List.map_cons, List.sum_cons]
      omega

/-- Two equal texts agree on what is as long at their start. -/
theorem same_start {left right more other : List Char} (same : left ++ more = right ++ other)
    (sizes : size left = size right) : left = right ∧ more = other := by
  rcases List.append_eq_append_iff.mp same with ⟨gap, parts, rest⟩ | ⟨gap, parts, rest⟩
  · cases gap with
    | nil => exact ⟨by rw [parts, List.append_nil], rest⟩
    | cons c gap =>
        have positive := size_pos (List.cons_ne_nil c gap)
        rw [parts, size_append] at sizes
        omega
  · cases gap with
    | nil => exact ⟨by rw [parts, List.append_nil], rest.symm⟩
    | cons c gap =>
        have positive := size_pos (List.cons_ne_nil c gap)
        rw [parts, size_append] at sizes
        omega

/-- White space at the end of a word and a space is that space. -/
theorem white_end {front inner middle tail : List Char} (present : inner ≠ [])
    (solid : ∀ c ∈ inner, isWhiteSpace c = false) (white : ∀ c ∈ tail, isWhiteSpace c = true)
    (apart : tail ≠ []) (same : front ++ ' ' :: (inner ++ [' ']) = middle ++ tail) :
    tail = [' '] ∧ middle = front ++ ' ' :: inner := by
  rcases List.eq_nil_or_concat tail with rfl | ⟨most, last, rfl⟩
  · exact absurd rfl apart
  rw [List.concat_eq_append] at white same ⊢
  have ends : front ++ ' ' :: inner ++ [' '] = middle ++ most ++ [last] := by
    rw [List.append_assoc, List.append_assoc, ← same]
    rfl
  obtain ⟨rest, one⟩ := List.append_inj' ends rfl
  cases one
  rcases List.eq_nil_or_concat most with rfl | ⟨more, c, rfl⟩
  · rw [List.append_nil] at rest
    exact ⟨rfl, rest.symm⟩
  · -- the last character of the word is no white space
    rcases List.eq_nil_or_concat inner with rfl | ⟨word, d, rfl⟩
    · exact absurd rfl present
    rw [List.concat_eq_append] at rest solid white
    rw [List.concat_eq_append, ← List.append_assoc, ← List.cons_append, ← List.append_assoc] at rest
    obtain ⟨_, one⟩ := List.append_inj' rest rfl
    cases one
    have blank := white c (by simp)
    rw [solid c (by simp)] at blank
    cases blank

/-- White space at the start of a space and a word is that space. -/
theorem white_start {inner gap middle rest : List Char} (present : inner ≠ [])
    (solid : ∀ c ∈ inner, isWhiteSpace c = false) (white : ∀ c ∈ gap, isWhiteSpace c = true)
    (apart : gap ≠ []) (same : gap ++ middle = ' ' :: (inner ++ rest)) :
    gap = [' '] ∧ middle = inner ++ rest := by
  cases gap with
  | nil => exact absurd rfl apart
  | cons c gap =>
      obtain ⟨rfl, tail⟩ := List.cons.inj same
      cases gap with
      | nil => exact ⟨rfl, tail⟩
      | cons d gap =>
          cases inner with
          | nil => exact absurd rfl present
          | cons e inner =>
              obtain ⟨rfl, _⟩ := List.cons.inj tail
              have blank := white d (by simp)
              rw [solid d (by simp)] at blank
              cases blank

section Cuts

variable {keyword word left middle right before occurrence after : List Char}

/-- A cut before an occurrence that leaves its parts as they are cuts out a blank for the
space behind the word. -/
theorem cuts_out_early (spaced : Spaced keyword word) (sizes : size middle = size keyword)
    (lowered : occurrence.map Char.toLower = keyword) {gap : List Char} (apart : gap ≠ [])
    (white : ∀ c ∈ gap, isWhiteSpace c = true) (present : trimChars right ≠ [])
    (agree : trimChars right = trimChars after)
    (same : middle ++ right = gap ++ (occurrence ++ after)) : CutsOut keyword left middle right := by
  obtain ⟨inner, shape, nonempty, solid, long⟩ := occurrence_spaced spaced lowered
  have positive := size_pos apart
  rw [← List.append_assoc] at same
  rcases List.append_eq_append_iff.mp same with ⟨tail, parts, behind⟩ | ⟨tail, parts, _⟩
  · have counted := congrArg size parts
    rw [size_append, size_append, long, sizes] at counted
    have blank : ∀ c ∈ tail, isWhiteSpace c = true := by
      apply white_of_trim_front (agree ▸ present)
      rw [← behind, agree]
    have tailed : tail ≠ [] := by
      rintro rfl
      have none : size [] = 0 := rfl
      omega
    rw [shape] at parts
    obtain ⟨rfl, cut⟩ := white_end nonempty solid blank tailed parts
    have space : size [' '] = 1 := rfl
    obtain ⟨w, rfl, one⟩ := one_byte gap (by omega)
    refine .inr (.inr ⟨w, ' ' :: inner, after, cut, behind, ?_, white w (by simp), one⟩)
    rw [← lowered, shape]
    rfl
  · have counted := congrArg size parts
    rw [size_append, size_append, long, sizes] at counted
    omega

/-- A cut behind the start of an occurrence that leaves its parts as they are cuts out a blank
for the space before the word. -/
theorem cuts_out_late (spaced : Spaced keyword word) (sizes : size middle = size keyword)
    (lowered : occurrence.map Char.toLower = keyword) {gap : List Char} (apart : gap ≠ [])
    (white : ∀ c ∈ gap, isWhiteSpace c = true) (present : trimChars right ≠ [])
    (agree : trimChars right = trimChars after)
    (same : occurrence ++ after = gap ++ (middle ++ right)) :
    CutsOut keyword (before ++ gap) middle right := by
  obtain ⟨inner, shape, nonempty, solid, long⟩ := occurrence_spaced spaced lowered
  have positive := size_pos apart
  rw [← List.append_assoc] at same
  rcases List.append_eq_append_iff.mp same with ⟨tail, parts, behind⟩ | ⟨tail, parts, rest⟩
  · have counted := congrArg size parts
    rw [size_append, size_append, long, sizes] at counted
    have blank : ∀ c ∈ tail, isWhiteSpace c = true := by
      apply white_of_trim_front present
      rw [← behind, agree]
    rw [shape, List.cons_append, List.append_assoc] at parts
    obtain ⟨rfl, cut⟩ := white_start nonempty solid white apart parts
    have space : size [' '] = 1 := rfl
    obtain ⟨w, rfl, one⟩ := one_byte tail (by omega)
    refine .inr (.inl ⟨before, inner ++ [' '], w, rfl, by rw [cut, List.append_assoc], ?_,
      blank w (by simp), one⟩)
    rw [← lowered, shape]
  · have counted := congrArg size parts
    rw [size_append, size_append, long, sizes] at counted
    omega

/-- A cut that leaves parts which are not blank leaves those of an occurrence exactly when it
cuts out the keyword, up to a blank. -/
theorem cuts_out_iff (spaced : Spaced keyword word) (sizes : size middle = size keyword)
    (leftPresent : trimChars left ≠ []) (rightPresent : trimChars right ≠ []) :
    (∃ before occurrence after,
        Occurs keyword (left ++ middle ++ right) before occurrence after ∧
        trimChars left = trimChars before ∧ trimChars right = trimChars after) ↔
      CutsOut keyword left middle right := by
  constructor
  · rintro ⟨before, occurrence, after, ⟨whole, lowered⟩, front, back⟩
    obtain ⟨_, _, _, _, long⟩ := occurrence_spaced spaced lowered
    rw [List.append_assoc, List.append_assoc] at whole
    rcases List.append_eq_append_iff.mp whole with ⟨gap, parts, same⟩ | ⟨gap, parts, same⟩
    · by_cases apart : gap = []
      · rw [apart, List.nil_append] at same
        obtain ⟨rfl, _⟩ := same_start same (sizes.trans long.symm)
        exact .inl lowered
      · have white : ∀ c ∈ gap, isWhiteSpace c = true := by
          apply white_of_trim_back leftPresent
          rw [← parts, front]
        exact cuts_out_early spaced sizes lowered apart white rightPresent back same
    · by_cases apart : gap = []
      · rw [apart, List.nil_append] at same
        obtain ⟨rfl, _⟩ := same_start same (long.trans sizes.symm)
        exact .inl lowered
      · have white : ∀ c ∈ gap, isWhiteSpace c = true := by
          apply white_of_trim_back (front ▸ leftPresent)
          rw [← parts, front]
        rw [parts]
        exact cuts_out_late spaced sizes lowered apart white rightPresent back same
  · rintro (lowered | ⟨front, body, w, rfl, rfl, lowered, white, _⟩ |
      ⟨w, body, back, rfl, rfl, lowered, white, _⟩)
    · exact ⟨left, middle, right, ⟨rfl, lowered⟩, rfl, rfl⟩
    · refine ⟨front, ' ' :: body, w :: right, ⟨by simp, lowered⟩, ?_, ?_⟩
      · exact trim_chars_white_back front [' '] (List.forall_mem_singleton.mpr (by decide))
      · exact (trim_chars_white_front [w] right (by simpa using white)).symm
    · refine ⟨left ++ [w], body ++ [' '], back, ⟨by simp, lowered⟩, ?_, ?_⟩
      · exact (trim_chars_white_back left [w] (by simpa using white)).symm
      · exact trim_chars_white_front [' '] back (List.forall_mem_singleton.mpr (by decide))

end Cuts

/-! ## What `split_keyword` returns -/

section Splitting

variable {keyword word rest before occurrence after : List Char}
variable (finalSigma : List Char → List Char → Bool)

theorem split_absent (spaced : Spaced keyword word)
    (absent : ∀ before occurrence after, ¬Occurs keyword rest before occurrence after) :
    splitKeyword finalSigma rest keyword = some none := by
  have present : keyword ≠ [] := by rw [spaced.shape]; exact List.cons_ne_nil _ _
  rcases find_lowered finalSigma spaced.plain present rest with
    ⟨none, _⟩ | ⟨before, occurrence, after, first, _⟩
  · rw [splitKeyword, spaced.lower, none]
  · exact absurd first.toOccurs (absent _ _ _)

theorem first_unique {other other' : List Char} {key : List Char}
    (first : FirstOccurs keyword rest before occurrence after)
    (second : FirstOccurs keyword rest other key other') : before = other := by
  have lengths := Nat.le_antisymm (first.first _ _ _ second.toOccurs)
    (second.first _ _ _ first.toOccurs)
  have same := first.whole.symm.trans second.whole
  rw [List.append_assoc, List.append_assoc] at same
  exact (List.append_inj same lengths).1

/-- The cut is at the size of the lower case of what is before the first occurrence. -/
theorem split_found (spaced : Spaced keyword word)
    (first : FirstOccurs keyword rest before occurrence after) :
    findText (toLowercase finalSigma keyword) (toLowercase finalSigma rest) =
      some (size (toLowercase finalSigma before)) := by
  have present : keyword ≠ [] := by rw [spaced.shape]; exact List.cons_ne_nil _ _
  rw [spaced.lower]
  rcases find_lowered finalSigma spaced.plain present rest with
    ⟨_, absent⟩ | ⟨other, key, other', second, found⟩
  · exact absurd first.toOccurs (absent _ _ _)
  · rw [found, first_unique first second]

theorem split_cut (spaced : Spaced keyword word)
    (first : FirstOccurs keyword rest before occurrence after) {left middle right : List Char}
    (whole : rest = left ++ middle ++ right)
    (start : size left = size (toLowercase finalSigma before))
    (sizes : size middle = size keyword) :
    splitKeyword finalSigma rest keyword =
      some (if trimChars left = [] ∨ trimChars right = [] then none
        else some (trimChars left, trimChars right)) := by
  have front := (split_at_byte_iff (size (toLowercase finalSigma before)) rest left
    (middle ++ right)).mpr ⟨by rw [whole, List.append_assoc], start⟩
  have back := (split_at_byte_iff (size (toLowercase finalSigma before) + size keyword) rest
    (left ++ middle) right).mpr ⟨whole, by rw [size_append, start, sizes]⟩
  rw [splitKeyword, split_found finalSigma spaced first]
  simp only [front, back, Option.bind_eq_bind, Option.bind_some]
  split_ifs <;> rfl

/-- Without characters that begin at both cuts there is a panic. -/
theorem split_panics (spaced : Spaced keyword word)
    (first : FirstOccurs keyword rest before occurrence after)
    (apart : ¬∃ left middle right, rest = left ++ middle ++ right ∧
      size left = size (toLowercase finalSigma before) ∧ size middle = size keyword) :
    splitKeyword finalSigma rest keyword = none := by
  rw [splitKeyword, split_found finalSigma spaced first]
  simp only [Option.bind_eq_bind]
  cases front : splitAtByte (size (toLowercase finalSigma before)) rest with
  | none => rfl
  | some parts =>
      cases back : splitAtByte (size (toLowercase finalSigma before) + size keyword) rest with
      | none => rfl
      | some others =>
          -- the first cut is before the second, with as many bytes between as the keyword has
          obtain ⟨whole, start⟩ := (split_at_byte_iff _ _ _ _).mp front
          obtain ⟨again, longer⟩ := (split_at_byte_iff _ _ _ _).mp back
          have same := whole.symm.trans again
          rcases List.append_eq_append_iff.mp same with ⟨gap, outer, _⟩ | ⟨gap, outer, _⟩
          · refine absurd ⟨parts.1, gap, others.2, by rw [again, outer], start, ?_⟩ apart
            rw [outer, size_append] at longer
            omega
          · have positive : 0 < size keyword := size_pos (by
              rw [spaced.shape]; exact List.cons_ne_nil _ _)
            rw [outer, size_append] at start
            omega

end Splitting

/-! ## Sound plans -/

theorem plan_step_not_panicked (catalog : Catalog) (intent : String) (step : Step) :
    planStep catalog intent step ≠ .panicked := by
  rw [planStep]
  split_ifs <;> simp

/-- A verb that splits nothing is planned soundly. -/
theorem plans_soundly_whole (finalSigma : List Char → List Char → Bool) (debug : String → String)
    (intent : String) (catalog : Catalog)
    (other : ∀ rule, ruleFor debug (verbAndRest finalSigma intent).1 ≠ some (.parts rule)) :
    PlansSoundly finalSigma debug intent catalog := by
  refine ⟨?_, fun rule plan found => absurd found (other rule)⟩
  rw [rulePlan]
  cases found : ruleFor debug (verbAndRest finalSigma intent).1 with
  | none => simp [found]
  | some rule =>
      cases rule with
      | whole tool rationale => simpa [found] using plan_step_not_panicked catalog intent _
      | parts rule => exact absurd found (other rule)

section Parts

variable {finalSigma : List Char → List Char → Bool} {debug : String → String}
variable {intent : String} {catalog : Catalog} {rule : SplitRule}

theorem step_args (apart : rule.left ≠ rule.right) (left right : List Char) :
    (rule.step left right).args.lookup rule.left = some (String.ofList left) ∧
      (rule.step left right).args.lookup rule.right = some (String.ofList right) := by
  refine ⟨?_, AList.lookup_insert _⟩
  rw [SplitRule.step, AList.lookup_insert_ne apart, AList.lookup_insert]

theorem rule_plan_split (found : ruleFor debug (verbAndRest finalSigma intent).1 = some (.parts rule)) :
    rulePlan finalSigma debug intent catalog =
      (splitKeyword finalSigma (verbAndRest finalSigma intent).2 rule.keyword.toList).elim .panicked
        fun split => split.elim (.failed (.plan rule.usage)) fun parts =>
          planStep catalog intent (rule.step parts.1 parts.2) := by
  rw [rulePlan]
  simp only [found]
  cases splitKeyword finalSigma (verbAndRest finalSigma intent).2 rule.keyword.toList with
  | none => rfl
  | some split => cases split <;> rfl

/-- A split around two parts that are not blank, for a tool the catalog has, is sound exactly
when the keyword is cut out. -/
theorem sound_split_iff (found : ruleFor debug (verbAndRest finalSigma intent).1 = some (.parts rule))
    {left middle right : List Char}
    (whole : (verbAndRest finalSigma intent).2 = left ++ middle ++ right)
    (sizes : size middle = size rule.keyword.toList) (carried : (catalog.get rule.tool).isNone = false)
    (leftPresent : trimChars left ≠ []) (rightPresent : trimChars right ≠ [])
    (planned : rulePlan finalSigma debug intent catalog =
      planStep catalog intent (rule.step (trimChars left) (trimChars right))) :
    PlansSoundly finalSigma debug intent catalog ↔
      CutsOut rule.keyword.toList left middle right := by
  obtain ⟨⟨word, spaced⟩, apart⟩ := split_rule_spaced found
  have made : rulePlan finalSigma debug intent catalog =
      .made ⟨trim intent, [rule.step (trimChars left) (trimChars right)]⟩ := by
    rw [planned, planStep]
    exact if_neg (by rw [SplitRule.step, carried]; exact Bool.false_ne_true)
  obtain ⟨first, second⟩ := step_args apart (trimChars left) (trimChars right)
  rw [← cuts_out_iff spaced sizes leftPresent rightPresent, ← whole]
  constructor
  · rintro ⟨_, sound⟩
    obtain ⟨before, occurrence, after, occurs, front, back⟩ :=
      sound rule _ found made _ (List.mem_singleton_self _)
    rw [first] at front
    rw [second] at back
    exact ⟨before, occurrence, after, occurs, String.ofList_injective (Option.some.inj front),
      String.ofList_injective (Option.some.inj back)⟩
  · rintro ⟨before, occurrence, after, occurs, front, back⟩
    refine ⟨by rw [made]; simp, fun other plan same there step member => ?_⟩
    rw [found] at same
    cases same
    rw [made] at there
    cases there
    rw [List.mem_singleton.mp member]
    exact ⟨before, occurrence, after, occurs, by rw [first, front], by rw [second, back]⟩

/-- Nothing comes of a split that is refused. -/
theorem sound_of_failed {error : Error}
    (failed : rulePlan finalSigma debug intent catalog = .failed error) :
    PlansSoundly finalSigma debug intent catalog := by
  refine ⟨by rw [failed]; simp, fun _ _ _ made => ?_⟩
  rw [failed] at made
  cases made

theorem plans_soundly_parts_iff
    (found : ruleFor debug (verbAndRest finalSigma intent).1 = some (.parts rule)) :
    PlansSoundly finalSigma debug intent catalog ↔
      SplitFits finalSigma catalog rule (verbAndRest finalSigma intent).2 := by
  obtain ⟨⟨word, spaced⟩, _⟩ := split_rule_spaced found
  have planned : rulePlan finalSigma debug intent catalog = _ := rule_plan_split found
  by_cases occurs : ∃ before occurrence after, FirstOccurs rule.keyword.toList
      (verbAndRest finalSigma intent).2 before occurrence after
  case neg =>
    have present : rule.keyword.toList ≠ [] := by rw [spaced.shape]; exact List.cons_ne_nil _ _
    rcases find_lowered finalSigma spaced.plain present (verbAndRest finalSigma intent).2 with
      ⟨_, absent⟩ | ⟨b, o, a, first, _⟩
    · rw [split_absent finalSigma spaced absent] at planned
      exact ⟨fun _ b o a first => absurd ⟨b, o, a, first⟩ occurs, fun _ => sound_of_failed planned⟩
    · exact absurd ⟨b, o, a, first⟩ occurs
  obtain ⟨before, occurrence, after, first⟩ := occurs
  by_cases cut : ∃ left middle right, (verbAndRest finalSigma intent).2 = left ++ middle ++ right ∧
      size left = size (toLowercase finalSigma before) ∧ size middle = size rule.keyword.toList
  case neg =>
    rw [split_panics finalSigma spaced first cut] at planned
    refine ⟨fun sound => absurd planned sound.1, fun fits => ?_⟩
    obtain ⟨left, middle, right, whole, start, sizes, _⟩ := fits _ _ _ first
    exact absurd ⟨left, middle, right, whole, start, sizes⟩ cut
  obtain ⟨left, middle, right, whole, start, sizes⟩ := cut
  rw [split_cut finalSigma spaced first whole start sizes] at planned
  have fits : SplitFits finalSigma catalog rule (verbAndRest finalSigma intent).2 ↔
      trimChars left = [] ∨ trimChars right = [] ∨ (catalog.get rule.tool).isNone = true ∨
        CutsOut rule.keyword.toList left middle right := by
    constructor
    · intro all
      obtain ⟨l, m, r, again, begun, counted, outcome⟩ := all _ _ _ first
      have same := whole.symm.trans again
      rw [List.append_assoc, List.append_assoc] at same
      obtain ⟨rfl, others⟩ := same_start same (start.trans begun.symm)
      obtain ⟨rfl, rfl⟩ := same_start others (sizes.trans counted.symm)
      exact outcome
    · intro outcome b o a again
      rw [← first_unique first again]
      exact ⟨left, middle, right, whole, start, sizes, outcome⟩
  rw [fits]
  by_cases blank : trimChars left = [] ∨ trimChars right = []
  · rw [if_pos blank] at planned
    refine ⟨fun _ => ?_, fun _ => sound_of_failed planned⟩
    exact blank.imp_right Or.inl
  · rw [if_neg blank] at planned
    obtain ⟨leftPresent, rightPresent⟩ := not_or.mp blank
    cases carried : (catalog.get rule.tool).isNone with
    | true =>
        refine ⟨fun _ => .inr (.inr (.inl rfl)), fun _ => ?_⟩
        apply sound_of_failed
        rw [planned]
        exact if_pos carried
    | false =>
        rw [sound_split_iff found whole sizes carried leftPresent rightPresent planned]
        simp [leftPresent, rightPresent]

end Parts

/-- An intent is planned soundly exactly when the rest of a verb that splits is cut where its
keyword is. -/
theorem plans_soundly_iff (finalSigma : List Char → List Char → Bool) (debug : String → String)
    (intent : String) (catalog : Catalog) :
    PlansSoundly finalSigma debug intent catalog ↔
      ∀ rule, ruleFor debug (verbAndRest finalSigma intent).1 = some (.parts rule) →
        SplitFits finalSigma catalog rule (verbAndRest finalSigma intent).2 := by
  by_cases splits : ∃ rule, ruleFor debug (verbAndRest finalSigma intent).1 = some (.parts rule)
  · obtain ⟨rule, found⟩ := splits
    rw [plans_soundly_parts_iff found]
    constructor
    · intro fits other same
      rw [found] at same
      cases same
      exact fits
    · exact fun all => all rule found
  · have other : ∀ rule, ruleFor debug (verbAndRest finalSigma intent).1 ≠ some (.parts rule) :=
      fun rule found => splits ⟨rule, found⟩
    exact ⟨fun _ rule found => absurd found (other rule),
      fun _ => plans_soundly_whole finalSigma debug intent catalog other⟩

/-- A keyword behind a text whose lower case is as long as the text itself is found. -/
theorem split_fits_of_sizes (finalSigma : List Char → List Char → Bool) (catalog : Catalog)
    (rule : SplitRule) (rest : List Char) {word : List Char}
    (spaced : Spaced rule.keyword.toList word)
    (sizes : ∀ before occurrence after,
      FirstOccurs rule.keyword.toList rest before occurrence after →
        size (toLowercase finalSigma before) = size before) :
    SplitFits finalSigma catalog rule rest := by
  intro before occurrence after first
  obtain ⟨_, _, _, _, long⟩ := occurrence_spaced spaced first.lowered
  exact ⟨before, occurrence, after, first.whole, (sizes _ _ _ first).symm, long,
    .inr (.inr (.inr (.inl first.lowered)))⟩

/-! ## Characters that change their size -/

/-- What a plan's first step is given for a key. -/
def plannedArg (key : String) : Ran Plan → Option String
  | .made plan => plan.steps.head?.bind fun step => step.args.lookup key
  | _ => none

def Ran.panics {α : Type} : Ran α → Bool
  | .panicked => true
  | _ => false

/-- No sigma is final, and texts are quoted without escapes. -/
def plainPlan (intent : String) : Ran Plan :=
  rulePlan (fun _ _ => false) (fun text => "\"" ++ text ++ "\"") intent standardCatalog

example : plannedArg "dir" (plainPlan "FIND Cows IN /Farm") = some "/Farm" := by decide

/-- A Kelvin sign is three bytes and its lower case one: the cut is inside of it. Behind a dotted
capital I the cut is too far, and the directory loses its slash. -/
theorem resized_intents_missed :
    ¬PlansSoundly (fun _ _ => false) (fun text => "\"" ++ text ++ "\"") "find \u212A in /farm"
        standardCatalog ∧
      plannedArg "dir" (plainPlan "find \u0130n in /farm") = some "farm" := by
  have panics : (plainPlan "find \u212A in /farm").panics = true := by decide +kernel
  refine ⟨fun sound => ?_, by decide +kernel⟩
  apply sound.1
  cases planned : plainPlan "find \u212A in /farm" with
  | panicked => exact planned
  | failed error =>
      rw [planned] at panics
      cases panics
  | made plan =>
      rw [planned] at panics
      cases panics

end HorizonOs.Aura
