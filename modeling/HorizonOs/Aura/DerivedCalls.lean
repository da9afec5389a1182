import HorizonOs.Aura.Brokerage
import HorizonOs.Aura.ToolCalls
import HorizonOs.Aura.ToolGrammar

/-!
# Derived calls

Every text the grammar of a catalog derives is an array of calls of that catalog's tools, with
all the arguments they require. The reader takes surrogate pairs apart.
-/

namespace HorizonOs.Aura

open HorizonOs.Lib.Gbnf HorizonOs.Lib.JsonText HorizonOs.Lib.Text HorizonOs.Lib.Utf16

set_option autoImplicit false

/-! ## What is derived -/

/-- Neither a quote nor a backslash. -/
def PlainName (name : String) : Prop := ∀ c ∈ name.toList, c ≠ '"' ∧ c ≠ '\\'

theorem PlainName.legal {name : String} (plain : PlainName name) :
    ∀ piece ∈ plainPieces name.toList, piece.Legal := by
  intro piece member
  obtain ⟨c, inside, rfl⟩ := List.mem_map.mp member
  exact plain c inside

theorem plain_names {names : List String}
    (all : (names.all fun name => name.toList.all fun c => c != '"' && c != '\\') = true) :
    ∀ name ∈ names, PlainName name := by
  intro name member c inside
  have here := List.all_eq_true.mp (List.all_eq_true.mp all name member) c inside
  rw [Bool.and_eq_true, bne_iff_ne, bne_iff_ne] at here
  exact here

/-- The names a tool brings into the grammar. -/
def Tool.names (tool : Tool) : List String := tool.name :: tool.params.map ParamSpec.name

/-- No name in the catalog has a quote or a backslash, and every tool is found by its name. -/
structure Ordinary (catalog : Catalog) : Prop where
  names : ∀ tool ∈ catalog, ∀ name ∈ tool.names, PlainName name
  found : ∀ tool ∈ catalog, catalog.get tool.name = some tool

/-- These names are keys of the entries. -/
def Offers (names : List String) (entries : List (List Piece × List Piece)) : Prop :=
  ∀ name ∈ names, ∃ entry ∈ entries, entry.1 = plainPieces name.toList

/-- The call is one of this tool, and nothing that the tool requires is missing. -/
def ToolCall.Calls (call : ToolCall) (tool : Tool) : Prop :=
  call.tool = plainPieces tool.name.toList ∧
    Offers ((tool.params.filter (·.required)).map ParamSpec.name) call.args

/-- The rules that every catalog has. -/
def sharedRules (catalog : Catalog) : List Rule :=
  [rootEntry, callEntry catalog, stringEntry, charEntry, hexEntry, wsEntry]

/-! ## The rules of the grammar -/

section Rules

variable {catalog : Catalog} {s : List Char}

theorem mem_grammar_iff {entry : Rule} : entry ∈ grammarOf catalog ↔
    entry ∈ sharedRules catalog ∨ ∃ tool ∈ catalog, toolEntry tool = entry := by
  simp only [grammarOf, sharedRules, List.mem_append, List.mem_cons, List.mem_map,
    List.not_mem_nil, or_false]
  generalize (∃ tool ∈ catalog, toolEntry tool = entry) = made
  tauto

theorem shared_names : (sharedRules catalog).map Rule.name = ["root".toList, "call".toList,
    "string".toList, "char".toList, "hex".toList, "ws".toList] := rfl

/-- No tool's rule has the name of one of them. -/
theorem shared_apart {entry : Rule} (shared : entry ∈ sharedRules catalog) (tool : Tool) :
    callName tool ≠ entry.name := by
  intro name
  have listed : entry.name ∈ (sharedRules catalog).map Rule.name := List.mem_map_of_mem shared
  rw [shared_names] at listed
  have ending : "-call".toList <:+ entry.name := name ▸ List.suffix_append _ _
  have none : ∀ name ∈ ["root".toList, "call".toList, "string".toList, "char".toList,
      "hex".toList, "ws".toList], ¬"-call".toList <:+ name := by decide
  exact none _ listed ending

theorem shared_rule (entry : Rule) (shared : entry ∈ sharedRules catalog)
    (derived : Derives (grammarOf catalog) [.rule entry.name] s) :
    ∃ body ∈ entry.alternatives, Derives (grammarOf catalog) body s := by
  obtain ⟨other, member, name, body, chosen, inner⟩ := derives_rule_iff.mp derived
  rcases mem_grammar_iff.mp member with also | ⟨tool, _, rfl⟩
  · have distinct : ((sharedRules catalog).map Rule.name).Nodup := by
      rw [shared_names]
      decide
    have same := List.inj_on_of_nodup_map distinct also shared name
    exact ⟨body, same ▸ chosen, inner⟩
  · exact absurd name (shared_apart shared tool)

/-- The rule of a tool derives calls of the tools whose rules share its name. -/
theorem tool_rule {tool : Tool} (derived : Derives (grammarOf catalog) [.rule (callName tool)] s) :
    ∃ other ∈ catalog, Derives (grammarOf catalog) (callElems other) s := by
  obtain ⟨entry, member, name, body, chosen, inner⟩ := derives_rule_iff.mp derived
  rcases mem_grammar_iff.mp member with shared | ⟨other, here, rfl⟩
  · exact absurd name.symm (shared_apart shared tool)
  · rw [toolEntry, List.mem_singleton] at chosen
    exact ⟨other, here, chosen ▸ inner⟩

/-- A rule with one alternative. -/
theorem single_rule (entry : Rule) {body : List Elem} (shared : entry ∈ sharedRules catalog)
    (single : entry.alternatives = [body])
    (derived : Derives (grammarOf catalog) [.rule entry.name] s) :
    Derives (grammarOf catalog) body s := by
  obtain ⟨chosen, member, inner⟩ := shared_rule entry shared derived
  rw [single, List.mem_singleton] at member
  exact member ▸ inner

theorem derived_blank (derived : Derives (grammarOf catalog) [wsElem] s) : Blank s := by
  have inner := single_rule wsEntry (by simp [sharedRules]) rfl derived
  obtain ⟨parts, rfl, all⟩ := derives_many_iff.mp inner
  intro c member
  obtain ⟨part, here, inside⟩ := List.mem_flatten.mp member
  obtain ⟨d, rfl, listed⟩ := derives_one_of_iff.mp (all part here)
  rw [List.mem_singleton.mp inside]
  have blank := (in_singles_iff [' ', '\t', '\n'] d).mp listed
  have blanks : [' ', '\t', '\n'].all isBlank = true := by decide
  exact List.all_eq_true.mp blanks d blank

theorem derived_hex (derived : Derives (grammarOf catalog) [hexElem] s) :
    ∃ c, s = [c] ∧ (hexValue c).isSome = true := by
  have inner := single_rule hexEntry (by simp [sharedRules]) rfl derived
  obtain ⟨c, rfl, listed⟩ := derives_one_of_iff.mp inner
  refine ⟨c, rfl, ?_⟩
  simp only [inRanges, List.any_cons, List.any_nil, Bool.or_false, Bool.not_false,
    Bool.or_eq_true, Bool.and_eq_true, decide_eq_true_eq] at listed
  rw [hexValue]
  split_ifs <;> tauto

/-! ## Pieces and literals -/

theorem derived_unicode (derived : Derives (grammarOf catalog)
    [word "u", hexElem, hexElem, hexElem, hexElem] s) :
    ∃ a b c d, s = ['u', a, b, c, d] ∧ (hexUnit a b c d).isSome = true := by
  obtain ⟨_, _, rfl, letter, rest⟩ := derives_cons_iff.mp derived
  obtain ⟨_, _, rfl, first, rest⟩ := derives_cons_iff.mp rest
  obtain ⟨_, _, rfl, second, rest⟩ := derives_cons_iff.mp rest
  obtain ⟨_, _, rfl, third, fourth⟩ := derives_cons_iff.mp rest
  obtain ⟨a, rfl, one⟩ := derived_hex first
  obtain ⟨b, rfl, two⟩ := derived_hex second
  obtain ⟨c, rfl, three⟩ := derived_hex third
  obtain ⟨d, rfl, four⟩ := derived_hex fourth
  refine ⟨a, b, c, d, by rw [derives_text_iff.mp letter]; rfl, ?_⟩
  obtain ⟨_, one⟩ := Option.isSome_iff_exists.mp one
  obtain ⟨_, two⟩ := Option.isSome_iff_exists.mp two
  obtain ⟨_, three⟩ := Option.isSome_iff_exists.mp three
  obtain ⟨_, four⟩ := Option.isSome_iff_exists.mp four
  rw [hexUnit, one, two, three, four]
  rfl

/-- What the character rule derives is one piece of a literal. -/
theorem derived_piece (derived : Derives (grammarOf catalog) [.rule "char".toList] s) :
    ∃ piece : Piece, piece.Legal ∧ s = piece.chars := by
  obtain ⟨body, chosen, inner⟩ :=
    shared_rule charEntry (by simp [sharedRules]) derived
  rcases List.mem_pair.mp chosen with rfl | rfl
  · obtain ⟨c, rfl, listed⟩ := derives_one_of_iff.mp inner
    have other : c ∉ ['"', '\\'] := fun inside =>
      Bool.noConfusion (listed.symm.trans ((in_singles_iff ['"', '\\'] c).mpr inside))
    refine ⟨.plain c, ?_, rfl⟩
    rwa [List.mem_pair, not_or] at other
  · obtain ⟨_, _, rfl, slash, escape⟩ := derives_cons_iff.mp inner
    rw [derives_text_iff.mp slash]
    obtain ⟨body, chosen, inner⟩ := derives_group_iff.mp escape
    rcases List.mem_pair.mp chosen with rfl | rfl
    · obtain ⟨c, rfl, listed⟩ := derives_one_of_iff.mp inner
      have escapes : ("\"\\/bfnrt".toList.all fun c => (escapedChar c).isSome) = true := by decide
      exact ⟨.escape c, List.all_eq_true.mp escapes c ((in_singles_iff _ c).mp listed), rfl⟩
    · obtain ⟨a, b, c, d, rfl, unit⟩ := derived_unicode inner
      exact ⟨.unicode a b c d, unit, rfl⟩

theorem derived_string (derived : Derives (grammarOf catalog) [stringElem] s) :
    ∃ pieces, StringText pieces s := by
  have inner := single_rule stringEntry (by simp [sharedRules]) rfl derived
  obtain ⟨_, _, rfl, opening, rest⟩ := derives_cons_iff.mp inner
  obtain ⟨_, _, rfl, middle, closing⟩ := derives_cons_iff.mp rest
  obtain ⟨parts, rfl, all⟩ := derives_many_iff.mp middle
  rw [derives_text_iff.mp opening, derives_text_iff.mp closing]
  have pieces : ∃ pieces : List Piece, parts.flatten = pieceChars pieces ∧
      ∀ piece ∈ pieces, piece.Legal := by
    clear derived inner opening rest middle closing
    induction parts with
    | nil => exact ⟨[], rfl, List.forall_mem_nil _⟩
    | cons part parts ih =>
        obtain ⟨here, others⟩ := List.forall_mem_cons.mp all
        obtain ⟨piece, legal, rfl⟩ := derived_piece here
        obtain ⟨pieces, same, allLegal⟩ := ih others
        refine ⟨piece :: pieces, ?_, List.forall_mem_cons.mpr ⟨legal, allLegal⟩⟩
        rw [List.flatten_cons, same]
        rfl
  obtain ⟨pieces, same, legal⟩ := pieces
  rw [same]
  exact ⟨pieces, rfl, legal⟩

/-! ## Arguments -/

theorem name_text (name : String) : nameText name = quoted (plainPieces name.toList) := by
  rw [nameText, quoted, plain_piece_chars]

theorem derived_blank_cons {more : List Elem}
    (derived : Derives (grammarOf catalog) (wsElem :: more) s) :
    ∃ blank rest, s = blank ++ rest ∧ Blank blank ∧ Derives (grammarOf catalog) more rest := by
  obtain ⟨blank, rest, same, here, others⟩ := derives_cons_iff.mp derived
  exact ⟨blank, rest, same, derived_blank here, others⟩

/-- A key, its value and the blanks around them. -/
theorem derived_member {key : String} {more : List Elem} (value : List Elem)
    (derived : Derives (grammarOf catalog)
      (.text (nameText key) :: wsElem :: word ":" :: wsElem :: (value ++ wsElem :: more)) s) :
    ∃ b c t d rest, (Blank b ∧ Blank c ∧ Blank d) ∧ Derives (grammarOf catalog) value t ∧
      Derives (grammarOf catalog) more rest ∧
      s = quoted (plainPieces key.toList) ++ b ++ ':' :: c ++ t ++ d ++ rest := by
  obtain ⟨_, rfl, afterKey⟩ := derives_text_cons_iff.mp derived
  obtain ⟨b, _, rfl, behind, colon⟩ := derived_blank_cons afterKey
  obtain ⟨_, rfl, afterColon⟩ := derives_text_cons_iff.mp colon
  obtain ⟨c, _, rfl, inner, both⟩ := derived_blank_cons afterColon
  obtain ⟨t, _, rfl, here, afterValue⟩ := derives_append_iff.mp both
  obtain ⟨d, rest, rfl, after, others⟩ := derived_blank_cons afterValue
  refine ⟨b, c, t, d, rest, ⟨behind, inner, after⟩, here, others, ?_⟩
  rw [name_text]
  simp

/-- What stands behind an entry: nothing, or a comma and more entries with these keys. -/
def Continues (catalog : Catalog) (elems : List Elem) (names : List String) : Prop :=
  ∀ t, Derives (grammarOf catalog) elems t →
    (t = [] ∧ names = []) ∨
      ∃ entries rest, t = ',' :: rest ∧ Members StringText entries rest ∧ Offers names entries

variable {p : ParamSpec} {more : List Elem} {names : List String}

/-- A key and its literal, and what stands behind them. -/
theorem derived_pair (plain : PlainName p.name) (continues : Continues catalog more names)
    {blank : List Char} (before : Blank blank)
    (derived : Derives (grammarOf catalog) (pairElems p ++ wsElem :: more) s) :
    ∃ entries, Members StringText entries (blank ++ s) ∧ Offers (p.name :: names) entries := by
  obtain ⟨b, c, _, d, t, ⟨behind, inner, after⟩, string, rest, rfl⟩ :=
    derived_member [stringElem] derived
  obtain ⟨pieces, spelled⟩ := derived_string string
  rcases continues t rest with ⟨rfl, rfl⟩ | ⟨entries, tail, rfl, members, offers⟩
  · refine ⟨_, ?_, List.forall_mem_singleton.mpr ⟨(plainPieces p.name.toList, pieces),
      List.mem_singleton.mpr rfl, rfl⟩⟩
    have whole := Members.last before behind inner after plain.legal spelled
    simpa [word] using whole
  · refine ⟨(plainPieces p.name.toList, pieces) :: entries, ?_, List.forall_mem_cons.mpr
      ⟨⟨_, List.mem_cons_self .., rfl⟩, fun name member => ?_⟩⟩
    · have whole := Members.more before behind inner after plain.legal spelled members
      simpa [word] using whole
    · obtain ⟨entry, inside, key⟩ := offers name member
      exact ⟨entry, List.mem_cons_of_mem _ inside, key⟩

theorem continues_nil : Continues catalog [] [] := by
  intro t derived
  exact .inl ⟨derives_nil_iff.mp derived, rfl⟩

theorem continues_required (plain : PlainName p.name) (continues : Continues catalog more names) :
    Continues catalog (requiredElems p ++ more) (p.name :: names) := by
  intro t derived
  rw [requiredElems, List.cons_append, List.cons_append, List.append_assoc] at derived
  obtain ⟨_, rfl, rest⟩ := derives_text_cons_iff.mp derived
  obtain ⟨blank, _, rfl, before, rest⟩ := derived_blank_cons rest
  obtain ⟨entries, members, offers⟩ := derived_pair plain continues before rest
  exact .inr ⟨entries, _, rfl, members, offers⟩

theorem continues_optional (plain : PlainName p.name) (continues : Continues catalog more names) :
    Continues catalog (optionalElems p ++ more) names := by
  intro t derived
  obtain ⟨first, rest, rfl, optional, others⟩ := derives_cons_iff.mp derived
  rcases derives_maybe_iff.mp optional with rfl | present
  · exact continues rest others
  · obtain ⟨body, chosen, inner⟩ := derives_group_iff.mp present
    rw [List.mem_singleton.mp chosen] at inner
    have whole := derives_append_iff.mpr ⟨first, rest, rfl, inner, others⟩
    rcases continues_required plain continues _ whole with ⟨_, none⟩ | ⟨entries, tail, same, members, offers⟩
    · cases none
    · exact .inr ⟨entries, tail, same, members, fun name member =>
        offers name (List.mem_cons_of_mem _ member)⟩

theorem continues_optionals {params : List ParamSpec} (plain : ∀ p ∈ params, PlainName p.name) :
    Continues catalog (params.flatMap optionalElems) [] := by
  induction params with
  | nil => exact continues_nil
  | cons p params ih =>
      obtain ⟨here, others⟩ := List.forall_mem_cons.mp plain
      rw [List.flatMap_cons]
      exact continues_optional here (ih others)

theorem continues_requireds {params : List ParamSpec} (plain : ∀ p ∈ params, PlainName p.name)
    (continues : Continues catalog more names) :
    Continues catalog (params.flatMap requiredElems ++ more)
      (params.map ParamSpec.name ++ names) := by
  induction params with
  | nil => exact continues
  | cons p params ih =>
      obtain ⟨here, others⟩ := List.forall_mem_cons.mp plain
      rw [List.flatMap_cons, List.append_assoc]
      exact continues_required here (ih others)

/-- The arguments that are derived are an object of literals under these names, and none that
the tool requires is missing. -/
theorem derived_args {params : List ParamSpec} (plain : ∀ p ∈ params, PlainName p.name)
    (derived : Derives (grammarOf catalog) (argsElems params) s) :
    ∃ entries, ObjectText StringText entries s ∧
      Offers ((params.filter (·.required)).map ParamSpec.name) entries := by
  have plainRequired : ∀ p ∈ params.filter (·.required), PlainName p.name := fun p member =>
    plain p (List.mem_of_mem_filter member)
  have plainOptional : ∀ p ∈ params.filter (!·.required), PlainName p.name := fun p member =>
    plain p (List.mem_of_mem_filter member)
  rw [argsElems] at derived
  generalize params.filter (·.required) = required at *
  generalize params.filter (!·.required) = optional at *
  cases required with
  | nil =>
      cases optional with
      | nil =>
          obtain ⟨_, rfl, rest⟩ := derives_text_cons_iff.mp derived
          obtain ⟨blank, _, rfl, inner, rest⟩ := derived_blank_cons rest
          rw [derives_text_iff.mp rest]
          exact ⟨[], .empty inner, List.forall_mem_nil _⟩
      | cons first others =>
          obtain ⟨here, tail⟩ := List.forall_mem_cons.mp plainOptional
          obtain ⟨_, rfl, rest⟩ := derives_text_cons_iff.mp derived
          obtain ⟨blank, _, rfl, inner, rest⟩ := derived_blank_cons rest
          obtain ⟨middle, _, rfl, optional, closing⟩ := derives_cons_iff.mp rest
          rw [derives_text_iff.mp closing]
          rcases derives_maybe_iff.mp optional with rfl | present
          · exact ⟨[], .empty inner, List.forall_mem_nil _⟩
          · obtain ⟨body, chosen, derived⟩ := derives_group_iff.mp present
            rw [List.mem_singleton.mp chosen] at derived
            obtain ⟨entries, members, _⟩ :=
              derived_pair here (continues_optionals tail) inner derived
            refine ⟨entries, ?_, List.forall_mem_nil _⟩
            have whole := ObjectText.members members
            simpa [word] using whole
  | cons first others =>
      obtain ⟨here, tail⟩ := List.forall_mem_cons.mp plainRequired
      obtain ⟨body, closing, rfl, opened, closed⟩ := derives_append_iff.mp derived
      rw [derives_text_iff.mp closed]
      rw [List.append_assoc, List.cons_append, List.cons_append, List.cons_append] at opened
      obtain ⟨_, rfl, rest⟩ := derives_text_cons_iff.mp opened
      obtain ⟨blank, _, rfl, inner, rest⟩ := derived_blank_cons rest
      obtain ⟨entries, members, offers⟩ := derived_pair here
        (continues_requireds tail (continues_optionals plainOptional)) inner rest
      refine ⟨entries, ?_, by simpa using offers⟩
      have whole := ObjectText.members members
      simpa [word] using whole

/-! ## Calls -/

theorem derived_call {tool : Tool} (plain : ∀ name ∈ tool.names, PlainName name)
    (derived : Derives (grammarOf catalog) (callElems tool) s) :
    ∃ call, CallText call s ∧ call.Calls tool := by
  rw [callElems, List.append_assoc] at derived
  obtain ⟨_, rfl, opened⟩ := derives_text_cons_iff.mp derived
  obtain ⟨a₁, _, rfl, before₁, members⟩ := derived_blank_cons opened
  obtain ⟨b₁, c₁, _, d₁, _, ⟨behind₁, inner₁, after₁⟩, named, comma, rfl⟩ :=
    derived_member [.text (nameText tool.name)] members
  obtain ⟨_, rfl, tail⟩ := derives_text_cons_iff.mp comma
  obtain ⟨a₂, _, rfl, before₂, others⟩ := derived_blank_cons tail
  obtain ⟨b₂, c₂, _, d₂, _, ⟨behind₂, inner₂, after₂⟩, args, lastComma, rfl⟩ :=
    derived_member (argsElems tool.params) others
  obtain ⟨_, rfl, lastTail⟩ := derives_text_cons_iff.mp lastComma
  obtain ⟨a₃, _, rfl, before₃, last⟩ := derived_blank_cons lastTail
  obtain ⟨b₃, c₃, _, d₃, _, ⟨behind₃, inner₃, after₃⟩, string, closing, rfl⟩ :=
    derived_member [stringElem] last
  rw [derives_text_iff.mp closing, derives_text_iff.mp named]
  obtain ⟨rationale, spelled⟩ := derived_string string
  have params : ∀ p ∈ tool.params, PlainName p.name := fun p member =>
    plain p.name (List.mem_cons_of_mem _ (List.mem_map_of_mem member))
  obtain ⟨entries, objectText, offers⟩ := derived_args params args
  refine ⟨⟨plainPieces tool.name.toList, entries, rationale⟩, ?_, rfl, offers⟩
  have plainKey : ∀ key ∈ ["tool", "args", "rationale"], PlainName key :=
    plain_names (by decide)
  have last := Members.last before₃ behind₃ inner₃ after₃ (plainKey "rationale" (by simp)).legal
    (PartText.text spelled)
  have middle := Members.more before₂ behind₂ inner₂ after₂ (plainKey "args" (by simp)).legal
    (PartText.texts objectText) last
  have members := Members.more before₁ behind₁ inner₁ after₁ (plainKey "tool" (by simp)).legal
    (PartText.text ⟨name_text tool.name, (plain tool.name (List.mem_cons_self ..)).legal⟩) middle
  have whole := ObjectText.members members
  simp only [CallText, ToolCall.parts]
  simpa [word, name_text] using whole

theorem derived_call_rule (ordinary : Ordinary catalog)
    (derived : Derives (grammarOf catalog) [.rule "call".toList] s) :
    ∃ call, CallText call s ∧ ∃ tool ∈ catalog, call.Calls tool := by
  obtain ⟨body, chosen, inner⟩ :=
    shared_rule (callEntry catalog) (by simp [sharedRules]) derived
  obtain ⟨tool, _, rfl⟩ := List.mem_map.mp chosen
  obtain ⟨other, member, elems⟩ := tool_rule inner
  obtain ⟨call, spelled, calls⟩ := derived_call (ordinary.names other member) elems
  exact ⟨call, spelled, other, member, calls⟩

/-- A call and the repetition behind it are items of an array. -/
theorem derived_items (ordinary : Ordinary catalog) {call : ToolCall} {blank last : List Char}
    {parts : List (List Char)} (before : Blank blank) (after : Blank last)
    (spelled : CallText call s) (calls : ∃ tool ∈ catalog, call.Calls tool)
    (all : ∀ part ∈ parts, Derives (grammarOf catalog) [nextElem] part) :
    ∃ others, Items CallText others (blank ++ s ++ (parts.flatten ++ last)) ∧
      ∀ call ∈ others, ∃ tool ∈ catalog, call.Calls tool := by
  induction parts generalizing call blank s with
  | nil =>
      exact ⟨[call], .last before after spelled, List.forall_mem_singleton.mpr calls⟩
  | cons part parts ih =>
      obtain ⟨next, others⟩ := List.forall_mem_cons.mp all
      obtain ⟨body, chosen, inner⟩ := derives_group_iff.mp next
      rw [List.mem_singleton.mp chosen] at inner
      obtain ⟨behind, _, rfl, gap, comma⟩ := derived_blank_cons inner
      obtain ⟨_, rfl, tail⟩ := derives_text_cons_iff.mp comma
      obtain ⟨front, _, rfl, space, rule⟩ := derived_blank_cons tail
      obtain ⟨another, anotherText, anotherCalls⟩ := derived_call_rule ordinary rule
      obtain ⟨items, itemsText, each⟩ := ih space anotherText anotherCalls others
      refine ⟨call :: items, ?_, List.forall_mem_cons.mpr ⟨calls, each⟩⟩
      have whole := Items.more before gap spelled itemsText
      simpa [word] using whole

/-- What the grammar of such a catalog derives is an array of calls of its tools. -/
theorem derived_calls (ordinary : Ordinary catalog)
    (derived : Derives (grammarOf catalog) [.rule "root".toList] s) :
    ∃ calls, CallsText calls s ∧ ∀ call ∈ calls, ∃ tool ∈ catalog, call.Calls tool := by
  have inner := single_rule rootEntry (by simp [sharedRules]) rfl derived
  obtain ⟨before, _, rfl, blank, opening⟩ := derived_blank_cons inner
  obtain ⟨_, rfl, opened⟩ := derives_text_cons_iff.mp opening
  obtain ⟨front, _, rfl, space, rule⟩ := derived_blank_cons opened
  obtain ⟨_, _, rfl, first, others⟩ := derives_cons_iff.mp rule
  obtain ⟨_, _, rfl, repeated, gap⟩ := derives_cons_iff.mp others
  obtain ⟨last, _, rfl, behind, closing⟩ := derived_blank_cons gap
  obtain ⟨_, rfl, closed⟩ := derives_text_cons_iff.mp closing
  obtain ⟨call, spelled, calls⟩ := derived_call_rule ordinary first
  obtain ⟨parts, rfl, all⟩ := derives_many_iff.mp repeated
  obtain ⟨items, itemsText, each⟩ := derived_items ordinary space behind spelled calls all
  refine ⟨items, ⟨before, _, _, blank, derived_blank closed, itemsText, ?_⟩, each⟩
  simp

theorem last_literal_of_mem {name : String} {entry : List Piece × List Piece}
    {args : List (List Piece × List Piece)} (member : entry ∈ args)
    (key : entry.1 = plainPieces name.toList) :
    ∃ literal, lastLiteral name args = some literal := by
  have inside : entry ∈ args.filter fun entry => readText entry.1 = name := by
    rw [List.mem_filter, key, read_plain_pieces, decide_eq_true_eq]
    exact ⟨member, rfl⟩
  have present := List.getLast?_isSome.mpr (List.ne_nil_of_mem inside)
  obtain ⟨last, found⟩ := Option.isSome_iff_exists.mp present
  exact ⟨last.2, by rw [lastLiteral, found]; rfl⟩

theorem fits_of_calls {call : ToolCall} {tool : Tool} (found : catalog.get tool.name = some tool)
    (calls : call.Calls tool) : call.Fits catalog := by
  obtain ⟨name, offers⟩ := calls
  refine ⟨tool, by rw [name, read_plain_pieces]; exact found, fun p member required => ?_⟩
  have listed : p ∈ tool.params.filter (·.required) := List.mem_filter.mpr ⟨member, required⟩
  obtain ⟨entry, inside, key⟩ := offers p.name (List.mem_map_of_mem listed)
  exact last_literal_of_mem inside key

end Rules

/-- A derived text is read as the calls it spells exactly when it spells calls that fit the
catalog and whose arguments are written whole. With ordinary names only the last is in
question. -/
theorem derived_calls_agree_iff (debug : String → String) (catalog : Catalog) (text : List Char)
    (derived : Derives (grammarOf catalog) [.rule "root".toList] text) :
    (CallsAgree debug catalog text ↔
      ∃ calls, CallsText calls text ∧ ∀ call ∈ calls, call.Fits catalog ∧ call.Whole) ∧
    (Ordinary catalog →
      (CallsAgree debug catalog text ↔
        ∃ calls, CallsText calls text ∧ ∀ call ∈ calls, call.Whole)) := by
  have general : CallsAgree debug catalog text ↔
      ∃ calls, CallsText calls text ∧ ∀ call ∈ calls, call.Fits catalog ∧ call.Whole := by
    constructor
    · intro agree
      obtain ⟨calls, _, spelled, _, _⟩ := id agree
      exact ⟨calls, spelled, (calls_agree_iff debug catalog spelled).mp agree⟩
    · rintro ⟨calls, spelled, all⟩
      exact (calls_agree_iff debug catalog spelled).mpr all
  refine ⟨general, fun ordinary => general.trans ?_⟩
  obtain ⟨calls, spelled, named⟩ := derived_calls ordinary derived
  constructor
  · rintro ⟨others, otherSpelled, all⟩
    exact ⟨others, otherSpelled, fun call member => (all call member).2⟩
  · rintro ⟨others, otherSpelled, whole⟩
    obtain rfl := calls_unique otherSpelled spelled
    refine ⟨others, spelled, fun call member => ⟨?_, whole call member⟩⟩
    obtain ⟨tool, inside, calls⟩ := named call member
    exact fits_of_calls (ordinary.found tool inside) calls

/-! ## A path with a character beyond the basic plane -/

section Samples

variable {catalog : Catalog} {s : List Char}

theorem standard_ordinary (os : Os) (rank : Ranking) : Ordinary (Catalog.standard os rank) where
  names tool member := by
    have listed : tool.names ∈ (Catalog.standard os rank).map Tool.names :=
      List.mem_map_of_mem member
    have all : (Catalog.standard os rank).map Tool.names = [["list_dir", "path"],
        ["read_file", "path"], ["find", "dir", "query"], ["move_file", "src", "dst"],
        ["delete_file", "path"]] := rfl
    have plain : ∀ names ∈ [["list_dir", "path"], ["read_file", "path"], ["find", "dir", "query"],
        ["move_file", "src", "dst"], ["delete_file", "path"]], ∀ name ∈ names, PlainName name := by
      intro names member
      simp only [List.mem_cons, List.not_mem_nil, or_false] at member
      rcases member with rfl | rfl | rfl | rfl | rfl <;> exact plain_names (by decide)
    rw [all] at listed
    exact plain tool.names listed
  found tool member := by
    simp only [Catalog.standard, List.mem_cons, List.not_mem_nil, or_false] at member
    rcases member with rfl | rfl | rfl | rfl | rfl <;> rfl

theorem derives_shared (entry : Rule) {body : List Elem} (shared : entry ∈ sharedRules catalog)
    (chosen : body ∈ entry.alternatives) (inner : Derives (grammarOf catalog) body s) :
    Derives (grammarOf catalog) [.rule entry.name] s :=
  derives_rule_iff.mpr ⟨entry, mem_grammar_iff.mpr (.inl shared), rfl, body, chosen, inner⟩

theorem derives_hex {c : Char} (digit : (hexValue c).isSome = true) :
    Derives (grammarOf catalog) [hexElem] [c] := by
  apply derives_shared hexEntry (by simp [sharedRules]) (List.mem_singleton.mpr rfl)
  refine derives_one_of_iff.mpr ⟨c, rfl, ?_⟩
  rw [hexValue] at digit
  simp only [inRanges, List.any_cons, List.any_nil, Bool.or_false, Bool.not_false,
    Bool.or_eq_true, Bool.and_eq_true, decide_eq_true_eq]
  split_ifs at digit <;> tauto

/-- Every piece of a literal is derived. -/
theorem derives_piece {piece : Piece} (legal : piece.Legal) :
    Derives (grammarOf catalog) [.rule "char".toList] piece.chars := by
  have shared : charEntry ∈ sharedRules catalog := by simp [sharedRules]
  cases piece with
  | plain c =>
      apply derives_shared charEntry shared (List.mem_pair.mpr (.inl rfl))
      have other : c ∉ ['"', '\\'] := by
        rw [List.mem_pair, not_or]
        exact legal
      refine derives_one_of_iff.mpr ⟨c, rfl, ?_⟩
      exact Bool.eq_false_iff.mpr fun inside => other ((in_singles_iff ['"', '\\'] c).mp inside)
  | escape e =>
      apply derives_shared charEntry shared (List.mem_pair.mpr (.inr rfl))
      have listed : e ∈ "\"\\/bfnrt".toList := by
        change (escapedChar e).isSome = true at legal
        unfold escapedChar at legal
        split at legal <;> first | decide | cases legal
      refine Derives.text (s := [e]) (derives_group_iff.mpr ⟨_, List.mem_pair.mpr (.inl rfl), ?_⟩)
      exact derives_one_of_iff.mpr ⟨e, rfl, (in_singles_iff _ e).mpr listed⟩
  | unicode a b c d =>
      apply derives_shared charEntry shared (List.mem_pair.mpr (.inr rfl))
      obtain ⟨unit, found⟩ := Option.isSome_iff_exists.mp legal
      simp only [hexUnit, Option.bind_eq_bind, Option.bind_eq_some_iff] at found
      obtain ⟨_, first, _, second, _, third, _, fourth, _⟩ := found
      refine Derives.text (s := ['u', a, b, c, d])
        (derives_group_iff.mpr ⟨_, List.mem_pair.mpr (.inr rfl), ?_⟩)
      exact Derives.text (s := [a, b, c, d]) ((derives_hex (by rw [first]; rfl)).cons
        ((derives_hex (by rw [second]; rfl)).cons ((derives_hex (by rw [third]; rfl)).cons
          (derives_hex (by rw [fourth]; rfl)))))

/-- Every literal is derived. -/
theorem derives_string {pieces : List Piece} (legal : ∀ piece ∈ pieces, piece.Legal) :
    Derives (grammarOf catalog) [stringElem] (quoted pieces) := by
  apply derives_shared stringEntry (by simp [sharedRules]) (List.mem_singleton.mpr rfl)
  have middle : Derives (grammarOf catalog) [.many (.rule "char".toList)] (pieceChars pieces) := by
    refine derives_many_iff.mpr ⟨pieces.map Piece.chars, List.flatMap_def, ?_⟩
    intro part member
    obtain ⟨piece, inside, rfl⟩ := List.mem_map.mp member
    exact derives_piece (legal piece inside)
  exact Derives.text (middle.cons (derives_text_iff.mpr rfl))

theorem derives_without_blank {more : List Elem} (derived : Derives (grammarOf catalog) more s) :
    Derives (grammarOf catalog) (wsElem :: more) s := by
  have none : Derives (grammarOf catalog) [wsElem] [] :=
    derives_shared wsEntry (by simp [sharedRules]) (List.mem_singleton.mpr rfl)
      (.none .nil)
  exact none.cons derived

/-- A call without blanks. -/
def writtenCall (tool : String) (object rationale : List Char) : List Char :=
  '\x7b' :: (nameText "tool" ++ ':' :: (nameText tool ++ ',' :: (nameText "args" ++ ':' ::
    (object ++ ',' :: (nameText "rationale" ++ ':' :: (rationale ++ ['\x7d']))))))

theorem written_call_derived {tool : Tool} {object : List Char}
    (args : Derives (grammarOf catalog) (argsElems tool.params) object) {rationale : List Piece}
    (legal : ∀ piece ∈ rationale, piece.Legal) :
    Derives (grammarOf catalog) (callElems tool)
      (writtenCall tool.name object (quoted rationale)) := by
  have last : Derives (grammarOf catalog)
      [wsElem, word ",", wsElem, .text (nameText "rationale"), wsElem, word ":", wsElem, stringElem,
        wsElem, word "\x7d"]
      (",".toList ++ (nameText "rationale" ++ (":".toList ++ (quoted rationale ++
        ("\x7d".toList ++ []))))) :=
    derives_without_blank (.text (derives_without_blank (.text (derives_without_blank
      (.text (derives_without_blank ((derives_string legal).cons
        (derives_without_blank (.text .nil)))))))))
  have tail := derives_append_iff.mpr ⟨_, _, rfl, args, last⟩
  rw [callElems, List.append_assoc]
  exact .text (derives_without_blank (.text (derives_without_blank (.text (derives_without_blank
    (.text (derives_without_blank (.text (derives_without_blank (.text (derives_without_blank
      (.text (derives_without_blank tail)))))))))))))

/-- One call of a tool in brackets. -/
theorem single_call_derived {tool : Tool} (member : tool ∈ catalog)
    (call : Derives (grammarOf catalog) (callElems tool) s) :
    Derives (grammarOf catalog) [.rule "root".toList] ('[' :: (s ++ [']'])) := by
  have named : Derives (grammarOf catalog) [.rule (callName tool)] s :=
    derives_rule_iff.mpr ⟨toolEntry tool, mem_grammar_iff.mpr (.inr ⟨tool, member, rfl⟩), rfl, _,
      List.mem_singleton.mpr rfl, call⟩
  have rule : Derives (grammarOf catalog) [.rule "call".toList] s :=
    derives_shared (callEntry catalog) (by simp [sharedRules])
      (List.mem_map_of_mem member) named
  have closing : Derives (grammarOf catalog) [wsElem, word "]", wsElem] [']'] :=
    derives_without_blank (.text (derives_without_blank .nil))
  exact derives_shared rootEntry (by simp [sharedRules]) (List.mem_singleton.mpr rfl)
    (derives_without_blank (.text (derives_without_blank (rule.cons (.none closing)))))

/-- A call that lists a directory. -/
def listCall (path : List Piece) : ToolCall :=
  ⟨plainPieces "list_dir".toList, [(plainPieces "path".toList, path)], []⟩

def listCallText (path : List Piece) : List Char :=
  '[' :: (writtenCall "list_dir" ('\x7b' :: (nameText "path" ++ ':' :: (quoted path ++ ['\x7d'])))
    (quoted []) ++ [']'])

theorem list_call_derived {path : List Piece} (legal : ∀ piece ∈ path, piece.Legal) :
    Derives (grammarOf standardCatalog) [.rule "root".toList] (listCallText path) := by
  have args : Derives (grammarOf standardCatalog) (argsElems (listDir obligingOs).params)
      ('\x7b' :: (nameText "path" ++ ':' :: (quoted path ++ ['\x7d']))) :=
    .text (derives_without_blank (.text (derives_without_blank (.text (derives_without_blank
      ((derives_string legal).cons (derives_without_blank (.text .nil))))))))
  exact single_call_derived (List.mem_cons_self ..)
    (written_call_derived args (List.forall_mem_nil _))

theorem key_legal : ∀ key ∈ ["tool", "args", "rationale", "list_dir", "path"], PlainName key :=
  plain_names (by decide)

theorem list_call_spelled {path : List Piece} (legal : ∀ piece ∈ path, piece.Legal) :
    CallsText [listCall path] (listCallText path) := by
  have blank : Blank [] := List.forall_mem_nil _
  have literal : StringText path (quoted path) := ⟨rfl, legal⟩
  have empty : StringText [] (quoted []) := ⟨rfl, List.forall_mem_nil _⟩
  have name : StringText (plainPieces "list_dir".toList) (nameText "list_dir") :=
    ⟨name_text _, (key_legal "list_dir" (by simp)).legal⟩
  have object : ObjectText StringText [(plainPieces "path".toList, path)]
      ('\x7b' :: (nameText "path" ++ ':' :: (quoted path ++ ['\x7d']))) := by
    have member := Members.last blank blank blank blank (key_legal "path" (by simp)).legal literal
    simpa [name_text] using ObjectText.members member
  have rationale := Members.last blank blank blank blank (key_legal "rationale" (by simp)).legal
    (PartText.text empty)
  have args := Members.more blank blank blank blank (key_legal "args" (by simp)).legal
    (PartText.texts object) rationale
  have tool := Members.more blank blank blank blank (key_legal "tool" (by simp)).legal
    (PartText.text name) args
  have call : CallText (listCall path) (writtenCall "list_dir"
      ('\x7b' :: (nameText "path" ++ ':' :: (quoted path ++ ['\x7d']))) (quoted [])) := by
    simpa [CallText, ToolCall.parts, listCall, writtenCall, name_text] using ObjectText.members tool
  refine ⟨[], _, [], blank, blank, .last blank blank call, ?_⟩
  simp [listCallText]

theorem list_call_whole_iff (path : List Piece) :
    (∀ call ∈ [listCall path], call.Whole) ↔ ∀ piece ∈ path, piece.Whole := by
  have last : ∀ key literal, lastLiteral key (listCall path).args = some literal ↔
      key = "path" ∧ literal = path := by
    intro key literal
    rw [lastLiteral, listCall]
    by_cases here : "path" = key
    · rw [List.filter_cons_of_pos (by rw [read_plain_pieces]; exact decide_eq_true here)]
      simp [here, eq_comm]
    · rw [List.filter_cons_of_neg (by rw [read_plain_pieces, decide_eq_true_eq]; exact here)]
      simp [Ne.symm here]
  rw [List.forall_mem_singleton, ToolCall.Whole]
  constructor
  · intro whole
    exact whole "path" path ((last _ _).mpr ⟨rfl, rfl⟩)
  · intro whole key literal found
    rw [((last _ _).mp found).2]
    exact whole

theorem listed_path_agrees :
    CallsAgree id standardCatalog (listCallText (plainPieces "/a".toList)) := by
  have legal : ∀ piece ∈ plainPieces "/a".toList, piece.Legal :=
    (@plain_names ["/a"] (by decide) "/a" (List.mem_singleton.mpr rfl)).legal
  rw [(derived_calls_agree_iff id standardCatalog _ (list_call_derived legal)).2
    (standard_ordinary _ _)]
  refine ⟨_, list_call_spelled legal, (list_call_whole_iff _).mpr fun piece member => ?_⟩
  obtain ⟨c, inside, rfl⟩ := List.mem_map.mp member
  have plain : ("/a".toList.all fun c => decide (0x20 ≤ c.toNat)) = true := by decide
  have high : 0x20 ≤ c.toNat := of_decide_eq_true (List.all_eq_true.mp plain c inside)
  exact high

/-- The two halves of U+1F600. -/
def surrogatePath : List Piece := [.unicode 'd' '8' '3' 'd', .unicode 'd' 'e' '0' '0']

/-- The literal denotes U+1F600, and the step gets two replacement characters. -/
theorem surrogate_pair_taken_apart :
    listCallText surrogatePath = ("[\x7b\"tool\":\"list_dir\",\"args\":\x7b\"path\":" ++
      "\"\\ud83d\\ude00\"\x7d,\"rationale\":\"\"\x7d]").toList ∧
    Derives (grammarOf standardCatalog) [.rule "root".toList] (listCallText surrogatePath) ∧
      jsonUnits (pieceChars surrogatePath) = some (encodeUtf16 "😀") ∧
      parseToolCalls id (String.ofList (listCallText surrogatePath)) standardCatalog =
        .ok [⟨"list_dir", (∅ : Args).insert "path" "\uFFFD\uFFFD", ""⟩] ∧
      ¬CallsAgree id standardCatalog (listCallText surrogatePath) := by
  have legal : ∀ piece ∈ surrogatePath, piece.Legal := by
    intro piece member
    rcases List.mem_pair.mp member with rfl | rfl
    · exact (by decide : (hexUnit 'd' '8' '3' 'd').isSome = true)
    · exact (by decide : (hexUnit 'd' 'e' '0' '0').isSome = true)
  have spelled := list_call_spelled legal
  refine ⟨by decide +kernel, list_call_derived legal, by decide, ?_, ?_⟩
  · have step : (listCall surrogatePath).step =
        ⟨"list_dir", (∅ : Args).insert "path" "\uFFFD\uFFFD", ""⟩ := by
      have args : (listCall surrogatePath).readArgs =
          (argsOf []).insert (readText (plainPieces "path".toList)) (readText surrogatePath) :=
        args_of_append [] _ _
      have path : readText surrogatePath = "\uFFFD\uFFFD" := by decide
      rw [ToolCall.step, args, listCall, read_plain_pieces, read_plain_pieces, path]
      rfl
    rw [parse_tool_calls_iff id standardCatalog spelled, List.forall_mem_singleton, listCall,
      read_plain_pieces, ← listCall, List.map_singleton, step]
    exact ⟨rfl, rfl⟩
  · intro agrees
    have whole := (calls_agree_iff id standardCatalog spelled).mp agrees
    have pieces := (list_call_whole_iff _).mp fun call member => (whole call member).2
    have first := pieces (.unicode 'd' '8' '3' 'd') (List.mem_cons_self ..)
    have unit : hexUnit 'd' '8' '3' 'd' = some 0xD83D := by decide
    have bounds := first 0xD83D unit
    exact absurd bounds (by decide)

end Samples

end HorizonOs.Aura
