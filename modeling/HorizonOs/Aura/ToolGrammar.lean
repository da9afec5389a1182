import HorizonOs.Aura.Tool
import HorizonOs.Lib.Gbnf

/-!
# The grammar of tool calls

What the planner model may emit for a catalog: an array of calls, each with the name of a tool
and that tool's own arguments.
-/

namespace HorizonOs.Aura

open HorizonOs.Lib.Gbnf

set_option autoImplicit false

/-! ## The text -/

/-- A terminal that matches this text. -/
def lit (s : List Char) : List Char := '"' :: s.flatMap quoteChar ++ ['"']

/-- A rule name: what is no ASCII letter or digit becomes a dash. -/
def ruleId (name : String) : List Char := name.toList.map fun c => if c.isAlphanum then c else '-'

def callName (tool : Tool) : List Char := ruleId tool.name ++ "-call".toList

/-- A name between quotes. -/
def nameText (name : String) : List Char := '"' :: name.toList ++ ['"']

def pairRule (p : ParamSpec) : List Char := lit (nameText p.name) ++ " ws \":\" ws string".toList

def requiredRule (p : ParamSpec) : List Char := "\",\" ws ".toList ++ pairRule p ++ " ws ".toList

def optionalRule (p : ParamSpec) : List Char :=
  "( \",\" ws ".toList ++ pairRule p ++ " ws )? ".toList

/-- The object of a tool's arguments: its required keys in order, then any optional ones. The
first key anchors the commas. -/
def argsObjectRule (params : List ParamSpec) : List Char :=
  match params.filter (·.required), params.filter (!·.required) with
  | [], [] => "\"\x7b\" ws \"\x7d\"".toList
  | first :: rest, optional =>
      "\"\x7b\" ws ".toList ++ pairRule first ++ " ws ".toList ++ rest.flatMap requiredRule ++
        optional.flatMap optionalRule ++ "\"\x7d\"".toList
  | [], first :: rest =>
      "\"\x7b\" ws ( ".toList ++ pairRule first ++ " ws ".toList ++ rest.flatMap optionalRule ++
        ")? \"\x7d\"".toList

def callRule (tool : Tool) : List Char :=
  callName tool ++ " ::= \"\x7b\" ws ".toList ++ lit (nameText "tool") ++ " ws \":\" ws ".toList ++
    lit (nameText tool.name) ++ " ws \",\" ws ".toList ++ lit (nameText "args") ++
    " ws \":\" ws ".toList ++ argsObjectRule tool.params ++ " ws \",\" ws ".toList ++
    lit (nameText "rationale") ++ " ws \":\" ws string ws \"\x7d\"\n".toList

/-- `tool_call_grammar`. -/
def toolCallGrammar (catalog : Catalog) : List Char :=
  "root ::= ws \"[\" ws call ( ws \",\" ws call )* ws \"]\" ws\ncall ::= ".toList ++
    List.intercalate " | ".toList (catalog.map callName) ++ "\n".toList ++
    catalog.flatMap callRule ++
    ("string ::= \"\\\"\" char* \"\\\"\"\n" ++
      "char ::= [^\"\\\\] | \"\\\\\" ([\"\\\\/bfnrt] | \"u\" hex hex hex hex)\n" ++
      "hex ::= [0-9a-fA-F]\nws ::= [ \\t\\n]*\n").toList

/-! ## The grammar the text is the notation of -/

def wsElem : Elem := .rule "ws".toList
def stringElem : Elem := .rule "string".toList
def hexElem : Elem := .rule "hex".toList
def word (text : String) : Elem := .text text.toList

def pairElems (p : ParamSpec) : List Elem :=
  [.text (nameText p.name), wsElem, word ":", wsElem, stringElem]

def requiredElems (p : ParamSpec) : List Elem := word "," :: wsElem :: pairElems p ++ [wsElem]

def optionalElems (p : ParamSpec) : List Elem := [.maybe (.group [requiredElems p])]

def argsElems (params : List ParamSpec) : List Elem :=
  match params.filter (·.required), params.filter (!·.required) with
  | [], [] => [word "\x7b", wsElem, word "\x7d"]
  | first :: rest, optional =>
      word "\x7b" :: wsElem :: pairElems first ++ wsElem :: rest.flatMap requiredElems ++
        optional.flatMap optionalElems ++ [word "\x7d"]
  | [], first :: rest =>
      [word "\x7b", wsElem, .maybe (.group [pairElems first ++ wsElem :: rest.flatMap optionalElems]),
        word "\x7d"]

def callElems (tool : Tool) : List Elem :=
  [word "\x7b", wsElem, .text (nameText "tool"), wsElem, word ":", wsElem, .text (nameText tool.name),
    wsElem, word ",", wsElem, .text (nameText "args"), wsElem, word ":", wsElem] ++
    argsElems tool.params ++
    [wsElem, word ",", wsElem, .text (nameText "rationale"), wsElem, word ":", wsElem, stringElem,
      wsElem, word "\x7d"]

def nextElem : Elem := .group [[wsElem, word ",", wsElem, .rule "call".toList]]

def rootEntry : Rule where
  name := "root".toList
  alternatives := [[wsElem, word "[", wsElem, .rule "call".toList, .many nextElem, wsElem, word "]",
    wsElem]]

def callEntry (catalog : Catalog) : Rule where
  name := "call".toList
  alternatives := catalog.map fun tool => [.rule (callName tool)]

def toolEntry (tool : Tool) : Rule where
  name := callName tool
  alternatives := [callElems tool]

def stringEntry : Rule where
  name := "string".toList
  alternatives := [[word "\"", .many (.rule "char".toList), word "\""]]

def escapeElem : Elem :=
  .group [[.oneOf false ("\"\\/bfnrt".toList.map fun c => (c, c))],
    [word "u", hexElem, hexElem, hexElem, hexElem]]

def charEntry : Rule where
  name := "char".toList
  alternatives := [[.oneOf true [('"', '"'), ('\\', '\\')]], [word "\\", escapeElem]]

def hexEntry : Rule where
  name := "hex".toList
  alternatives := [[.oneOf false [('0', '9'), ('a', 'f'), ('A', 'F')]]]

def wsEntry : Rule where
  name := "ws".toList
  alternatives := [[.many (.oneOf false [(' ', ' '), ('\t', '\t'), ('\n', '\n')])]]

def grammarOf (catalog : Catalog) : Grammar :=
  [rootEntry, callEntry catalog] ++ catalog.map toolEntry ++
    [stringEntry, charEntry, hexEntry, wsEntry]

/-! ## The text is the notation of the grammar -/

theorem sequence_tokens_append (left right : List Elem) :
    sequenceTokens (left ++ right) = sequenceTokens left ++ sequenceTokens right := by
  induction left with
  | nil => rw [sequenceTokens, List.nil_append, List.nil_append]
  | cons elem left ih =>
      rw [List.cons_append, sequenceTokens, sequenceTokens, ih, List.append_assoc]

theorem layout_lit (chars : List Char) : Layout [.text chars] (lit chars) := by
  have one : Layout [.text chars] (lit chars ++ []) := .token .nil
  rwa [List.append_nil] at one

theorem layout_name (chars : List Char) : Layout [.name chars] chars := by
  have one : Layout [.name chars] (chars ++ []) := .token .nil
  rwa [List.append_nil] at one

theorem layout_pair (p : ParamSpec) : Layout (sequenceTokens (pairElems p)) (pairRule p) :=
  (layout_lit (nameText p.name)).append (layout_of_is_layout (by decide))

theorem layout_required (p : ParamSpec) :
    Layout (sequenceTokens (requiredElems p)) (requiredRule p) := by
  have front : Layout (sequenceTokens [word ",", wsElem]) "\",\" ws ".toList :=
    layout_of_is_layout (by decide)
  have back : Layout (sequenceTokens [wsElem]) " ws ".toList :=
    layout_of_is_layout (by decide +kernel)
  have whole := (front.append (layout_pair p)).append back
  rwa [← sequence_tokens_append, ← sequence_tokens_append] at whole

theorem layout_optional (p : ParamSpec) :
    Layout (sequenceTokens (optionalElems p)) (optionalRule p) := by
  have opening : Layout [.opening] "( ".toList := layout_of_is_layout (by decide +kernel)
  have front : Layout (sequenceTokens [word ",", wsElem]) "\",\" ws ".toList :=
    layout_of_is_layout (by decide +kernel)
  have back : Layout (sequenceTokens [wsElem] ++ [.closing, .question]) " ws )? ".toList :=
    layout_of_is_layout (by decide +kernel)
  have whole := opening.append ((front.append (layout_pair p)).append back)
  have tokens : sequenceTokens (optionalElems p) =
      [.opening] ++ ((sequenceTokens [word ",", wsElem] ++ sequenceTokens (pairElems p)) ++
        (sequenceTokens [wsElem] ++ [.closing, .question])) := by
    simp [optionalElems, sequenceTokens, Elem.tokens, alternativesTokens, requiredElems,
      sequence_tokens_append]
  rw [tokens]
  exact whole

theorem layout_flat_map {α : Type} (elems : α → List Elem) (text : α → List Char)
    (each : ∀ a, Layout (sequenceTokens (elems a)) (text a)) (list : List α) :
    Layout (sequenceTokens (list.flatMap elems)) (list.flatMap text) := by
  induction list with
  | nil => exact .nil
  | cons a list ih =>
      rw [List.flatMap_cons, List.flatMap_cons, sequence_tokens_append]
      exact (each a).append ih

theorem layout_args (params : List ParamSpec) :
    Layout (sequenceTokens (argsElems params)) (argsObjectRule params) := by
  have back : Layout (sequenceTokens [wsElem]) " ws ".toList :=
    layout_of_is_layout (by decide +kernel)
  have ending : Layout (sequenceTokens [word "\x7d"]) "\"\x7d\"".toList :=
    layout_of_is_layout (by decide +kernel)
  rw [argsElems, argsObjectRule]
  generalize params.filter (·.required) = required
  generalize params.filter (!·.required) = optional
  cases required with
  | cons first rest =>
      have front : Layout (sequenceTokens [word "\x7b", wsElem]) "\"\x7b\" ws ".toList :=
        layout_of_is_layout (by decide)
      have whole := ((((front.append (layout_pair first)).append back).append
        (layout_flat_map _ _ layout_required rest)).append
          (layout_flat_map _ _ layout_optional optional)).append ending
      simpa [← sequence_tokens_append] using whole
  | nil =>
      cases optional with
      | nil => exact layout_of_is_layout (by decide +kernel)
      | cons first rest =>
          have front : Layout (sequenceTokens [word "\x7b", wsElem] ++ [.opening])
              "\"\x7b\" ws ( ".toList := layout_of_is_layout (by decide)
          have close : Layout ([.closing, .question] ++ sequenceTokens [word "\x7d"])
              ")? \"\x7d\"".toList := layout_of_is_layout (by decide +kernel)
          have whole := (((front.append (layout_pair first)).append back).append
            (layout_flat_map _ _ layout_optional rest)).append close
          have tokens : sequenceTokens [word "\x7b", wsElem,
              .maybe (.group [pairElems first ++ wsElem :: rest.flatMap optionalElems]),
                word "\x7d"] =
              sequenceTokens [word "\x7b", wsElem] ++ [.opening] ++
                sequenceTokens (pairElems first) ++ sequenceTokens [wsElem] ++
                sequenceTokens (rest.flatMap optionalElems) ++
                  ([.closing, .question] ++ sequenceTokens [word "\x7d"]) := by
            simp [sequenceTokens, Elem.tokens, alternativesTokens, sequence_tokens_append]
          exact tokens ▸ whole

theorem layout_call (tool : Tool) : Layout (toolEntry tool).tokens (callRule tool) := by
  have head : Layout (.assign :: sequenceTokens [word "\x7b", wsElem])
      " ::= \"\x7b\" ws ".toList := layout_of_is_layout (by decide +kernel)
  have colon : Layout (sequenceTokens [wsElem, word ":", wsElem]) " ws \":\" ws ".toList :=
    layout_of_is_layout (by decide +kernel)
  have comma : Layout (sequenceTokens [wsElem, word ",", wsElem]) " ws \",\" ws ".toList :=
    layout_of_is_layout (by decide +kernel)
  have ending : Layout (sequenceTokens [wsElem, word ":", wsElem, stringElem, wsElem, word "\x7d"] ++
      [.newline]) " ws \":\" ws string ws \"\x7d\"\n".toList :=
    layout_of_is_layout (by decide)
  have whole := (((((((((layout_name (callName tool)).append head).append
    (layout_lit (nameText "tool"))).append colon).append (layout_lit (nameText tool.name))).append
      comma).append (layout_lit (nameText "args"))).append colon).append
        (layout_args tool.params)).append (comma.append ((layout_lit (nameText "rationale")).append
          ending))
  have tokens : (toolEntry tool).tokens = [.name (callName tool)] ++
      (.assign :: sequenceTokens [word "\x7b", wsElem]) ++ [.text (nameText "tool")] ++
        sequenceTokens [wsElem, word ":", wsElem] ++ [.text (nameText tool.name)] ++
        sequenceTokens [wsElem, word ",", wsElem] ++ [.text (nameText "args")] ++
        sequenceTokens [wsElem, word ":", wsElem] ++ sequenceTokens (argsElems tool.params) ++
        (sequenceTokens [wsElem, word ",", wsElem] ++ ([.text (nameText "rationale")] ++
          (sequenceTokens [wsElem, word ":", wsElem, stringElem, wsElem, word "\x7d"] ++
            [.newline]))) := by
    simp [Rule.tokens, toolEntry, alternativesTokens, callElems, sequenceTokens, Elem.tokens,
      sequence_tokens_append]
  rw [tokens]
  simpa [callRule] using whole

theorem layout_names (names : List (List Char)) :
    Layout (alternativesTokens (names.map fun name => [.rule name]))
      (List.intercalate " | ".toList names) := by
  induction names with
  | nil => exact .nil
  | cons name names ih =>
      cases names with
      | nil => simpa [alternativesTokens, sequenceTokens, Elem.tokens] using layout_name name
      | cons next names =>
          have bar : Layout [.bar] " | ".toList := layout_of_is_layout (by decide)
          have whole := ((layout_name name).append bar).append ih
          simpa [alternativesTokens, sequenceTokens, Elem.tokens] using whole

/-- What `tool_call_grammar` writes is the notation of the grammar. -/
theorem tool_call_grammar_notes (catalog : Catalog) :
    Notes (grammarOf catalog) (toolCallGrammar catalog) := by
  have front : Layout (rootEntry.tokens ++ [.name "call".toList, .assign])
      "root ::= ws \"[\" ws call ( ws \",\" ws call )* ws \"]\" ws\ncall ::= ".toList :=
    layout_of_is_layout (by decide +kernel)
  have newline : Layout [.newline] "\n".toList := layout_of_is_layout (by decide)
  have calls : Layout ((catalog.map toolEntry).flatMap Rule.tokens) (catalog.flatMap callRule) := by
    induction catalog with
    | nil => exact .nil
    | cons tool catalog ih => exact (layout_call tool).append ih
  have shared : Layout ([stringEntry, charEntry, hexEntry, wsEntry].flatMap Rule.tokens)
      ("string ::= \"\\\"\" char* \"\\\"\"\n" ++
        "char ::= [^\"\\\\] | \"\\\\\" ([\"\\\\/bfnrt] | \"u\" hex hex hex hex)\n" ++
        "hex ::= [0-9a-fA-F]\nws ::= [ \\t\\n]*\n").toList :=
    layout_of_is_layout (by decide +kernel)
  have names := layout_names (catalog.map callName)
  rw [List.map_map] at names
  have whole := (((front.append names).append newline).append calls).append shared
  have tokens : (grammarOf catalog).flatMap Rule.tokens =
      (rootEntry.tokens ++ [.name "call".toList, .assign]) ++
        alternativesTokens (catalog.map ((fun name => [Elem.rule name]) ∘ callName)) ++
        [.newline] ++ (catalog.map toolEntry).flatMap Rule.tokens ++
        [stringEntry, charEntry, hexEntry, wsEntry].flatMap Rule.tokens := by
    have call : (callEntry catalog).tokens = [.name "call".toList, .assign] ++
        alternativesTokens (catalog.map ((fun name => [Elem.rule name]) ∘ callName)) ++
          [.newline] := rfl
    rw [grammarOf, List.flatMap_append, List.flatMap_append, List.flatMap_cons, List.flatMap_cons,
      List.flatMap_nil, call]
    simp only [List.append_assoc, List.append_nil]
  rw [Notes, tokens]
  exact whole

end HorizonOs.Aura
