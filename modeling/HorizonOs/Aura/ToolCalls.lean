import HorizonOs.Aura.Execute
import HorizonOs.Aura.JsonReader

/-!
# Tool calls

The JSON array a planner model returns becomes the steps of a plan. A text of calls is read
call by call, and an argument is the text its literal denotes exactly when every character of
the literal is written whole.
-/

namespace HorizonOs.Aura

open HorizonOs.Lib.ByteCodec HorizonOs.Lib.Text HorizonOs.Lib.Utf16 HorizonOs.Lib.JsonText

set_option autoImplicit false

/-! ## Reading calls -/

/-- The entries of `args` that are strings; a key that is given again counts with its last
value. -/
def argsOf (entries : List (String × Json.Value)) : Args :=
  entries.foldl (fun args entry =>
    match entry.2.asStr with
    | some text => args.insert entry.1 text
    | none => args) ∅

/-- One turn of the loop of `parse_tool_calls`. -/
def parseToolCall (debug : String → String) (catalog : Catalog) (item : Json.Value) :
    Except Error Step :=
  match item.asObject with
  | none => .error (.plan "a tool call was not an object")
  | some _ =>
      match (item.get "tool").bind Json.Value.asStr with
      | none => .error (.plan "a tool call had no tool name")
      | some tool =>
          match catalog.get tool with
          | none => .error (.plan s!"the planner chose an unknown tool {debug tool}")
          | some _ => .ok
              { tool := tool
                args := argsOf (((item.get "args").bind Json.Value.asObject).getD [])
                rationale := ((item.get "rationale").bind Json.Value.asStr).getD "" }

/-- `parse_tool_calls`. How Rust prints a text for debugging is the parameter. -/
def parseToolCalls (debug : String → String) (text : String) (catalog : Catalog) :
    Except Error (List Step) :=
  match Json.parse text with
  | .error message =>
      .error (.plan s!"the planner did not return valid JSON ({message}): {debug text}")
  | .ok value =>
      match value.asArray with
      | none => .error (.plan s!"the planner did not return a JSON array: {debug text}")
      | some items => items.mapM (parseToolCall debug catalog)

/-! ## Texts of calls -/

/-- What stands in a call. -/
inductive Part where
  | text (pieces : List Piece)
  | texts (entries : List (List Piece × List Piece))

inductive PartText : Part → List Char → Prop where
  | text {pieces : List Piece} {s : List Char} (spelled : StringText pieces s) :
      PartText (.text pieces) s
  | texts {entries : List (List Piece × List Piece)} {s : List Char}
      (spelled : ObjectText StringText entries s) : PartText (.texts entries) s

/-- A call as it is written, with the literals of its arguments. -/
structure ToolCall where
  tool : List Piece
  args : List (List Piece × List Piece)
  rationale : List Piece

def ToolCall.parts (call : ToolCall) : List (List Piece × Part) :=
  [(plainPieces "tool".toList, .text call.tool), (plainPieces "args".toList, .texts call.args),
    (plainPieces "rationale".toList, .text call.rationale)]

def CallText (call : ToolCall) (s : List Char) : Prop := ObjectText PartText call.parts s

/-- An array of calls. -/
def CallsText (calls : List ToolCall) (text : List Char) : Prop :=
  ∃ before inner after, Blank before ∧ Blank after ∧ Items CallText calls inner ∧
    text = before ++ ('[' :: inner ++ [']']) ++ after

/-- The literal that counts for a key. -/
def lastLiteral (key : String) (args : List (List Piece × List Piece)) : Option (List Piece) :=
  ((args.filter fun entry => readText entry.1 = key).getLast?).map Prod.snd

/-- A step is the call that was written: it names a tool of the catalog, has every argument
that tool requires, and every argument is the text its literal denotes. -/
def ToolCall.Agrees (catalog : Catalog) (call : ToolCall) (step : Step) : Prop :=
  (∃ tool, catalog.get step.tool = some tool ∧
    ∀ p ∈ tool.params, p.required = true → p.name ∈ step.args) ∧
  ∀ key value, step.args.lookup key = some value →
    ∃ literal, lastLiteral key call.args = some literal ∧
      jsonUnits (pieceChars literal) = some (encodeUtf16 value)

/-- The text is an array of calls and accepted, and the steps are these calls. -/
def CallsAgree (debug : String → String) (catalog : Catalog) (text : List Char) : Prop :=
  ∃ calls steps, CallsText calls text ∧
    parseToolCalls debug (String.ofList text) catalog = .ok steps ∧
    List.Forall₂ (ToolCall.Agrees catalog) calls steps

/-- The call names a tool and gives what this tool requires. -/
def ToolCall.Fits (catalog : Catalog) (call : ToolCall) : Prop :=
  ∃ tool, catalog.get (readText call.tool) = some tool ∧
    ∀ p ∈ tool.params, p.required = true → ∃ literal, lastLiteral p.name call.args = some literal

/-- Neither a surrogate nor a bare control character stands in a literal of an argument. -/
def ToolCall.Whole (call : ToolCall) : Prop :=
  ∀ key literal, lastLiteral key call.args = some literal → ∀ piece ∈ literal, piece.Whole

/-! ## A text spells one list of calls -/

theorem part_prefix_free : PrefixFree PartText := by
  have apart : ∀ {pieces : List Piece} {entries : List (List Piece × List Piece)}
      {s t r r' : List Char}, StringText pieces s → ObjectText StringText entries t →
      s ++ r ≠ t ++ r' := by
    rintro pieces entries s t r r' ⟨rfl, _⟩ object same
    cases object with
    | empty _ => cases (List.cons.inj same).1
    | members _ => cases (List.cons.inj same).1
  intro part s other t r r' first second same
  cases first with
  | text spelled =>
      cases second with
      | text spelled' =>
          obtain ⟨rfl, rfl⟩ := string_prefix_free _ _ _ _ _ _ spelled spelled' same
          exact ⟨rfl, rfl⟩
      | texts spelled' => exact absurd same (apart spelled spelled')
  | texts spelled =>
      cases second with
      | text spelled' => exact absurd same.symm (apart spelled' spelled)
      | texts spelled' =>
          obtain ⟨rfl, rfl⟩ := object_prefix_free string_prefix_free string_solid _ _ _ _ _ _
            spelled spelled' same
          exact ⟨rfl, rfl⟩

theorem part_solid : Solid PartText := by
  intro part s spelled
  cases spelled with
  | text spelled => exact string_solid _ _ spelled
  | texts spelled => exact object_solid _ _ spelled

theorem parts_injective {call other : ToolCall} (same : call.parts = other.parts) : call = other := by
  cases call
  cases other
  simpa [ToolCall.parts] using same

theorem call_prefix_free : PrefixFree CallText := by
  intro call s other t r r' first second same
  obtain ⟨parts, texts⟩ := object_prefix_free part_prefix_free part_solid _ _ _ _ _ _ first second
    same
  exact ⟨parts_injective parts, texts⟩

theorem call_solid : Solid CallText := fun call s spelled => object_solid call.parts s spelled

theorem calls_unique {calls others : List ToolCall} {text : List Char} (first : CallsText calls text)
    (second : CallsText others text) : calls = others := by
  obtain ⟨before, inner, after, blank, _, items, rfl⟩ := first
  obtain ⟨before', inner', after', blank', _, items', same⟩ := second
  simp only [List.append_assoc, List.cons_append, List.nil_append] at same
  obtain ⟨_, _, rest⟩ := blank_unique blank blank' (by decide) (by decide) same
  exact items_unique call_prefix_free call_solid items items' rest

/-! ## What is read of a call -/

def Part.value : Part → Json.Value
  | .text pieces => .str (readText pieces)
  | .texts entries => .object (Json.readMembers (fun pieces => .str (readText pieces)) entries)

def ToolCall.value (call : ToolCall) : Json.Value := .object (Json.readMembers Part.value call.parts)

theorem reads_part (part : Part) (s : List Char) (spelled : PartText part s) :
    Json.Reads s part.value := by
  have strings : ∀ pieces s, StringText pieces s → Json.Reads s (.str (readText pieces)) := by
    rintro pieces s ⟨rfl, legal⟩
    exact Json.reads_string pieces legal
  cases spelled with
  | text spelled => exact strings _ _ spelled
  | texts spelled => exact Json.reads_object strings spelled

theorem reads_call (call : ToolCall) (s : List Char) (spelled : CallText call s) :
    Json.Reads s call.value :=
  Json.reads_object reads_part spelled

theorem parse_calls {calls : List ToolCall} {text : List Char} (spelled : CallsText calls text) :
    Json.parse (String.ofList text) = .ok (.array (calls.map ToolCall.value)) := by
  obtain ⟨before, inner, after, blank, _, items, rfl⟩ := spelled
  apply Json.parse_items reads_call _ items blank
  intro call s spelled more same
  have brace : ∃ t, s = '\x7b' :: t := by
    cases spelled with
    | members _ => exact ⟨_, rfl⟩
  obtain ⟨t, rfl⟩ := brace
  rw [Json.char_bytes_cons, Json.ascii_bytes (by decide)] at same
  exact absurd (List.cons.inj same).1 (by decide)

theorem read_parts (call : ToolCall) : Json.readMembers Part.value call.parts =
    [("tool", .str (readText call.tool)), ("args", (Part.texts call.args).value),
      ("rationale", .str (readText call.rationale))] := by
  rw [Json.readMembers, ToolCall.parts, List.map_cons, List.map_cons, List.map_cons, List.map_nil,
    read_plain_pieces, read_plain_pieces, read_plain_pieces]
  rfl

theorem call_value_get (call : ToolCall) : call.value.get "tool" = some (.str (readText call.tool)) ∧
    call.value.get "args" = some (Part.texts call.args).value := by
  rw [ToolCall.value, read_parts]
  exact ⟨rfl, rfl⟩

/-- The arguments that are read of a call. -/
def ToolCall.readArgs (call : ToolCall) : Args :=
  argsOf (Json.readMembers (fun pieces => .str (readText pieces)) call.args)

theorem args_of_append (entries : List (String × Json.Value)) (key text : String) :
    argsOf (entries ++ [(key, .str text)]) = (argsOf entries).insert key text := by
  rw [argsOf, List.foldl_append]
  rfl

theorem lookup_read_args (call : ToolCall) (key : String) :
    call.readArgs.lookup key = (lastLiteral key call.args).map readText := by
  rw [ToolCall.readArgs]
  generalize call.args = entries
  induction entries using List.reverseRecOn with
  | nil => rfl
  | append_singleton entries entry ih =>
      rw [Json.readMembers] at ih
      rw [Json.readMembers, List.map_append, List.map_singleton, args_of_append, lastLiteral,
        List.filter_append]
      by_cases here : readText entry.1 = key
      · have alone : [entry].filter (fun entry => readText entry.1 = key) = [entry] := by
          simp [here]
        rw [alone, List.getLast?_concat, here, AList.lookup_insert]
        rfl
      · have none : [entry].filter (fun entry => readText entry.1 = key) = [] := by
          simp [here]
        rw [none, List.append_nil, AList.lookup_insert_ne (fun same => here same.symm)]
        exact ih

/-- What becomes of a call. -/
theorem parse_tool_call (debug : String → String) (catalog : Catalog) (call : ToolCall) :
    parseToolCall debug catalog call.value =
      match catalog.get (readText call.tool) with
      | none => .error (.plan s!"the planner chose an unknown tool {debug (readText call.tool)}")
      | some _ => .ok ⟨readText call.tool, call.readArgs, readText call.rationale⟩ := by
  obtain ⟨tool, args⟩ := call_value_get call
  have rationale : call.value.get "rationale" = some (.str (readText call.rationale)) := by
    rw [ToolCall.value, read_parts]
    rfl
  have object : call.value.asObject = some (Json.readMembers Part.value call.parts) := rfl
  rw [parseToolCall, object, tool, args, rationale]
  rfl

/-! ## When the steps are the calls -/

theorem last_literal_mem {key : String} {args : List (List Piece × List Piece)}
    {literal : List Piece} (last : lastLiteral key args = some literal) :
    ∃ entry ∈ args, entry.2 = literal := by
  obtain ⟨entry, found, rfl⟩ := Option.map_eq_some_iff.mp last
  exact ⟨entry, (List.mem_filter.mp (List.mem_of_getLast? found)).1, rfl⟩

/-- The literals of a call that is spelled are legal. -/
theorem literal_legal {call : ToolCall} {s : List Char} (spelled : CallText call s) {key : String}
    {literal : List Piece} (last : lastLiteral key call.args = some literal) :
    ∀ piece ∈ literal, piece.Legal := by
  obtain ⟨entry, member, rfl⟩ := last_literal_mem last
  have part : (plainPieces "args".toList, Part.texts call.args) ∈ call.parts :=
    List.mem_cons_of_mem _ (List.mem_cons_self ..)
  obtain ⟨t, texts⟩ := ObjectText.spelled spelled _ part
  cases texts with
  | texts object =>
      obtain ⟨_, _, legal⟩ := object.spelled _ member
      exact legal

theorem call_spelled {calls : List ToolCall} {text : List Char} (spelled : CallsText calls text) :
    ∀ call ∈ calls, ∃ s, CallText call s := by
  obtain ⟨_, _, _, _, _, items, _⟩ := spelled
  exact items.spelled

/-- The step that is made of a call. -/
def ToolCall.step (call : ToolCall) : Step := ⟨readText call.tool, call.readArgs, readText call.rationale⟩

/-- A literal denotes the text that is read of it when it is whole. -/
theorem denotes_read_iff {literal : List Piece} (legal : ∀ piece ∈ literal, piece.Legal) :
    jsonUnits (pieceChars literal) = some (encodeUtf16 (readText literal)) ↔
      ∀ piece ∈ literal, piece.Whole := by
  rw [← json_units_iff literal legal, encodeUtf16, readText, String.toList_ofList]

theorem call_agrees_iff {catalog : Catalog} {call : ToolCall} {s : List Char}
    (spelled : CallText call s) :
    call.Agrees catalog call.step ↔ call.Fits catalog ∧ call.Whole := by
  apply and_congr
  · have given : ∀ name, name ∈ call.readArgs ↔
        ∃ literal, lastLiteral name call.args = some literal := by
      intro name
      rw [← AList.lookup_isSome, lookup_read_args, Option.isSome_map, Option.isSome_iff_exists]
    simp only [ToolCall.step, ToolCall.Fits, given]
  · constructor
    · intro denoted key literal last
      obtain ⟨other, same, units⟩ := denoted key (readText literal)
        ((lookup_read_args call key).trans (by rw [last, Option.map_some]))
      rw [last] at same
      cases same
      exact (denotes_read_iff (literal_legal spelled last)).mp units
    · intro whole key value found
      rw [ToolCall.step, lookup_read_args] at found
      obtain ⟨literal, last, rfl⟩ := Option.map_eq_some_iff.mp found
      exact ⟨literal, last,
        (denotes_read_iff (literal_legal spelled last)).mpr (whole key literal last)⟩

theorem map_m_ok_iff {α β : Type} (f : α → Except Error β) (list : List α) (results : List β) :
    list.mapM f = .ok results ↔ List.Forall₂ (fun a b => f a = .ok b) list results := by
  induction list generalizing results with
  | nil =>
      rw [List.mapM_nil, List.forall₂_nil_left_iff]
      exact ⟨fun same => (Except.ok.inj same).symm, fun none => none ▸ rfl⟩
  | cons a list ih =>
      rw [List.mapM_cons, List.forall₂_cons_left_iff]
      constructor
      · intro all
        cases here : f a with
        | error error =>
            rw [here] at all
            cases all
        | ok b =>
            rw [here] at all
            cases others : list.mapM f with
            | error error =>
                rw [others] at all
                cases all
            | ok tail =>
                rw [others] at all
                cases all
                exact ⟨b, tail, rfl, (ih tail).mp others, rfl⟩
      · rintro ⟨b, tail, here, others, rfl⟩
        rw [here, (ih tail).mpr others]
        rfl

/-- A text of calls is accepted when every call names a tool of the catalog. -/
theorem parse_tool_calls_iff (debug : String → String) (catalog : Catalog) {calls : List ToolCall}
    {text : List Char} (spelled : CallsText calls text) (steps : List Step) :
    parseToolCalls debug (String.ofList text) catalog = .ok steps ↔
      (∀ call ∈ calls, (catalog.get (readText call.tool)).isSome = true) ∧
        steps = calls.map ToolCall.step := by
  rw [parseToolCalls, parse_calls spelled]
  change (calls.map ToolCall.value).mapM (parseToolCall debug catalog) = .ok steps ↔ _
  rw [map_m_ok_iff, List.forall₂_map_left_iff]
  clear spelled
  induction calls generalizing steps with
  | nil => simp
  | cons call calls ih =>
      rw [List.forall₂_cons_left_iff, List.forall_mem_cons, List.map_cons]
      constructor
      · rintro ⟨step, tail, here, others, rfl⟩
        obtain ⟨named, rfl⟩ := (ih tail).mp others
        rw [parse_tool_call] at here
        cases found : catalog.get (readText call.tool) with
        | none =>
            rw [found] at here
            cases here
        | some tool =>
            rw [found] at here
            cases here
            exact ⟨⟨rfl, named⟩, rfl⟩
      · rintro ⟨⟨here, named⟩, rfl⟩
        obtain ⟨tool, found⟩ := Option.isSome_iff_exists.mp here
        refine ⟨call.step, calls.map ToolCall.step, ?_, (ih _).mpr ⟨named, rfl⟩, rfl⟩
        rw [parse_tool_call, found]
        rfl

/-- The steps are the calls exactly when every call fits the catalog and its literals are
whole. -/
theorem calls_agree_iff (debug : String → String) (catalog : Catalog) {calls : List ToolCall}
    {text : List Char} (spelled : CallsText calls text) :
    CallsAgree debug catalog text ↔ ∀ call ∈ calls, call.Fits catalog ∧ call.Whole := by
  have each : List.Forall₂ (ToolCall.Agrees catalog) calls (calls.map ToolCall.step) ↔
      ∀ call ∈ calls, call.Fits catalog ∧ call.Whole := by
    rw [List.forall₂_map_right_iff, List.forall₂_same]
    apply forall₂_congr
    intro call member
    obtain ⟨_, here⟩ := call_spelled spelled call member
    exact call_agrees_iff here
  constructor
  · rintro ⟨others, steps, otherSpelled, accepted, agrees⟩
    obtain rfl := calls_unique otherSpelled spelled
    obtain ⟨_, rfl⟩ := (parse_tool_calls_iff debug catalog spelled steps).mp accepted
    exact each.mp agrees
  · intro all
    refine ⟨calls, calls.map ToolCall.step, spelled, ?_, each.mpr all⟩
    rw [parse_tool_calls_iff debug catalog spelled]
    refine ⟨fun call member => ?_, rfl⟩
    obtain ⟨tool, found, _⟩ := (all call member).1
    rw [found]
    rfl

end HorizonOs.Aura
