import HorizonOs.Glass.Palette

/-!
# Command lines

A typed line is a verb with its argument, or a filter; against the live model it comes to what
Enter does, to the filter that previews it, and to a hint. And the line is edited at a cursor.
-/

namespace HorizonOs.Glass

open HorizonOs.Lib.Text
open HorizonOs.Lib.Lowercase (toLowercase)
open HorizonOs.Weave

set_option autoImplicit false

/-! ## Parsing -/

inductive Command where
  | empty
  | ask (intent : String)
  | launch (program : String)
  | sever (query : String)
  | help
  | filter (query : String)
  deriving DecidableEq

/-- The first word of a trimmed line, and the rest. -/
def verbAndArgument (trimmed : List Char) : String × String :=
  match splitOnce isWhiteSpace trimmed with
  | some (verb, rest) => (String.ofList verb, String.ofList (trimChars rest))
  | none => (String.ofList trimmed, "")

def parse (line : String) : Command :=
  let trimmed := trimChars line.toList
  if trimmed = [] then .empty
  else
    let (verb, rest) := verbAndArgument trimmed
    if verb = "ask" ∨ verb = "do" then .ask rest
    else if verb = "launch" ∨ verb = "run" ∨ verb = "open" then .launch rest
    else if verb = "sever" ∨ verb = "revoke" ∨ verb = "kill" then .sever rest
    else if verb = "help" ∨ verb = "?" then .help
    else .filter (String.ofList trimmed)

/-! ## Resolution -/

/-- What Enter does. -/
inductive PaletteAction where
  | none
  | ask (intent : String)
  | launch (command : String)
  | sever (grants : List GrantId)
  deriving DecidableEq

structure Resolved where
  action : PaletteAction
  filter : Option String
  hint : String
  deriving DecidableEq

section Resolution

variable (finalSigma : List Char → List Char → Bool)

def channel_matches (c : Channel) (q : String) : Bool :=
  let q := toLowercase finalSigma (trimChars q.toList)
  q.isEmpty || channel_contains finalSigma c q

/-- One grant can back several rows. -/
def collectLive (q : String) (grants : List GrantId) (c : Channel) : List GrantId :=
  if c.canSever && channel_matches finalSigma c q then
    match c.grant with
    | some g => if grants.contains g then grants else grants ++ [g]
    | none => grants
  else grants

def resolveAsk (intent : String) : Resolved :=
  let intent := trim intent
  if intent = "" then ⟨.none, none, "ask: say what you want Aura to do"⟩
  else ⟨.ask intent, none, s!"Enter to ask Aura: {intent}"⟩

def resolveLaunch (program : String) : Resolved :=
  let program := trim program
  if program = "" then ⟨.none, none, "launch: name a program to run"⟩
  else ⟨.launch program, none, s!"Enter to launch {program}"⟩

def resolveFilter (q : String) (model : Model) : Resolved :=
  let n := (model.principals.filter fun p => principal_matches finalSigma p q).length
  let principals := plural n "principal" "principals"
  let hint := if n = 0 then s!"no match for '{q}'" else s!"filtering '{q}': {n} {principals}"
  ⟨.none, some q, hint⟩

def resolveSever (query : String) (model : Model) : Resolved :=
  let q := trim query
  if q = "" then ⟨.none, none, "sever: name a principal or resource"⟩
  else
    let grants := (model.principals.flatMap PrincipalView.channels).foldl
      (collectLive finalSigma q) []
    if grants = [] then ⟨.none, some q, s!"no live channel matches '{q}'"⟩
    else
      let n := grants.length
      let channels := plural n "channel" "channels"
      ⟨.sever grants, some q, s!"Enter to sever {n} {channels}"⟩

def resolve (command : Command) (model : Model) : Resolved :=
  match command with
  | .empty => ⟨.none, none, HINT_IDLE⟩
  | .help => ⟨.none, none, "ask <intent> plans and brokers through Aura   launch <app> spawns " ++
      "a client   sever <name> revokes matching channels   any other text filters the view"⟩
  | .ask intent => resolveAsk intent
  | .launch program => resolveLaunch program
  | .filter q => resolveFilter finalSigma q model
  | .sever q => resolveSever finalSigma q model

/-- `interpret`. -/
def interpret (line : String) (model : Model) : Resolved :=
  resolve finalSigma (parse line) model

end Resolution

/-! ## Editing -/

namespace Palette

def len (p : Palette) : Nat := p.input.toList.length

def insert (p : Palette) (c : Char) : Palette :=
  { p with
    input := String.ofList (p.input.toList.take p.cursor ++ c :: p.input.toList.drop p.cursor)
    cursor := p.cursor + 1 }

def backspace (p : Palette) : Palette :=
  if p.cursor = 0 then p
  else
    { p with
      input := String.ofList (p.input.toList.eraseIdx (p.cursor - 1))
      cursor := p.cursor - 1 }

def delete (p : Palette) : Palette :=
  if p.cursor ≥ p.len then p
  else { p with input := String.ofList (p.input.toList.eraseIdx p.cursor) }

def left (p : Palette) : Palette := { p with cursor := p.cursor - 1 }

def right (p : Palette) : Palette := { p with cursor := min (p.cursor + 1) p.len }

def home (p : Palette) : Palette := { p with cursor := 0 }

def toEnd (p : Palette) : Palette := { p with cursor := p.len }

/-- Empties the line, and drops the proposal or the plan in the making that belong to it. -/
def clear (p : Palette) : Palette :=
  { p with input := "", cursor := 0, proposal := none, planning := none }

end Palette

end HorizonOs.Glass
