import HorizonOs.Glass.Model
import HorizonOs.Lib.TextOffset

/-!
# The command palette

What the surface draws of the command line: the typed line, its feedback, and a plan that waits
for a confirm; and which principals a filter keeps.
-/

namespace HorizonOs.Glass

open HorizonOs.Lib.Text (trimChars)
open HorizonOs.Lib.Lowercase (toLowercase)
open HorizonOs.Lib.TextOffset (findText)

set_option autoImplicit false

def HINT_IDLE : String := "ask <intent>   launch <app>   sever <name>   type to filter   help"

def ChannelKind.label : ChannelKind → String
  | .network => "net"
  | .data => "data"
  | .device => "dev"
  | .service => "svc"

def plural (n : Nat) (one many : String) : String := if n = 1 then one else many

/-! ## Filters -/

section Filters

variable (finalSigma : List Char → List Char → Bool)

/-- `str::contains`. -/
def containsText (text part : List Char) : Bool := (findText part text).isSome

def channel_contains (c : Channel) (q_lower : List Char) : Bool :=
  containsText (toLowercase finalSigma c.principal.toList) q_lower ||
    containsText (toLowercase finalSigma c.resource.display.toList) q_lower ||
    containsText c.kind.label.toList q_lower

/-- Whether a principal is shown under a filter query. -/
def principal_matches (p : PrincipalView) (q : String) : Bool :=
  let q := toLowercase finalSigma (trimChars q.toList)
  if q = [] then true
  else containsText (toLowercase finalSigma p.principal.toList) q ||
    p.channels.any fun c => channel_contains finalSigma c q

end Filters

/-! ## Proposals -/

/-- One capability that a step needs, and whether a grant covers it already. -/
structure ProposalNeed where
  resource : String
  rights : String
  held : Bool
  deriving DecidableEq

structure ProposalStep where
  tool : String
  rationale : String
  effect : String
  needs : List ProposalNeed
  block : Option String
  deriving DecidableEq

structure Proposal where
  intent : String
  steps : List ProposalStep
  ready : Bool
  destructive : Bool
  failed : Option String
  deriving DecidableEq

namespace Proposal

def new (intent : String) (steps : List ProposalStep) : Proposal where
  intent := intent
  steps := steps
  ready := steps.all fun s => s.block.isNone && s.needs.all ProposalNeed.held
  destructive := steps.any fun s => s.effect = "destructive"
  failed := none

/-- A proposal the planner could not produce. -/
def ofFailure (intent reason : String) : Proposal := ⟨intent, [], false, false, some reason⟩

def noteMissing (out : List ProposalNeed) (n : ProposalNeed) : List ProposalNeed :=
  if !n.held && !out.any fun m => m.resource = n.resource && m.rights = n.rights then out ++ [n]
  else out

/-- The distinct capabilities that the plan needs and no grant covers. -/
def missing (p : Proposal) : List ProposalNeed :=
  (p.steps.flatMap ProposalStep.needs).foldl noteMissing []

def missing_count (p : Proposal) : Nat := p.missing.length

def has_hard_block (p : Proposal) : Bool := p.steps.any fun s => s.block.isSome

/-- What Enter does. -/
def confirm_hint (p : Proposal) : String :=
  match p.failed with
  | some reason => s!"Aura could not plan that: {reason}   Esc to dismiss"
  | none =>
      if p.has_hard_block then
        "some steps cannot run   Enter to run what can   Esc to cancel"
      else
        let missing := p.missing_count
        if missing > 0 then
          let capabilities := plural missing "capability" "capabilities"
          s!"Enter to approve {missing} {capabilities} and run   Esc to cancel"
        else if p.destructive then "destructive   Enter to confirm and run   Esc to cancel"
        else "Enter to run   Esc to cancel"

end Proposal

/-- The palette's editable state. -/
structure Palette where
  input : String
  cursor : Nat
  message : String
  filter : Option String
  proposal : Option Proposal
  planning : Option String

/-- Nothing typed and nothing pending. -/
def Palette.new : Palette := ⟨"", 0, "", none, none, none⟩

end HorizonOs.Glass
