import HorizonOs.Glass.Commands
import HorizonOs.Glass.Shell
import HorizonOs.Glass.Surface

/-!
# Asking, proposing, confirming

The shell with its command palette and its planner. Enter on an `ask` hands the intent to a thread
that plans it; a tick picks the plan up and shows it as a proposal; Enter once more has it approved
and run. Keys, clicks, ticks, the planner's answers and what others write come in any order.
-/

namespace HorizonOs.Glass

open HorizonOs.Aura (Catalog Executor Plan Preview StepPreview Block NeedStatus Report
  approveAndExecute)
open HorizonOs.Lifestream (Device)
open HorizonOs.Lib.Runs
open HorizonOs.Weave

set_option autoImplicit false

/-! ## From Aura to the surface -/

def proposalNeed (status : NeedStatus) : ProposalNeed :=
  ⟨status.resource.display, status.rights.display, status.isHeld⟩

/-- Only what a grant would not mend is a block of its own. -/
def proposalBlock : Block → Option String
  | .unknownTool => some "unknown tool"
  | .badArgs message => some s!"bad arguments: {message}"
  | .needsCapability => none
  | .needsConfirmation => none

def proposalStep (step : StepPreview) : ProposalStep where
  tool := step.tool
  rationale := step.rationale
  effect := (step.effect.map Aura.Effect.label).getD "?"
  needs := step.needs.map proposalNeed
  block := step.block.bind proposalBlock

/-- `proposal_from`. -/
def proposalFrom (intent : String) (preview : Preview) : Proposal :=
  .new intent (preview.steps.map proposalStep)

/-- Why a step did not run to its end. -/
def problemOf : Aura.StepStatus → Option String
  | .done _ => none
  | .blocked block => some block.reason
  | .failed message => some message

def doneSummary : Aura.StepStatus → String
  | .done outcome => outcome.summary
  | _ => ""

def reportSummary (report : Report) : String :=
  let total := report.results.length
  if total = 0 then "nothing to run"
  else
    match report.results.findSome? fun result => problemOf result.status with
    | some reason => s!"ran {report.ran}/{total} steps ({reason})"
    | none =>
        let last := (report.results.getLast?.map fun result => doneSummary result.status).getD ""
        s!"ran {report.ran}/{total} steps: {last}"

/-! ## The state -/

/-- An intent on its way to the planner, under the number of its ask. -/
structure Request where
  number : Nat
  intent : String

/-- The planner's thread and its two channels: what it was sent and has not answered, and what it
answered and the shell has not received. -/
structure Planner where
  running : Bool
  requests : List Request
  results : List (Nat × Except String Plan)

/-- The numbers of what is in the channels, first in first. -/
def Planner.numbers (planner : Planner) : List Nat :=
  planner.results.map Prod.fst ++ planner.requests.map Request.number

/-- The shell with its palette, its planner and the scene it last drew. -/
structure Front where
  desk : Desktop
  palette : Palette
  scene : Scene
  width : UInt32
  height : UInt32
  /-- The ask in flight. -/
  planning : Option (Nat × String)
  /-- How many asks there have been; the shell's own count is modulo `2 ^ 64`. -/
  planEpoch : Nat
  pending : Option Plan
  planner : Planner

/-- The tag of an ask's request and of its result. -/
def epochOf (number : Nat) : UInt64 := UInt64.ofNat number

/-- What a handler meets outside the shell. -/
structure Outside where
  /-- The clock as the grants are listed. -/
  now : UInt64
  draws : Nat → Draw
  files : List Aura.FileOp
  /-- How the launch of a client ends. -/
  launched : Except String Unit

inductive ShellKey where
  | char (c : Char)
  | backspace
  | delete
  | left
  | right
  | home
  | toEnd
  | enter
  | escape
  deriving DecidableEq

inductive FrontEvent where
  /-- Another process writes to the store. -/
  | written (device : Device)
  /-- The planner answers the request in front. -/
  | answered (result : Except String Plan)
  /-- The planner's thread ends. -/
  | lost
  | click (x y : Int) (outside : Outside)
  | key (key : ShellKey) (outside : Outside)
  | tick (instant : Nat) (outside : Outside)

/-! ## The handlers -/

section Handlers

variable (finalSigma : List Char → List Char → Bool) (catalog : Catalog)

namespace Front

def relayout (front : Front) : Front :=
  { front with
    scene := layout finalSigma front.desk.shell.model front.palette front.width front.height 2 }

/-- The filter and the hint that the line comes to. -/
def preview (front : Front) : Front :=
  let r := interpret finalSigma front.palette.input front.desk.shell.model
  { front with palette := { front.palette with filter := r.filter, message := r.hint } }

/-- A fresh executor on the shell's broker. -/
def executor (front : Front) (outside : Outside) : Executor :=
  .withCatalog front.desk.session catalog outside.draws 0 outside.files

/-! ### Planning -/

/-- The palette as it waits for a plan. -/
def waiting (palette : Palette) (intent : String) : Palette :=
  { palette with
    proposal := none, filter := none, planning := some intent, message := s!"planning: {intent}" }

def showing (palette : Palette) (proposal : Proposal) : Palette :=
  { palette with planning := none, proposal := some proposal, message := proposal.confirm_hint }

/-- Hands the intent to the planner. Where its thread is gone the ask fails in place; where memory
has no room for one more message the process ends. -/
def propose (front : Front) (intent : String) : Option Front :=
  let number := front.planEpoch + 1
  let palette := waiting front.palette intent
  let asking := { front with planEpoch := number, pending := none }
  if front.planner.running then
    if front.planner.numbers.length < 2 ^ 64 then
      let requests := front.planner.requests ++ [⟨number, intent⟩]
      some { asking with
        palette, planning := some (number, intent), planner := { front.planner with requests } }
    else none
  else
    some { asking with
      planning := none
      palette := showing palette (.ofFailure intent "the planner is not available") }

/-- The second half of an ask: the plan becomes a proposal, an error a failed one. -/
def finishPlan (front : Front) (intent : String) (result : Except String Plan)
    (outside : Outside) : Front :=
  match result with
  | .ok plan =>
      let proposal := proposalFrom intent (Aura.preview plan (front.executor catalog outside)).1
      { front with
        palette := { showing front.palette proposal with filter := none }, pending := some plan }
  | .error e =>
      { front with palette := showing front.palette (.ofFailure intent e), pending := none }

/-- Receives results up to the one that is awaited, and drops the others. -/
def pollResults (front : Front) (outside : Outside) :
    List (Nat × Except String Plan) → Bool × Front
  | [] => (false, { front with planner := { front.planner with results := [] } })
  | (number, result) :: results =>
      match front.planning with
      | none => pollResults front outside results
      | some (awaited, intent) =>
          if epochOf awaited = epochOf number then
            let received := { front with
              planning := none, planner := { front.planner with results } }
            (true, received.finishPlan catalog intent result outside)
          else pollResults front outside results

def pollPlanner (front : Front) (outside : Outside) : Bool × Front :=
  front.pollResults catalog outside front.planner.results

def cancelPlanning (front : Front) : Front :=
  let cancelled := { front with planning := none, pending := none, palette := front.palette.clear }
  cancelled.preview finalSigma

/-! ### The proposal -/

/-- The palette with its line empty and the view unfiltered. -/
def emptied (palette : Palette) : Palette := { palette.clear with filter := none }

def dismissProposal (front : Front) : Front :=
  let dismissed := { front with pending := none, palette := emptied front.palette }
  dismissed.preview finalSigma

/-- Has the plan approved and run, and says what came of it. -/
def runPlan (front : Front) (plan : Plan) (outside : Outside) : String × Desktop :=
  match approveAndExecute plan Limits.none (front.executor catalog outside) with
  | .ok report aura => (reportSummary report, (front.desk.after aura.session).refreshed outside.now)
  | .error error aura => (s!"Aura failed: {error.display}", front.desk.after aura.session)

def confirm (front : Front) (outside : Outside) : Front :=
  match front.pending with
  | none => front.dismissProposal finalSigma
  | some plan =>
      let (message, desk) := front.runPlan catalog plan outside
      let ended := { front with desk, pending := none, palette := emptied front.palette }
      let previewed := ended.preview finalSigma
      { previewed with palette := { previewed.palette with message } }

/-! ### Keys -/

/-- Severs each of these, and tells how many were. -/
def severEach (draws : Nat → Draw) : Nat → List GrantId → Session → Nat × Session
  | _, [], session => (0, session)
  | i, grant :: rest, session =>
      match revoke (draws i) grant session with
      | .ok _ later =>
          let (severed, final) := severEach draws (i + 1) rest later
          (severed + 1, final)
      | .error _ later => severEach draws (i + 1) rest later

def launch (front : Front) (command : String) (outside : Outside) : Front :=
  let message := match outside.launched with
    | .ok _ => s!"launching {command}"
    | .error e => s!"launch failed: {e}"
  { front with palette := emptied { front.palette with message } }

def sever (front : Front) (grants : List GrantId) (outside : Outside) : Front :=
  let (severed, session) := severEach outside.draws 0 grants front.desk.session
  { front with
    desk := (front.desk.after session).refreshed outside.now
    palette := emptied { front.palette with message := s!"severed {severed} channel(s)" } }

/-- Runs the command on the line. -/
def execute (front : Front) (outside : Outside) : Option Front :=
  match (interpret finalSigma front.palette.input front.desk.shell.model).action with
  | .none => some front
  | .ask intent => front.propose intent
  | .launch command => some (front.launch command outside)
  | .sever grants => some (front.sever grants outside)

def retyped (front : Front) (palette : Palette) : Front := { front with palette }.preview finalSigma

/-- A key when there is neither a plan in the making nor a proposal. -/
def typed (front : Front) (key : ShellKey) (outside : Outside) : Option Front :=
  match key with
  | .char c => some (front.retyped finalSigma (front.palette.insert c))
  | .backspace => some (front.retyped finalSigma front.palette.backspace)
  | .delete => some (front.retyped finalSigma front.palette.delete)
  | .escape => some (front.retyped finalSigma front.palette.clear)
  | .left => some { front with palette := front.palette.left }
  | .right => some { front with palette := front.palette.right }
  | .home => some { front with palette := front.palette.home }
  | .toEnd => some { front with palette := front.palette.toEnd }
  | .enter => front.execute finalSigma outside

/-- A key while the planner is at work: all but Escape are ignored. -/
def keyPlanning (front : Front) : ShellKey → Front
  | .escape => (front.cancelPlanning finalSigma).relayout finalSigma
  | _ => front

/-- The proposal given up, the line kept. -/
def abandoned (front : Front) : Front :=
  { front with palette := { front.palette with proposal := none }, pending := none }

/-- A key while a proposal is up. -/
def keyProposal (front : Front) (key : ShellKey) (outside : Outside) : Option Front :=
  match key with
  | .enter => some ((front.confirm finalSigma catalog outside).relayout finalSigma)
  | .escape => some ((front.dismissProposal finalSigma).relayout finalSigma)
  | key => (front.abandoned.typed finalSigma key outside).map (relayout finalSigma)

def key (front : Front) (key : ShellKey) (outside : Outside) : Option Front :=
  if front.planning.isSome then some (front.keyPlanning finalSigma key)
  else if front.palette.proposal.isSome then front.keyProposal finalSigma catalog key outside
  else (front.typed finalSigma key outside).map (relayout finalSigma)

/-! ### Clicks and ticks -/

def click (front : Front) (x y : Int) (outside : Outside) : Front :=
  match front.scene.action_at x y with
  | none => front
  | some (.sever grant) =>
      match revoke (outside.draws 0) grant front.desk.session with
      | .error _ session => { front with desk := front.desk.after session }
      | .ok _ session =>
          match reloadModel (front.desk.after session) outside.now with
          | .error _ => { front with desk := front.desk.after session }
          | .ok desk => ({ front with desk }.preview finalSigma).relayout finalSigma

/-- `poll_store`; the model is previewed anew where it changed. -/
def polled (front : Front) (instant : Nat) (outside : Outside) : Bool × Front :=
  let (changed, desk) := pollStore front.desk instant outside.now
  let after := { front with desk }
  if changed then (true, after.preview finalSigma) else (false, after)

/-- `refresh`. -/
def tick (front : Front) (instant : Nat) (outside : Outside) : Front :=
  let (planned, received) := front.pollPlanner catalog outside
  let (stored, after) := received.polled finalSigma instant outside
  if planned || stored then after.relayout finalSigma else after

/-- The planner answers the request in front of the others. -/
def answer (front : Front) (result : Except String Plan) : Front :=
  match front.planner.requests with
  | [] => front
  | request :: requests =>
      let results := front.planner.results ++ [(request.number, result)]
      { front with planner := { front.planner with requests, results } }

/-- The planner's thread is gone, and with it what it had not answered. -/
def losePlanner (front : Front) : Front :=
  { front with planner := { front.planner with running := false, requests := [] } }

end Front

def frontStep (front : Front) : FrontEvent → Option Front
  | .written device => some { front with desk := { front.desk with device } }
  | .answered result => some (front.answer result)
  | .lost => some front.losePlanner
  | .click x y outside => some (front.click finalSigma x y outside)
  | .key key outside => front.key finalSigma catalog key outside
  | .tick instant outside => some (front.tick finalSigma catalog instant outside)

/-- The shell as `Shell::open` leaves it. -/
def openFront (shell : Shell) (device : Device) (journal : List AuditEntry)
    (width height : UInt32) : Front where
  desk := ⟨shell, device, journal⟩
  palette := .new
  scene := layout finalSigma shell.model .new width height 2
  width := width
  height := height
  planning := none
  planEpoch := 0
  pending := none
  planner := ⟨true, [], []⟩

end Handlers

end HorizonOs.Glass
