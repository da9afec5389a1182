import HorizonOs.Aura.Tool
import HorizonOs.Weave.Ledger

/-!
# Plans and their execution

A plan is previewed against the live grants, approved, and run step by step,
every need of a step brokered before its tool acts. Aura is a principal like any
other: it holds handles in a wallet and acts only through them.
-/

namespace HorizonOs.Aura

open HorizonOs.Lib.ByteCodec HorizonOs.Lib.Text HorizonOs.Lib.Runs
open HorizonOs.Weave

set_option autoImplicit false

/-- The name Aura acts under in the audit log. -/
def PRINCIPAL : PrincipalId := "aura"

structure Step where
  tool : String
  args : Args
  rationale : String

structure Plan where
  intent : String
  steps : List Step

/-! ## Texts -/

def Error.display : Error → String
  | .missingArg key => s!"missing argument: {key}"
  | .badArg key message => s!"bad argument {key}: {message}"
  | .unknownTool name => s!"unknown tool: {name}"
  | .io message => s!"io: {message}"
  | .weave error => s!"weave: {error.display}"
  | .plan message => s!"planning failed: {message}"

/-- Why a step would not run as things stand. -/
inductive Block where
  | unknownTool
  | badArgs (message : String)
  | needsCapability
  | needsConfirmation
  deriving DecidableEq

def Block.reason : Block → String
  | .unknownTool => "unknown tool"
  | .badArgs message => s!"bad arguments: {message}"
  | .needsCapability => "needs a capability you have not granted"
  | .needsConfirmation => "needs confirmation (destructive)"

/-! ## Previews and reports -/

inductive Authority where
  | held (id : GrantId)
  | missing
  deriving DecidableEq

structure NeedStatus where
  resource : Resource
  rights : Rights
  authority : Authority
  deriving DecidableEq

def NeedStatus.isHeld (status : NeedStatus) : Bool :=
  match status.authority with
  | .held _ => true
  | .missing => false

structure StepPreview where
  index : Nat
  tool : String
  rationale : String
  effect : Option Effect
  needs : List NeedStatus
  block : Option Block
  deriving DecidableEq

structure Preview where
  intent : String
  steps : List StepPreview
  deriving DecidableEq

/-- Append a need that is missing and not listed yet. -/
def addMissing (listed : List Need) (status : NeedStatus) : List Need :=
  let need : Need := ⟨status.resource, status.rights⟩
  if !status.isHeld && !(listed.contains need) then listed ++ [need] else listed

/-- The capabilities the plan needs that Aura does not hold, each once. -/
def Preview.missing (preview : Preview) : List Need :=
  preview.steps.foldl (fun listed step => step.needs.foldl addMissing listed) []

inductive StepStatus where
  | done (outcome : Outcome)
  | blocked (block : Block)
  | failed (message : String)
  deriving DecidableEq

structure StepResult where
  index : Nat
  tool : String
  status : StepStatus
  deriving DecidableEq

structure Report where
  intent : String
  results : List StepResult
  deriving DecidableEq

def StepStatus.isDone : StepStatus → Bool
  | .done _ => true
  | .blocked _ => false
  | .failed _ => false

/-- How many steps ran to their end. -/
def Report.ran (report : Report) : Nat :=
  (report.results.filter fun result => result.status.isDone).length

/-- Whether the step's tool ran. -/
def StepStatus.ran : StepStatus → Bool
  | .done _ => true
  | .blocked _ => false
  | .failed _ => true

/-! ## The executor -/

/-- Aura on a broker's session, with its wallet and what it did to files. Every
broker call takes the next draw of the clock and the random source. -/
structure Executor where
  catalog : Catalog
  session : Session
  held : AList fun _ : GrantId => Capability
  draws : Nat → Draw
  drawn : Nat
  files : List FileOp

/-- `Aura::with_catalog`: a fresh wallet. -/
def Executor.withCatalog (session : Session) (catalog : Catalog) (draws : Nat → Draw) (drawn : Nat)
    (files : List FileOp) : Executor :=
  ⟨catalog, session, ∅, draws, drawn, files⟩

def Executor.nextDraw (aura : Executor) : Draw := aura.draws aura.drawn

def Executor.advanced (aura : Executor) : Executor := { aura with drawn := aura.drawn + 1 }

/-- The first live grant to Aura, oldest first, that covers the need and whose
handle is in the wallet. -/
def findCapability (infos : List GrantInfo) (held : AList fun _ : GrantId => Capability)
    (need : Need) : Option (GrantId × Capability) :=
  infos.findSome? fun info =>
    if info.principal = PRINCIPAL ∧ info.status = .active ∧ info.resource.covers need.resource ∧
        info.rights.contains need.rights then
      (held.lookup info.id).map fun cap => (info.id, cap)
    else none

def Executor.capabilityFor (aura : Executor) (need : Need) : Option (GrantId × Capability) :=
  findCapability (aura.session.broker.grantInfos aura.nextDraw.now) aura.held need

/-! ### Previewing -/

def needStatus (aura : Executor) (need : Need) : NeedStatus where
  resource := need.resource
  rights := need.rights
  authority :=
    match aura.capabilityFor need with
    | some (id, _) => .held id
    | none => .missing

/-- The statuses of a step's needs, the clock read anew for each. -/
def needStatuses : List Need → Executor → List NeedStatus × Executor
  | [], aura => ([], aura)
  | need :: rest, aura =>
      let (statuses, later) := needStatuses rest aura.advanced
      (needStatus aura need :: statuses, later)

def blockOf (statuses : List NeedStatus) (effect : Effect) : Option Block :=
  if statuses.any fun status => !status.isHeld then some .needsCapability
  else if effect.isDestructive then some .needsConfirmation
  else none

def previewStep (index : Nat) (step : Step) (aura : Executor) : StepPreview × Executor :=
  match aura.catalog.get step.tool with
  | none =>
      ({ index, tool := step.tool, rationale := step.rationale, effect := none, needs := [],
         block := some .unknownTool }, aura)
  | some tool =>
      match tool.required step.args with
      | .error error =>
          ({ index, tool := step.tool, rationale := step.rationale, effect := some tool.effect,
             needs := [], block := some (.badArgs error.display) }, aura)
      | .ok needs =>
          let (statuses, later) := needStatuses needs aura
          ({ index, tool := step.tool, rationale := step.rationale, effect := some tool.effect,
             needs := statuses, block := blockOf statuses tool.effect }, later)

def previewSteps : Nat → List Step → Executor → List StepPreview × Executor
  | _, [], aura => ([], aura)
  | index, step :: rest, aura =>
      let (first, middle) := previewStep index step aura
      let (others, later) := previewSteps (index + 1) rest middle
      (first :: others, later)

def preview (plan : Plan) (aura : Executor) : Preview × Executor :=
  let (steps, later) := previewSteps 0 plan.steps aura
  (⟨plan.intent, steps⟩, later)

/-! ### Approving -/

abbrev AuraM := EStateM Error Executor

/-- Grant Aura a capability and put it in its wallet. -/
def authorize (resource : Resource) (rights : Rights) (limits : Limits) : AuraM GrantId :=
  fun aura =>
    match grant aura.nextDraw PRINCIPAL resource rights limits aura.session with
    | .ok cap session =>
        .ok cap.grant { aura.advanced with session, held := aura.held.insert cap.grant cap }
    | .error error session => .error (.weave error) { aura.advanced with session }

def grantNeeds (limits : Limits) : List Need → AuraM (List GrantId)
  | [] => pure []
  | need :: rest => do
      let id ← authorize need.resource need.rights limits
      let ids ← grantNeeds limits rest
      pure (id :: ids)

def grantMissing (preview : Preview) (limits : Limits) : AuraM (List GrantId) :=
  grantNeeds limits preview.missing

/-! ### Running -/

/-- Broker the needs of a step in order, up to the first that is not held or
refused. -/
def brokerNeeds : List Need → Executor → Option (List Lease) × Executor
  | [], aura => (some [], aura)
  | need :: rest, aura =>
      match aura.capabilityFor need with
      | none => (none, aura.advanced)
      | some (_, cap) =>
          match access aura.advanced.nextDraw cap need.resource need.rights aura.session with
          | .error _ session => (none, { aura.advanced.advanced with session })
          | .ok lease session =>
              let (leases, later) := brokerNeeds rest { aura.advanced.advanced with session }
              (leases.map fun others => lease :: others, later)

def runTool (tool : Tool) (args : Args) (leases : List Lease) (aura : Executor) : StepStatus × Executor :=
  match tool.run args leases aura.files with
  | .ok outcome files => (.done outcome, { aura with files })
  | .error error files => (.failed error.display, { aura with files })

def runStep (step : Step) (confirmDestructive : Bool) (aura : Executor) : StepStatus × Executor :=
  match aura.catalog.get step.tool with
  | none => (.blocked .unknownTool, aura)
  | some tool =>
      if tool.effect.isDestructive && !confirmDestructive then (.blocked .needsConfirmation, aura)
      else
        match tool.required step.args with
        | .error error => (.blocked (.badArgs error.display), aura)
        | .ok needs =>
            match brokerNeeds needs aura with
            | (none, later) => (.blocked .needsCapability, later)
            | (some leases, later) => runTool tool step.args leases later

def runSteps (confirmDestructive : Bool) : Nat → List Step → Executor → List StepResult × Executor
  | _, [], aura => ([], aura)
  | index, step :: rest, aura =>
      let (status, middle) := runStep step confirmDestructive aura
      let (results, later) := runSteps confirmDestructive (index + 1) rest middle
      (⟨index, step.tool, status⟩ :: results, later)

def execute (plan : Plan) (confirmDestructive : Bool) (aura : Executor) : Report × Executor :=
  let (results, later) := runSteps confirmDestructive 0 plan.steps aura
  (⟨plan.intent, results⟩, later)

/-- Grant what the plan lacks, then run it with its destructive steps confirmed. -/
def approveAndExecute (plan : Plan) (limits : Limits) : AuraM Report := fun aura =>
  let (shown, later) := preview plan aura
  match grantMissing shown limits later with
  | .error error granted => .error error granted
  | .ok _ granted =>
      let (report, final) := execute plan true granted
      .ok report final

/-! ## What a step that ran was allowed -/

/-- The broker of the session admits these rights on this path. -/
def Admits (session : Session) (cap : Capability) (path : Bytes) (rights : Rights) : Prop :=
  ∃ draw lease after, access draw cap (.file path) rights session = .ok lease after

/-- The grants of a table, their use counts and handles set aside. -/
def grantsOf (session : Session) : GrantId → Option Grant := fun id =>
  (session.broker.grants.lookup id).map GrantState.grant

/-- Two sessions hold the same grants. -/
def SameGrants (session later : Session) : Prop := grantsOf later = grantsOf session

theorem SameGrants.refl (session : Session) : SameGrants session session := rfl

theorem SameGrants.trans (first second third : Session) (near : SameGrants first second)
    (far : SameGrants second third) : SameGrants first third := Eq.trans far near

theorem log_keeps_grants (timeUnix : UInt64) (event : Event) :
    Preserves SameGrants (log timeUnix event) := by
  intro session
  obtain ⟨device, _, ⟨id, outcome, _⟩ | ⟨_, ⟨error, outcome⟩, _⟩⟩ :=
    log_outcome session timeUnix event <;> rw [outcome] <;> rfl

theorem counting_keeps_grants (id : GrantId) :
    Preserves SameGrants (updateGrants fun grants => grants.adjust id GrantState.used) := by
  intro session
  apply funext
  intro other
  simp only [grantsOf, updateGrants, final_state_ok, lookup_adjust]
  split
  case isTrue same =>
    rw [same, Option.map_map]
    rfl
  case isFalse => rfl

/-- An access, admitted or refused, leaves the grants as they were given. -/
theorem access_keeps_grants (draw : Draw) (cap : Capability) (resource : Resource)
    (rights : Rights) : Preserves SameGrants (access draw cap resource rights) := by
  intro session
  simp only [access, bind_apply, get_apply]
  cases refusal session.broker draw.now cap resource rights with
  | none =>
      apply Preserves.bind SameGrants.trans (counting_keeps_grants cap.grant)
      intro _
      apply Preserves.bind SameGrants.trans (log_keeps_grants _ _)
      intro _
      exact Preserves.pure SameGrants.refl _
  | some reason =>
      apply Preserves.bind SameGrants.trans (log_keeps_grants _ _)
      intro _
      exact SameGrants.refl

/-- Every file need was admitted, under the grants there were to begin with. -/
theorem broker_needs_admits (asked : List Need) (aura later : Executor) (leases : List Lease)
    (brokered : brokerNeeds asked aura = (some leases, later)) :
    ∀ path ∈ needPaths asked, ∃ session cap rights,
      grantsOf session = grantsOf aura.session ∧ Admits session cap path rights := by
  induction asked generalizing aura leases with
  | nil => simp [needPaths]
  | cons need rest ih =>
      simp only [brokerNeeds] at brokered
      split at brokered
      · cases brokered
      case h_2 id cap found =>
        split at brokered
        · cases brokered
        case h_2 lease session admitted =>
          have kept : grantsOf session = grantsOf aura.session := by
            have moved := access_keeps_grants aura.advanced.nextDraw cap need.resource need.rights
              aura.session
            rwa [admitted] at moved
          cases others : brokerNeeds rest { aura.advanced.advanced with session } with
          | mk found after =>
              rw [others] at brokered
              cases found with
              | none => cases brokered
              | some more =>
                  cases brokered
                  intro path member
                  have deeper : path ∈ needPaths rest → ∃ session cap rights,
                      grantsOf session = grantsOf aura.session ∧
                        Admits session cap path rights := by
                    intro inRest
                    obtain ⟨between, other, rights, same, admits⟩ := ih _ _ others path inRest
                    exact ⟨between, other, rights, same.trans kept, admits⟩
                  cases resource : need.resource with
                  | file other =>
                      simp only [needPaths, List.filterMap_cons, resource] at member
                      rcases List.mem_cons.mp member with rfl | inRest
                      · rw [resource] at admitted
                        exact ⟨aura.session, cap, need.rights, rfl, _, lease, session, admitted⟩
                      · exact deeper inRest
                  | _ =>
                      simp only [needPaths, List.filterMap_cons, resource] at member
                      exact deeper member

theorem broker_needs_files (asked : List Need) (aura : Executor) :
    (brokerNeeds asked aura).2.files = aura.files := by
  induction asked generalizing aura with
  | nil => rfl
  | cons need rest ih =>
      simp only [brokerNeeds]
      split
      · rfl
      · split
        · rfl
        · exact ih _

end HorizonOs.Aura
