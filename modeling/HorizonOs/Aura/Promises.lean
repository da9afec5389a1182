import HorizonOs.Aura.Readiness

/-!
# What a preview promises

A plan runs unblocked exactly when its needs are met in turn. That is more than a
preview checks, which looks neither at what is left of a grant's uses nor at the
handle.
-/

namespace HorizonOs.Aura

open HorizonOs.Lib.ByteCodec HorizonOs.Lib.Text HorizonOs.Lib.Runs
open HorizonOs.Lifestream HorizonOs.Weave

set_option autoImplicit false

/-! ## Executors that come about -/

/-- An executor that some life led to. -/
def Reached (aura : Executor) : Prop :=
  ∃ (ls : Lifestream) (policy : Policy) (device : Device) (broker : Broker)
    (journal : List AuditEntry) (catalog : Catalog) (draws : Nat → Draw) (drawn : Nat)
    (files : List FileOp) (acts : List Act),
    openBroker ls policy device = .ok broker ∧
      aura = run auraStep (.withCatalog ⟨broker, device, journal⟩ catalog draws drawn files) acts

theorem reached_filed (aura : Executor) (reached : Reached aura) : WellFiled aura := by
  obtain ⟨ls, policy, device, broker, journal, catalog, draws, drawn, files, acts, opened, rfl⟩ :=
    reached
  apply run_invariant auraStep WellFiled well_filed_step _ acts
  constructor
  · obtain ⟨head, _, rest⟩ := of_bind_ok opened
    obtain ⟨table, replayed, ended⟩ := of_bind_ok rest
    cases ended
    exact filed_replay _ _ _ _ _ replayed
  · intro id cap found
    simp [Executor.withCatalog] at found

theorem Reached.act {aura : Executor} (reached : Reached aura) (act : Act) :
    Reached (auraStep aura act) := by
  obtain ⟨ls, policy, device, broker, journal, catalog, draws, drawn, files, acts, opened, rfl⟩ :=
    reached
  refine ⟨ls, policy, device, broker, journal, catalog, draws, drawn, files, acts ++ [act],
    opened, ?_⟩
  rw [run_append]
  rfl

/-! ## The needs of steps in turn -/

/-- The needs that running a step brokers. -/
def stepNeeds (catalog : Catalog) (confirm : Bool) (step : Step) : List Need :=
  match catalog.get step.tool with
  | none => []
  | some tool =>
      if tool.effect.isDestructive && !confirm then []
      else
        match tool.required step.args with
        | .error _ => []
        | .ok needs => needs

def planNeeds (catalog : Catalog) (confirm : Bool) (steps : List Step) : List Need :=
  steps.flatMap (stepNeeds catalog confirm)

/-- The executor's turns for these needs, taken from here. -/
def Executor.turns (aura : Executor) (needs : List Need) : List Turn :=
  turnsFrom aura.draws aura.drawn needs

def ReadyFor (aura : Executor) (needs : List Need) : Prop :=
  Ready aura.held aura.session (aura.turns needs)

theorem ready_for_none (aura : Executor) : ReadyFor aura [] := by
  constructor
  · intro turn member
    cases member
  · refine ⟨?_, ?_, ⟨aura.session, rfl⟩⟩
    · intro turn member
      cases member
    · intro id state limit _ _ positive
      cases positive

theorem ready_for_cons (aura : Executor) (filed : WellFiled aura) (need : Need)
    (rest : List Need) : ReadyFor aura (need :: rest) ↔
      ∃ id cap lease session, aura.capabilityFor need = some (id, cap) ∧
        access aura.advanced.nextDraw cap need.resource need.rights aura.session =
          .ok lease session ∧
        ReadyFor { aura.advanced.advanced with session } rest :=
  ready_cons filed.grants filed.wallet ⟨need, aura.nextDraw.now, aura.advanced.nextDraw⟩ _

section Brokering

variable {aura : Executor} {need : Need}

theorem broker_unheld (rest : List Need) (unheld : aura.capabilityFor need = none) :
    brokerNeeds (need :: rest) aura = (none, aura.advanced) := by
  simp only [brokerNeeds, unheld]

theorem broker_refused {id : GrantId} {cap : Capability} {error : HorizonOs.Weave.Error}
    {session : Session} (rest : List Need) (chosen : aura.capabilityFor need = some (id, cap))
    (answered : access aura.advanced.nextDraw cap need.resource need.rights aura.session =
      .error error session) :
    brokerNeeds (need :: rest) aura = (none, { aura.advanced.advanced with session }) := by
  simp only [brokerNeeds, chosen, answered]

theorem broker_admitted {id : GrantId} {cap : Capability} {lease : Lease} {session : Session}
    (rest : List Need) (chosen : aura.capabilityFor need = some (id, cap))
    (answered : access aura.advanced.nextDraw cap need.resource need.rights aura.session =
      .ok lease session) :
    brokerNeeds (need :: rest) aura =
      ((brokerNeeds rest { aura.advanced.advanced with session }).1.map fun others =>
          lease :: others,
        (brokerNeeds rest { aura.advanced.advanced with session }).2) := by
  simp only [brokerNeeds, chosen, answered]

end Brokering

/-- The needs in front are all brokered, and the executor that leaves is ready for the
others. -/
theorem broker_needs_ready (needs more : List Need) (aura : Executor) (filed : WellFiled aura) :
    ReadyFor aura (needs ++ more) ↔
      (brokerNeeds needs aura).1.isSome = true ∧ ReadyFor (brokerNeeds needs aura).2 more := by
  induction needs generalizing aura with
  | nil => simp [brokerNeeds]
  | cons need rest ih =>
      rw [List.cons_append, ready_for_cons aura filed]
      cases chosen : aura.capabilityFor need with
      | none =>
          rw [broker_unheld rest chosen]
          simp
      | some pair =>
          obtain ⟨id, cap⟩ := pair
          have kept := filed_access aura.advanced.nextDraw cap need.resource need.rights
            aura.session filed.grants
          cases answered : access aura.advanced.nextDraw cap need.resource need.rights
              aura.session with
          | error error session =>
              rw [broker_refused rest chosen answered]
              constructor
              · rintro ⟨_, _, lease, later, same, admitted, _⟩
                cases same
                rw [answered] at admitted
                contradiction
              · rintro ⟨brokered, _⟩
                contradiction
          | ok lease session =>
              rw [answered] at kept
              have onward := ih { aura.advanced.advanced with session } ⟨kept, filed.wallet⟩
              rw [broker_admitted rest chosen answered, Option.isSome_map, ← onward]
              constructor
              · rintro ⟨_, _, _, later, same, admitted, ready⟩
                cases same
                rw [answered] at admitted
                cases admitted
                exact ready
              · intro ready
                exact ⟨id, cap, lease, session, rfl, answered, ready⟩

/-- A step is turned away before anything is brokered, or its needs are brokered and its
tool runs on the leases. -/
theorem run_step_cases (step : Step) (confirm : Bool) (aura : Executor) :
    (∃ block, block ≠ .needsCapability ∧ stepNeeds aura.catalog confirm step = [] ∧
        runStep step confirm aura = (.blocked block, aura)) ∨
      ∃ tool : Tool, runStep step confirm aura =
        match brokerNeeds (stepNeeds aura.catalog confirm step) aura with
        | (none, later) => (.blocked .needsCapability, later)
        | (some leases, later) => runTool tool step.args leases later := by
  cases known : aura.catalog.get step.tool with
  | none =>
      left
      refine ⟨.unknownTool, by decide, ?_, ?_⟩
      · simp only [stepNeeds, known]
      · simp only [runStep, known]
  | some tool =>
      cases gate : tool.effect.isDestructive && !confirm with
      | true =>
          left
          refine ⟨.needsConfirmation, by decide, ?_, ?_⟩
          · simp only [stepNeeds, known, gate, if_true]
          · simp only [runStep, known, gate, if_true]
      | false =>
          cases required : tool.required step.args with
          | error error =>
              left
              refine ⟨.badArgs error.display, ?_, ?_, ?_⟩
              · intro same
                cases same
              · simp only [stepNeeds, known, gate, required, Bool.false_eq_true, if_false]
              · simp only [runStep, known, gate, required, Bool.false_eq_true, if_false]
          | ok needs =>
              right
              refine ⟨tool, ?_⟩
              have needed : stepNeeds aura.catalog confirm step = needs := by
                simp only [stepNeeds, known, gate, required, Bool.false_eq_true, if_false]
              rw [needed]
              cases brokered : brokerNeeds needs aura with
              | mk found later =>
                  cases found <;>
                    simp only [runStep, known, gate, required, brokered, Bool.false_eq_true,
                      if_false]

theorem run_tool_unblocked (tool : Tool) (args : Args) (leases : List Lease) (aura : Executor)
    (block : Block) : (runTool tool args leases aura).1 ≠ .blocked block := by
  intro blocked
  have ran := run_tool_ran tool args leases aura
  rw [blocked] at ran
  contradiction

/-- A step is not blocked for want of a capability when the executor is ready for its
needs, and is then ready for the needs that follow. -/
theorem run_step_ready (step : Step) (confirm : Bool) (more : List Need) (aura : Executor)
    (filed : WellFiled aura) :
    ReadyFor aura (stepNeeds aura.catalog confirm step ++ more) ↔
      (runStep step confirm aura).1 ≠ .blocked .needsCapability ∧
        ReadyFor (runStep step confirm aura).2 more := by
  obtain ⟨block, other, none, outcome⟩ | ⟨tool, outcome⟩ := run_step_cases step confirm aura
  · rw [none, outcome]
    constructor
    · intro ready
      refine ⟨?_, ready⟩
      intro same
      cases same
      contradiction
    · exact fun both => both.2
  · rw [outcome, broker_needs_ready _ more aura filed]
    cases brokerNeeds (stepNeeds aura.catalog confirm step) aura with
    | mk gained middle =>
        cases gained with
        | none => simp
        | some leases =>
            have unblocked := run_tool_unblocked tool step.args leases middle .needsCapability
            have same : ReadyFor (runTool tool step.args leases middle).2 more ↔
                ReadyFor middle more := by
              unfold runTool
              cases tool.run step.args leases middle.files <;> exact Iff.rfl
            dsimp only
            rw [same]
            simp [unblocked]

/-- No step of the results was blocked for want of a capability. -/
def Unblocked (results : List StepResult) : Prop :=
  ∀ result ∈ results, result.status ≠ .blocked .needsCapability

instance : DecidablePred Unblocked := fun results =>
  inferInstanceAs (Decidable (∀ result ∈ results, result.status ≠ .blocked .needsCapability))

/-- Brokering moves the session and the draws and nothing else. -/
theorem broker_needs_moves (needs : List Need) (aura : Executor) :
    ∃ session drawn, (brokerNeeds needs aura).2 = { aura with session, drawn } := by
  induction needs generalizing aura with
  | nil => exact ⟨aura.session, aura.drawn, rfl⟩
  | cons need rest ih =>
      simp only [brokerNeeds]
      split
      · exact ⟨aura.session, aura.drawn + 1, rfl⟩
      · split
        case h_1 error session _ => exact ⟨session, aura.drawn + 1 + 1, rfl⟩
        case h_2 lease session _ =>
          obtain ⟨later, drawn, moved⟩ := ih { aura.advanced.advanced with session }
          exact ⟨later, drawn, moved⟩

/-- Running a step leaves the catalog, the wallet and the draws as they are. -/
theorem run_step_moves (step : Step) (confirm : Bool) (aura : Executor) :
    ∃ session drawn files,
      (runStep step confirm aura).2 = { aura with session, drawn, files } := by
  obtain ⟨block, _, _, outcome⟩ | ⟨tool, outcome⟩ := run_step_cases step confirm aura
  · rw [outcome]
    exact ⟨aura.session, aura.drawn, aura.files, rfl⟩
  · rw [outcome]
    obtain ⟨session, drawn, moved⟩ :=
      broker_needs_moves (stepNeeds aura.catalog confirm step) aura
    cases brokered : brokerNeeds (stepNeeds aura.catalog confirm step) aura with
    | mk gained middle =>
        rw [brokered] at moved
        dsimp only at moved
        rw [moved]
        cases gained with
        | none => exact ⟨session, drawn, aura.files, rfl⟩
        | some leases =>
            dsimp only
            unfold runTool
            split
            case h_1 outcome files _ => exact ⟨session, drawn, files, rfl⟩
            case h_2 error files _ => exact ⟨session, drawn, files, rfl⟩

theorem run_steps_moves (confirm : Bool) (index : Nat) (steps : List Step) (aura : Executor) :
    ∃ session drawn files,
      (runSteps confirm index steps aura).2 = { aura with session, drawn, files } := by
  induction steps generalizing index aura with
  | nil => exact ⟨aura.session, aura.drawn, aura.files, rfl⟩
  | cons step rest ih =>
      obtain ⟨session, drawn, files, first⟩ := run_step_moves step confirm aura
      obtain ⟨later, further, done, others⟩ := ih (index + 1) (runStep step confirm aura).2
      refine ⟨later, further, done, ?_⟩
      change (runSteps confirm (index + 1) rest (runStep step confirm aura).2).2 = _
      rw [others, first]

theorem execute_draws (plan : Plan) (confirm : Bool) (aura : Executor) :
    (execute plan confirm aura).2.draws = aura.draws := by
  obtain ⟨session, drawn, files, moved⟩ := run_steps_moves confirm 0 plan.steps aura
  change (runSteps confirm 0 plan.steps aura).2.draws = _
  rw [moved]

/-- The steps run unblocked exactly when the executor is ready for all their needs. -/
theorem run_steps_ready (confirm : Bool) (index : Nat) (steps : List Step) (aura : Executor)
    (filed : WellFiled aura) :
    Unblocked (runSteps confirm index steps aura).1 ↔
      ReadyFor aura (planNeeds aura.catalog confirm steps) := by
  induction steps generalizing index aura with
  | nil =>
      constructor
      · intro _
        exact ready_for_none aura
      · intro _ result member
        cases member
  | cons step rest ih =>
      obtain ⟨_, kept⟩ := run_step_lawful step confirm aura filed
      have onward := ih (index + 1) (runStep step confirm aura).2 kept
      have catalog : (runStep step confirm aura).2.catalog = aura.catalog := by
        obtain ⟨session, drawn, files, moved⟩ := run_step_moves step confirm aura
        rw [moved]
      rw [catalog] at onward
      rw [planNeeds, List.flatMap_cons, run_step_ready step confirm _ aura filed, ← planNeeds,
        ← onward]
      constructor
      · intro unblocked
        constructor
        · exact unblocked _ List.mem_cons_self
        · intro result member
          exact unblocked result (List.mem_cons_of_mem _ member)
      · rintro ⟨first, others⟩ result member
        rcases List.mem_cons.mp member with rfl | inRest
        · exact first
        · exact others result inRest

/-! ## What a preview has looked at -/

/-- Every need the preview shows is held. -/
def AllHeld (shown : Preview) : Prop :=
  ∀ step ∈ shown.steps, ∀ status ∈ step.needs, status.isHeld = true

instance : DecidablePred AllHeld := fun shown =>
  inferInstanceAs (Decidable (∀ step ∈ shown.steps, ∀ status ∈ step.needs, status.isHeld = true))

theorem held_chosen (aura : Executor) (need : Need) (held : (needStatus aura need).isHeld = true) :
    (aura.capabilityFor need).isSome = true := by
  cases chosen : aura.capabilityFor need with
  | none => simp [needStatus, NeedStatus.isHeld, chosen] at held
  | some pair => rfl

/-- While the clock stands still, a need that the preview found held has a choice
whenever its turn comes. -/
theorem held_needs_found (needs : List Need) (aura later : Executor) (filed : WellFiled aura)
    (clock : UInt64) (still : ∀ turn, aura.drawn ≤ turn → (aura.draws turn).now = clock)
    (held : ∀ status ∈ (needStatuses needs aura).1, status.isHeld = true)
    (moved : ∃ drawn, later = { aura with drawn } ∧ aura.drawn ≤ drawn) :
    ∀ turn ∈ later.turns needs, Found later.held later.session turn := by
  induction needs generalizing aura later with
  | nil =>
      intro turn member
      cases member
  | cons need rest ih =>
      obtain ⟨drawn, rfl, further⟩ := moved
      intro turn member
      simp only [needStatuses] at held
      rcases List.mem_cons.mp member with rfl | inRest
      · have first := held_chosen aura need (held _ List.mem_cons_self)
        obtain ⟨⟨id, cap⟩, chosen⟩ := Option.isSome_iff_exists.mp first
        have now : (aura.draws drawn).now = (aura.draws aura.drawn).now := by
          rw [still drawn further, still aura.drawn (Nat.le_refl _)]
        have picked : choice aura.held aura.session
            ⟨need, (aura.draws drawn).now, aura.draws (drawn + 1)⟩ = some (id, cap) := by
          rw [choice, now]
          exact chosen
        obtain ⟨_, state, known, _, active, _⟩ := choice_live filed.grants filed.wallet _ id cap picked
        refine ⟨id, cap, state, picked, known, ?_⟩
        dsimp only at active ⊢
        rw [still (drawn + 1) (by omega), ← still drawn further]
        cases late : expired (aura.draws drawn).now state.grant.expiresUnix with
        | false => rfl
        | true =>
            rw [GrantState.status, late] at active
            split at active <;> contradiction
      · apply ih aura.advanced { aura with drawn := drawn + 2 } ⟨filed.grants, filed.wallet⟩
        · intro turn beyond
          exact still turn (by
            change aura.drawn + 1 ≤ turn at beyond
            omega)
        · intro status member
          exact held status (List.mem_cons_of_mem _ member)
        · refine ⟨drawn + 2, rfl, ?_⟩
          change aura.drawn + 1 ≤ drawn + 2
          omega
        · exact inRest

/-- The needs the preview shows for a step are the ones that running it brokers, when
it gets that far. -/
theorem preview_step_held (index : Nat) (step : Step) (confirm : Bool) (aura : Executor)
    (held : ∀ status ∈ (previewStep index step aura).1.needs, status.isHeld = true) :
    ∀ status ∈ (needStatuses (stepNeeds aura.catalog confirm step) aura).1,
      status.isHeld = true := by
  unfold stepNeeds
  split
  case h_1 =>
    intro status member
    cases member
  case h_2 tool known =>
    split
    case isTrue =>
      intro status member
      cases member
    case isFalse =>
      split
      case h_1 =>
        intro status member
        cases member
      case h_2 needs required =>
        simp only [previewStep, known, required] at held
        exact held

theorem preview_forward (plan : Plan) (aura : Executor) :
    ∃ drawn, (preview plan aura).2 = { aura with drawn } ∧ aura.drawn ≤ drawn := by
  have statuses : ∀ (needs : List Need) (aura : Executor),
      aura.drawn ≤ (needStatuses needs aura).2.drawn := by
    intro needs
    induction needs with
    | nil => exact fun _ => Nat.le_refl _
    | cons need rest ih =>
        intro aura
        have others := ih aura.advanced
        change aura.drawn + 1 ≤ _ at others
        change aura.drawn ≤ (needStatuses rest aura.advanced).2.drawn
        omega
  have steps : ∀ (steps : List Step) (index : Nat) (aura : Executor),
      aura.drawn ≤ (previewSteps index steps aura).2.drawn := by
    intro steps
    induction steps with
    | nil => exact fun _ _ => Nat.le_refl _
    | cons step rest ih =>
        intro index aura
        have first : aura.drawn ≤ (previewStep index step aura).2.drawn := by
          unfold previewStep
          split
          · exact Nat.le_refl _
          · split
            · exact Nat.le_refl _
            · exact statuses _ aura
        exact first.trans (ih (index + 1) (previewStep index step aura).2)
  obtain ⟨drawn, same⟩ := preview_draws plan aura
  have further := steps plan.steps 0 aura
  refine ⟨drawn, same, ?_⟩
  change aura.drawn ≤ (preview plan aura).2.drawn at further
  rw [same] at further
  exact further

/-! ## What an approval adds -/

/-- The entries that granting these needs adds to the log. -/
def grantEntries (limits : Limits) (draws : Nat → Draw) : Nat → List Need → List (UInt64 × Event)
  | _, [] => []
  | drawn, need :: rest =>
      ((draws drawn).logNow, grantEvent (draws drawn) PRINCIPAL need.resource need.rights limits) ::
        grantEntries limits draws (drawn + 1) rest

/-- The executor with these needs granted, its disk set aside. -/
def Executor.enrolled (limits : Limits) : List Need → Executor → Executor
  | [], aura => aura
  | need :: rest, aura =>
      enrolled limits rest
        { aura.advanced with
          session := aura.session.withGrants (aura.session.broker.grants.insert aura.nextDraw.grantId
            (grantState aura.nextDraw PRINCIPAL need.resource need.rights limits))
          held := aura.held.insert aura.nextDraw.grantId
            ⟨aura.nextDraw.grantId, aura.nextDraw.secret⟩ }

/-- The executor over what the log left. -/
def Executor.withSession (aura : Executor) (after : Session) : Executor :=
  { aura with session := after.withGrants aura.session.broker.grants }

theorem enrolled_over (limits : Limits) (needs : List Need) (aura : Executor) (after : Session) :
    (aura.withSession after).enrolled limits needs = (aura.enrolled limits needs).withSession after := by
  induction needs generalizing aura with
  | nil => rfl
  | cons need rest ih => exact ih (aura.enrolled limits [need])

/-- Granting one need comes to logging the grant. -/
theorem authorize_answer (limits : Limits) (need : Need) (aura : Executor) :
    authorize need.resource need.rights limits aura =
      match log aura.nextDraw.logNow (grantEvent aura.nextDraw PRINCIPAL need.resource
          need.rights limits) aura.session with
      | .ok _ after => .ok aura.nextDraw.grantId ((aura.enrolled limits [need]).withSession after)
      | .error error after => .error (.weave error) { aura.advanced with session := after } := by
  simp only [authorize, grant, bind_apply, grantEvent]
  cases logged : log aura.nextDraw.logNow (.grant aura.nextDraw.grantId PRINCIPAL
      need.resource need.rights limits.expiresUnix limits.maxUses) aura.session with
  | error error after => rfl
  | ok done after =>
      have table := log_table _ _ _ _ logged
      simp only [updateGrants, table]
      rfl

/-- Granting needs goes through when the log takes all the grants. -/
theorem grant_needs_answer (limits : Limits) (needs : List Need) (aura : Executor) :
    match recorded (grantEntries limits aura.draws aura.drawn needs) aura.session with
    | some after => ∃ ids, grantNeeds limits needs aura =
        .ok ids ((aura.enrolled limits needs).withSession after)
    | none => ∃ error later, grantNeeds limits needs aura = .error error later := by
  induction needs generalizing aura with
  | nil => exact ⟨[], rfl⟩
  | cons need rest ih =>
      have authorized := authorize_answer limits need aura
      have entries : grantEntries limits aura.draws aura.drawn (need :: rest) =
          (aura.nextDraw.logNow, grantEvent aura.nextDraw PRINCIPAL need.resource need.rights limits) ::
            grantEntries limits aura.draws (aura.drawn + 1) rest := rfl
      rw [entries, recorded]
      cases logged : log aura.nextDraw.logNow (grantEvent aura.nextDraw PRINCIPAL
          need.resource need.rights limits) aura.session with
      | error error after =>
          rw [logged] at authorized
          refine ⟨.weave error, { aura.advanced with session := after }, ?_⟩
          simp only [grantNeeds, bind_apply, authorized]
      | ok done after =>
          rw [logged] at authorized
          have onward := ih ((aura.enrolled limits [need]).withSession after)
          dsimp only at authorized ⊢
          change match recorded (grantEntries limits aura.draws (aura.drawn + 1) rest)
              (after.withGrants (aura.enrolled limits [need]).session.broker.grants) with
            | some final => ∃ ids,
                grantNeeds limits rest ((aura.enrolled limits [need]).withSession after) =
                  .ok ids ((((aura.enrolled limits [need]).withSession after).enrolled limits
                    rest).withSession final)
            | none => ∃ error later,
                grantNeeds limits rest ((aura.enrolled limits [need]).withSession after) =
                  .error error later at onward
          rw [recorded_with_grants] at onward
          cases rested : recorded (grantEntries limits aura.draws (aura.drawn + 1) rest) after with
          | none =>
              rw [rested] at onward
              obtain ⟨error, later, failed⟩ := onward
              refine ⟨error, later, ?_⟩
              simp only [grantNeeds, bind_apply, authorized, failed]
          | some final =>
              rw [rested] at onward
              obtain ⟨ids, granted⟩ := onward
              refine ⟨aura.nextDraw.grantId :: ids, ?_⟩
              simp only [grantNeeds, bind_apply, authorized, granted, pure_apply]
              rw [enrolled_over]
              rfl

/-! ## Promises kept -/

/-- A step previewed with every need held runs unblocked, at an unmoved clock, exactly
when what was chosen is usable. -/
theorem previewed_step_unblocked_iff (aura : Executor) (filed : WellFiled aura) (plan : Plan)
    (step : Step) (confirm : Bool) (clock : UInt64) (single : plan.steps = [step])
    (still : ∀ turn, aura.drawn ≤ turn → (aura.draws turn).now = clock)
    (held : AllHeld (preview plan aura).1) :
    Unblocked (execute plan confirm (preview plan aura).2).1.results ↔
      Usable aura.held aura.session
        ((preview plan aura).2.turns (planNeeds aura.catalog confirm plan.steps)) := by
  obtain ⟨drawn, moved, further⟩ := preview_forward plan aura
  have needed : planNeeds aura.catalog confirm plan.steps =
      stepNeeds aura.catalog confirm step := by
    rw [single, planNeeds, List.flatMap_cons, List.flatMap_nil, List.append_nil]
  have statuses : ∀ status ∈ (needStatuses (stepNeeds aura.catalog confirm step) aura).1,
      status.isHeld = true := by
    apply preview_step_held 0 step confirm aura
    apply held
    change (previewStep 0 step aura).1 ∈ (previewSteps 0 plan.steps aura).1
    rw [single]
    exact List.mem_cons_self
  have found := held_needs_found (stepNeeds aura.catalog confirm step) aura
    (preview plan aura).2 filed clock still statuses ⟨drawn, moved, further⟩
  have runs := run_steps_ready confirm 0 plan.steps (preview plan aura).2
    (well_filed_preview plan aura filed)
  change Unblocked (runSteps confirm 0 plan.steps (preview plan aura).2).1 ↔ _
  rw [moved] at runs found ⊢
  rw [runs, needed]
  constructor
  · exact fun ready => ready.usable
  · exact fun usable => ⟨found, usable⟩

theorem enrolled_catalog (limits : Limits) (needs : List Need) (aura : Executor) :
    (aura.enrolled limits needs).catalog = aura.catalog := by
  induction needs generalizing aura with
  | nil => rfl
  | cons need rest ih => exact ih (aura.enrolled limits [need])

/-- An approved plan runs unblocked exactly when the executor with the missing needs
granted is ready for it. -/
theorem approved_plan_unblocked_iff (aura : Executor) (filed : WellFiled aura) (plan : Plan)
    (limits : Limits) :
    (∀ report final, approveAndExecute plan limits aura = .ok report final →
        Unblocked report.results) ↔
      ∀ after, recorded (grantEntries limits aura.draws (preview plan aura).2.drawn
          (preview plan aura).1.missing) aura.session = some after →
        ReadyFor (((preview plan aura).2.enrolled limits (preview plan aura).1.missing).withSession after)
          (planNeeds aura.catalog true plan.steps) := by
  obtain ⟨drawn, moved⟩ := preview_draws plan aura
  have kept := well_filed_grant_needs limits (preview plan aura).1.missing
    (preview plan aura).2 (well_filed_preview plan aura filed)
  have answer := grant_needs_answer limits (preview plan aura).1.missing (preview plan aura).2
  have draws : (preview plan aura).2.draws = aura.draws := by
    rw [moved]
  have session : (preview plan aura).2.session = aura.session := by
    rw [moved]
  rw [draws, session] at answer
  cases taken : recorded (grantEntries limits aura.draws (preview plan aura).2.drawn
      (preview plan aura).1.missing) aura.session with
  | none =>
      rw [taken] at answer
      obtain ⟨error, later, failed⟩ := answer
      have outcome : approveAndExecute plan limits aura = .error error later := by
        simp only [approveAndExecute, grantMissing, failed]
      constructor
      · intro _ after impossible
        contradiction
      · intro _ report final answered
        rw [outcome] at answered
        contradiction
  | some after =>
      rw [taken] at answer
      obtain ⟨ids, granted⟩ := answer
      rw [granted] at kept
      set enrolled := ((preview plan aura).2.enrolled limits (preview plan aura).1.missing).withSession
        after with enrolledDef
      have outcome : approveAndExecute plan limits aura =
          .ok (execute plan true enrolled).1 (execute plan true enrolled).2 := by
        simp only [approveAndExecute, grantMissing, granted]
      have same : enrolled.catalog = aura.catalog := by
        change ((preview plan aura).2.enrolled limits (preview plan aura).1.missing).catalog = _
        rw [enrolled_catalog, moved]
      have runs := run_steps_ready true 0 plan.steps enrolled kept
      rw [same] at runs
      constructor
      · intro unblocked other taken
        cases taken
        apply runs.mp
        exact unblocked _ _ outcome
      · intro ready report final answered
        rw [outcome] at answered
        cases answered
        exact runs.mpr (ready after rfl)

/-- Aura with a grant to write `/a` once. -/
def onceAura : Executor :=
  finalState (authorize (samplePath "/a") Rights.WRITE ⟨none, some 1⟩ (freshAura Device.fresh))

/-- Aura after it has used the grant. -/
def spentAura : Executor := (execute deletePlan true onceAura).2

theorem fresh_reached : Reached (freshAura Device.fresh) :=
  ⟨sampleStore, .denyAll, Device.fresh, sampleBroker, [], standardCatalog,
    fun turn => sampleDraw 10 (UInt8.ofNat turn), 0, [], [], by rfl, rfl⟩

theorem once_reached : Reached onceAura :=
  fresh_reached.act (.authorize (samplePath "/a") Rights.WRITE ⟨none, some 1⟩)

theorem spent_reached : Reached spentAura := once_reached.act (.execute deletePlan true)

theorem once_draws : onceAura.draws = (freshAura Device.fresh).draws := by
  unfold onceAura authorize
  split <;> rfl

theorem spent_draws : spentAura.draws = (freshAura Device.fresh).draws := by
  unfold spentAura
  rw [execute_draws, once_draws]

/-- Whether there is a report and a step of it lacked a capability. -/
def reportedBlocked : EStateM.Result Error Executor Report → Bool
  | .ok report _ => ¬Unblocked report.results
  | .error _ _ => false

end HorizonOs.Aura
