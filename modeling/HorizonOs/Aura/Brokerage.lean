import HorizonOs.Aura.Execute
import HorizonOs.Weave.Replay

/-!
# Nothing without the broker

What has to have happened before a tool ran, and what approving a plan adds to
the grants. Every need of a step that ran was admitted by the broker under a
live grant to Aura, and its use is in the log by the time the tool acts.
-/

namespace HorizonOs.Aura

open HorizonOs.Lib.ByteCodec HorizonOs.Lib.Text HorizonOs.Lib.Runs
open HorizonOs.Lifestream HorizonOs.Weave

set_option autoImplicit false

/-! ## Tables and wallets filed by id -/

/-- Every grant is filed under its own id. -/
def Filed (grants : GrantTable) : Prop :=
  ∀ id state, grants.lookup id = some state → state.grant.id = id

/-- Every handle in the wallet is filed under the grant it is for. -/
def WalletFiled (held : AList fun _ : GrantId => Capability) : Prop :=
  ∀ id cap, held.lookup id = some cap → cap.grant = id

section Tables

variable {grants : GrantTable}

theorem filed_insert (filed : Filed grants) (state : GrantState) :
    Filed (grants.insert state.grant.id state) := by
  intro id found known
  by_cases same : id = state.grant.id
  · rw [same, AList.lookup_insert] at known
    cases known
    exact same.symm
  · rw [AList.lookup_insert_ne same] at known
    exact filed id found known

theorem filed_adjust (filed : Filed grants) (id : GrantId) (change : GrantState → GrantState)
    (same : ∀ state, (change state).grant = state.grant) : Filed (grants.adjust id change) := by
  intro other found known
  rw [lookup_adjust] at known
  split at known
  case isTrue equal =>
    obtain ⟨before, present, rfl⟩ := Option.map_eq_some_iff.mp known
    rw [same, equal]
    exact filed id before present
  case isFalse => exact filed other found known

theorem filed_entry (filed : Filed grants) (entry : AuditEntry) :
    Filed (applyEntry grants entry) := by
  rw [applyEntry]
  cases entry.event with
  | grant id principal resource rights expiresUnix maxUses =>
      exact filed_insert filed
        ⟨⟨id, principal, resource, rights, entry.timeUnix, expiresUnix, maxUses⟩, false, 0, none⟩
  | use id principal resource rights => exact filed_adjust filed id _ fun _ => rfl
  | deny principal resource rights reason => exact filed
  | revoke id => exact filed_adjust filed id _ fun _ => rfl

theorem filed_empty : Filed ∅ := by
  intro id state found
  simp at found

theorem filed_table (entries : List AuditEntry) : Filed (tableOf entries) := by
  induction entries using List.reverseRecOn with
  | nil => exact filed_empty
  | append_singleton entries last ih =>
      have stepped : tableOf (entries ++ [last]) = applyEntry (tableOf entries) last := by
        simp [tableOf, List.foldl_append]
      rw [stepped]
      exact filed_entry ih last

theorem filed_replay (ls : Lifestream) (device : Device) (head : Option ObjectId)
    (grants : GrantTable) (seq : UInt64) (replayed : replay ls device head = .ok (grants, seq)) :
    Filed grants := by
  obtain ⟨entries, _, ended⟩ := of_bind_ok replayed
  cases ended
  exact filed_table entries

end Tables

theorem filed_prepare (broker : Broker) (draw : Draw) (call : Call) (filed : Filed broker.grants) :
    Filed (prepare broker draw call) := by
  cases call with
  | access cap resource rights =>
      simp only [prepare]
      split
      · exact filed_adjust filed _ _ fun _ => rfl
      · exact filed
  | revoke id => exact filed_adjust filed _ _ fun _ => rfl
  | _ => exact filed

theorem filed_settle (broker : Broker) (draw : Draw) (call : Call) (grants : GrantTable)
    (filed : Filed grants) : Filed (settle broker draw grants call) := by
  cases call with
  | grant principal resource rights limits =>
      exact filed_insert filed (grantState draw principal resource rights limits)
  | request principal resource rights =>
      simp only [settle]
      split
      case h_1 granted limits _ =>
        exact filed_insert filed (grantState draw principal resource granted limits)
      case h_2 => exact filed
  | _ => exact filed

/-- Whatever is called of a broker, its grants stay filed under their ids. -/
theorem filed_perform (draw : Draw) (call : Call) (session : Session)
    (filed : Filed session.broker.grants) :
    Filed (finalState (perform draw call session)).broker.grants := by
  cases logs : eventOf session.broker draw call with
  | some event =>
      have prepared := filed_prepare session.broker draw call filed
      obtain ⟨device, _, ⟨id, performed, _⟩ | ⟨_, ⟨error, performed⟩, _⟩⟩ :=
        logging_outcome session draw call event logs
      · rw [performed, final_answer]
        exact filed_settle session.broker draw call _ prepared
      · rw [performed]
        exact prepared
  | none =>
      cases rereads : call.isReload with
      | false =>
          obtain ⟨grants, left, ⟨same, _⟩ | ⟨id, _, _, same⟩⟩ :=
            perform_silent session draw call logs rereads
          · rw [left, same]
            exact filed
          · rw [left, same]
            exact filed_adjust filed id _ fun _ => rfl
      | true =>
          cases call with
          | reload =>
              obtain ⟨error, left⟩ | ⟨broker, changed, reread, _, left⟩ :=
                reload_outcome session draw
              · rw [left]
                exact filed
              · rw [left]
                obtain ⟨head, _, rest⟩ := of_bind_ok reread
                split at rest
                · cases rest
                  exact filed
                · obtain ⟨table, replayed, ended⟩ := of_bind_ok rest
                  cases ended
                  exact filed_replay _ _ _ _ _ replayed
          | _ => contradiction

/-- The grants and the wallet are both filed by id. -/
structure WellFiled (aura : Executor) : Prop where
  grants : Filed aura.session.broker.grants
  wallet : WalletFiled aura.held

/-! ## One need, brokered -/

/-- An access for exactly this need was admitted, at this draw, under a live grant to
Aura whose handle is in the wallet, and its use was logged. -/
structure Exercised (held : AList fun _ : GrantId => Capability) (draw : Draw) (need : Need)
    (lease : Lease) (session later : Session) : Prop where
  granted : ∃ cap state, held.lookup cap.grant = some cap ∧
    session.broker.grants.lookup cap.grant = some state ∧ state.grant.id = cap.grant ∧
    state.grant.principal = PRINCIPAL ∧ state.revoked = false ∧
    expired draw.now state.grant.expiresUnix = false ∧
    state.grant.resource.covers need.resource = true ∧
    state.grant.rights.contains need.rights = true ∧
    access draw cap need.resource need.rights session = .ok lease later
  exact : lease.resource = need.resource ∧ lease.rights = need.rights
  logged : ∃ entry, later.journal = session.journal ++ [entry] ∧
    entry.event = .use lease.grant PRINCIPAL need.resource need.rights

/-- A live grant to Aura that covers the need, and its handle. -/
theorem capability_for_live (aura : Executor) (need : Need) (id : GrantId) (cap : Capability)
    (filed : WellFiled aura) (found : aura.capabilityFor need = some (id, cap)) :
    aura.held.lookup cap.grant = some cap ∧
      ∃ state, aura.session.broker.grants.lookup cap.grant = some state ∧
        state.grant.principal = PRINCIPAL := by
  obtain ⟨info, listed, chosen⟩ := List.exists_of_findSome?_eq_some found
  split at chosen
  case isFalse => contradiction
  case isTrue live =>
    obtain ⟨inWallet, held, pair⟩ := Option.map_eq_some_iff.mp chosen
    cases pair
    have same := filed.wallet info.id cap held
    obtain ⟨⟨key, state⟩, entry, rfl⟩ := List.mem_map.mp (List.mem_mergeSort.mp listed)
    have known : aura.session.broker.grants.lookup key = some state :=
      AList.mem_lookup_iff.mpr entry
    have own : state.grant.id = key := filed.grants key state known
    change cap.grant = state.grant.id at same
    change aura.held.lookup state.grant.id = some cap at held
    rw [same]
    refine ⟨held, state, ?_, live.1⟩
    rw [own]
    exact known

/-- An access that is admitted logs one use. -/
theorem access_logged (session later : Session) (draw : Draw) (cap : Capability)
    (resource : Resource) (rights : Rights) (lease : Lease)
    (answered : access draw cap resource rights session = .ok lease later) :
    ∃ entry, later.journal = session.journal ++ [entry] ∧
      entry.event = .use cap.grant (principalOf session.broker cap.grant) resource rights := by
  obtain ⟨admitted, _⟩ := access_admitted session later draw cap resource rights lease answered
  have performed : perform draw (.access cap resource rights) session = .ok (.lease lease) later := by
    simp only [perform, bind_apply, answered, pure_apply]
  have logs : eventOf session.broker draw (.access cap resource rights) =
      some (.use cap.grant (principalOf session.broker cap.grant) resource rights) := by
    simp only [eventOf, admitted]
  obtain ⟨device, _, ⟨id, settles, _⟩ | ⟨_, ⟨error, failed⟩, _⟩⟩ :=
    logging_outcome session draw _ _ logs
  · rw [performed] at settles
    simp only [verdict, admitted, answerIn] at settles
    cases settles
    exact ⟨_, rfl, rfl⟩
  · rw [performed] at failed
    contradiction

theorem exercised_of_access (aura : Executor) (need : Need) (id : GrantId) (cap : Capability)
    (draw : Draw) (lease : Lease) (later : Session) (filed : WellFiled aura)
    (found : aura.capabilityFor need = some (id, cap))
    (answered : access draw cap need.resource need.rights aura.session = .ok lease later) :
    Exercised aura.held draw need lease aura.session later := by
  obtain ⟨held, state, known, principal⟩ := capability_for_live aura need id cap filed found
  obtain ⟨admitted, rfl⟩ := access_admitted _ _ _ _ _ _ _ answered
  obtain ⟨checked, present, _, live, timely, _, covers, contains⟩ :=
    refusal_none _ _ _ _ _ admitted
  rw [known] at present
  cases present
  obtain ⟨entry, journal, event⟩ := access_logged _ _ _ _ _ _ _ answered
  refine ⟨⟨cap, state, held, known, filed.grants _ _ known, principal, live, timely, covers,
    contains, answered⟩, ⟨rfl, rfl⟩, entry, journal, ?_⟩
  have named : principalOf aura.session.broker cap.grant = PRINCIPAL := by
    rw [principalOf, known]
    exact principal
  rw [event, named]

theorem filed_access (draw : Draw) (cap : Capability) (resource : Resource) (rights : Rights)
    (session : Session) (filed : Filed session.broker.grants) :
    Filed (finalState (access draw cap resource rights session)).broker.grants := by
  have performed := filed_perform draw (.access cap resource rights) session filed
  simp only [perform, bind_apply] at performed
  cases answered : access draw cap resource rights session with
  | ok lease later =>
      rw [answered] at performed
      exact performed
  | error error later =>
      rw [answered] at performed
      exact performed

/-! ## The needs of a step, brokered in order -/

/-- The needs were brokered one after the other, from one executor to another. -/
inductive Brokered : List Need → List Lease → Executor → Executor → Prop
  | nil (aura : Executor) : Brokered [] [] aura aura
  | cons (need : Need) (lease : Lease) (draw : Draw) (session : Session) (needs : List Need)
      (leases : List Lease) (aura middle later : Executor)
      (first : Exercised aura.held draw need lease aura.session session)
      (moved : middle = { aura with session, drawn := middle.drawn })
      (rest : Brokered needs leases middle later) :
      Brokered (need :: needs) (lease :: leases) aura later

theorem brokered_of_leases (asked : List Need) (aura later : Executor) (leases : List Lease)
    (filed : WellFiled aura) (brokered : brokerNeeds asked aura = (some leases, later)) :
    Brokered asked leases aura later := by
  induction asked generalizing aura leases with
  | nil =>
      simp only [brokerNeeds, Prod.mk.injEq, Option.some.injEq] at brokered
      obtain ⟨rfl, rfl⟩ := brokered
      exact .nil aura
  | cons need rest ih =>
      simp only [brokerNeeds] at brokered
      split at brokered
      · cases brokered
      case h_2 id cap found =>
        split at brokered
        · cases brokered
        case h_2 lease session answered =>
          have kept : Filed session.broker.grants := by
            have moved := filed_access aura.advanced.nextDraw cap need.resource need.rights
              aura.session filed.grants
            rwa [answered] at moved
          cases others : brokerNeeds rest { aura.advanced.advanced with session } with
          | mk gained after =>
              rw [others] at brokered
              cases gained with
              | none =>
                  simp at brokered
              | some more =>
                  simp only [Option.map_some, Prod.mk.injEq, Option.some.injEq] at brokered
                  obtain ⟨rfl, rfl⟩ := brokered
                  have first := exercised_of_access aura need id cap _ lease session filed found
                    answered
                  exact .cons need lease _ session rest more aura
                    { aura.advanced.advanced with session } after first rfl
                    (ih _ more ⟨kept, filed.wallet⟩ others)

theorem brokered_files (asked : List Need) (leases : List Lease) (aura later : Executor)
    (brokered : Brokered asked leases aura later) : later.files = aura.files := by
  induction brokered with
  | nil aura => rfl
  | cons need lease draw session needs leases aura middle later first moved rest ih =>
      rw [ih, moved]

theorem well_filed_broker_needs (asked : List Need) (aura : Executor) (filed : WellFiled aura) :
    WellFiled (brokerNeeds asked aura).2 := by
  induction asked generalizing aura with
  | nil => exact filed
  | cons need rest ih =>
      simp only [brokerNeeds]
      split
      · exact ⟨filed.grants, filed.wallet⟩
      case h_2 id cap found =>
        have moved := filed_access aura.advanced.nextDraw cap need.resource need.rights
          aura.session filed.grants
        cases answered : access aura.advanced.nextDraw cap need.resource need.rights aura.session with
        | error error session =>
            rw [answered] at moved
            exact ⟨moved, filed.wallet⟩
        | ok lease session =>
            rw [answered] at moved
            exact ih { aura.advanced.advanced with session } ⟨moved, filed.wallet⟩

/-! ## Steps and plans -/

/-- The step names a known tool and is confirmed if that is destructive, every need the
tool declares was brokered, and only then did the tool run. -/
def Authorized (step : Step) (confirm : Bool) (status : StepStatus) (aura later : Executor) :
    Prop :=
  ∃ tool needs leases middle, aura.catalog.get step.tool = some tool ∧
    (tool.effect.isDestructive = true → confirm = true) ∧
    tool.required step.args = .ok needs ∧ Brokered needs leases aura middle ∧
    runTool tool step.args leases middle = (status, later)

/-- A step whose tool ran was authorized; any other did nothing to files. -/
structure StepLawful (step : Step) (confirm : Bool) (aura : Executor)
    (outcome : StepStatus × Executor) : Prop where
  acted : outcome.1.ran = true → Authorized step confirm outcome.1 aura outcome.2
  idle : outcome.1.ran = false → outcome.2.files = aura.files

/-- A report of these steps in order, each of them lawful. -/
inductive Reported (confirm : Bool) :
    Nat → List Step → Executor → List StepResult → Executor → Prop
  | nil (index : Nat) (aura : Executor) : Reported confirm index [] aura [] aura
  | cons (index : Nat) (step : Step) (rest : List Step) (aura middle later : Executor)
      (status : StepStatus) (results : List StepResult)
      (first : StepLawful step confirm aura (status, middle))
      (others : Reported confirm (index + 1) rest middle results later) :
      Reported confirm index (step :: rest) aura (⟨index, step.tool, status⟩ :: results) later

theorem run_tool_session (tool : Tool) (args : Args) (leases : List Lease) (aura : Executor) :
    (runTool tool args leases aura).2.session = aura.session ∧
      (runTool tool args leases aura).2.held = aura.held := by
  unfold runTool
  cases tool.run args leases aura.files <;> exact ⟨rfl, rfl⟩

theorem run_tool_ran (tool : Tool) (args : Args) (leases : List Lease) (aura : Executor) :
    (runTool tool args leases aura).1.ran = true := by
  unfold runTool
  cases tool.run args leases aura.files <;> rfl

theorem run_step_lawful (step : Step) (confirm : Bool) (aura : Executor)
    (filed : WellFiled aura) :
    StepLawful step confirm aura (runStep step confirm aura) ∧
      WellFiled (runStep step confirm aura).2 := by
  have blocked : ∀ block : Block, StepLawful step confirm aura (.blocked block, aura) ∧
      WellFiled aura := by
    intro block
    exact ⟨⟨fun ran => by contradiction, fun _ => rfl⟩, filed⟩
  cases known : aura.catalog.get step.tool with
  | none =>
      simp only [runStep, known]
      exact blocked .unknownTool
  | some tool =>
      cases gate : tool.effect.isDestructive && !confirm with
      | true =>
          simp only [runStep, known, gate, if_true]
          exact blocked .needsConfirmation
      | false =>
          cases required : tool.required step.args with
          | error error =>
              simp only [runStep, known, gate, required, Bool.false_eq_true, if_false]
              exact blocked (.badArgs error.display)
          | ok needs =>
              have kept := well_filed_broker_needs needs aura filed
              have files := broker_needs_files needs aura
              cases brokered : brokerNeeds needs aura with
              | mk leases middle =>
                  rw [brokered] at kept files
                  simp only [runStep, known, gate, required, brokered, Bool.false_eq_true, if_false]
                  cases leases with
                  | none => exact ⟨⟨fun ran => by contradiction, fun _ => files⟩, kept⟩
                  | some leases =>
                      obtain ⟨session, held⟩ := run_tool_session tool step.args leases middle
                      have ran := run_tool_ran tool step.args leases middle
                      refine ⟨⟨fun _ => ?_, fun idle => ?_⟩, ?_⟩
                      · refine ⟨tool, needs, leases, middle, known, ?_, required,
                          brokered_of_leases needs aura middle leases filed brokered, rfl⟩
                        intro destructive
                        simpa [destructive] using gate
                      · change (runTool tool step.args leases middle).1.ran = false at idle
                        rw [ran] at idle
                        contradiction
                      · constructor
                        · rw [session]
                          exact kept.grants
                        · rw [held]
                          exact kept.wallet

theorem run_steps_reported (confirm : Bool) (index : Nat) (steps : List Step) (aura : Executor)
    (filed : WellFiled aura) :
    Reported confirm index steps aura (runSteps confirm index steps aura).1
        (runSteps confirm index steps aura).2 ∧
      WellFiled (runSteps confirm index steps aura).2 := by
  induction steps generalizing index aura with
  | nil => exact ⟨.nil index aura, filed⟩
  | cons step rest ih =>
      obtain ⟨first, kept⟩ := run_step_lawful step confirm aura filed
      obtain ⟨others, final⟩ := ih (index + 1) (runStep step confirm aura).2 kept
      exact ⟨.cons index step rest aura _ _ _ _ first others, final⟩

/-! ## Grants that an approval adds -/

/-- A view of the grants with one more in it. -/
def withGrant (table : GrantId → Option Grant) (grant : Grant) : GrantId → Option Grant :=
  Function.update table grant.id (some grant)

/-- Grants of exactly these needs were added for Aura, in order, and no other grant
was touched. -/
def GrantsAdded (limits : Limits) (needs : List Need) (before after : Session) : Prop :=
  ∃ grants : List Grant,
    grants.map (fun grant => (⟨grant.resource, grant.rights⟩ : Need)) = needs ∧
    (∀ grant ∈ grants, grant.principal = PRINCIPAL ∧ grant.expiresUnix = limits.expiresUnix ∧
      grant.maxUses = limits.maxUses) ∧
    grantsOf after = grants.foldl withGrant (grantsOf before)

theorem added_none (limits : Limits) (session : Session) : GrantsAdded limits [] session session :=
  ⟨[], rfl, by simp, rfl⟩

/-- What a broker's grant leaves behind: one more grant, or none. -/
theorem grant_outcome (draw : Draw) (principal : PrincipalId) (resource : Resource)
    (rights : Rights) (limits : Limits) (session : Session) :
    (∃ later, grant draw principal resource rights limits session =
        .ok ⟨draw.grantId, draw.secret⟩ later ∧
      grantsOf later = withGrant (grantsOf session) ⟨draw.grantId, principal, resource, rights,
        draw.now, limits.expiresUnix, limits.maxUses⟩) ∨
      ∃ error later, grant draw principal resource rights limits session = .error error later ∧
        grantsOf later = grantsOf session := by
  have kept := log_keeps_grants draw.logNow
    (.grant draw.grantId principal resource rights limits.expiresUnix limits.maxUses) session
  simp only [grant, bind_apply]
  cases logged : log draw.logNow
      (.grant draw.grantId principal resource rights limits.expiresUnix limits.maxUses) session with
  | error error later =>
      rw [logged] at kept
      exact .inr ⟨error, later, rfl, kept⟩
  | ok value middle =>
      rw [logged] at kept
      refine .inl ⟨_, rfl, ?_⟩
      rw [← show grantsOf middle = grantsOf session from kept]
      funext other
      by_cases same : other = draw.grantId
      · rw [same, withGrant, Function.update_self]
        simp [grantsOf]
      · rw [withGrant, Function.update_of_ne same]
        simp [grantsOf, AList.lookup_insert_ne same]

theorem filed_grant (draw : Draw) (principal : PrincipalId) (resource : Resource)
    (rights : Rights) (limits : Limits) (session : Session) (filed : Filed session.broker.grants) :
    Filed (finalState (grant draw principal resource rights limits session)).broker.grants := by
  have performed := filed_perform draw (.grant principal resource rights limits) session filed
  simp only [perform, bind_apply] at performed
  cases answered : grant draw principal resource rights limits session with
  | ok cap later =>
      rw [answered] at performed
      exact performed
  | error error later =>
      rw [answered] at performed
      exact performed

theorem wallet_insert (held : AList fun _ : GrantId => Capability) (cap : Capability)
    (filed : WalletFiled held) : WalletFiled (held.insert cap.grant cap) := by
  intro id found known
  by_cases same : id = cap.grant
  · rw [same, AList.lookup_insert] at known
    cases known
    exact same.symm
  · rw [AList.lookup_insert_ne same] at known
    exact filed id found known

theorem well_filed_authorize (resource : Resource) (rights : Rights) (limits : Limits)
    (aura : Executor) (filed : WellFiled aura) :
    WellFiled (finalState (authorize resource rights limits aura)) := by
  have moved := filed_grant aura.nextDraw PRINCIPAL resource rights limits aura.session filed.grants
  unfold authorize
  cases answered : grant aura.nextDraw PRINCIPAL resource rights limits aura.session with
  | ok cap session =>
      rw [answered] at moved
      exact ⟨moved, wallet_insert aura.held cap filed.wallet⟩
  | error error session =>
      rw [answered] at moved
      exact ⟨moved, filed.wallet⟩

theorem well_filed_grant_needs (limits : Limits) (needs : List Need) (aura : Executor)
    (filed : WellFiled aura) : WellFiled (finalState (grantNeeds limits needs aura)) := by
  induction needs generalizing aura with
  | nil => exact filed
  | cons need rest ih =>
      have moved := well_filed_authorize need.resource need.rights limits aura filed
      simp only [grantNeeds, bind_apply]
      cases answered : authorize need.resource need.rights limits aura with
      | error error later =>
          rw [answered] at moved
          exact moved
      | ok id later =>
          rw [answered] at moved
          have others := ih later moved
          dsimp only
          cases rested : grantNeeds limits rest later with
          | error error final =>
              rw [rested] at others
              exact others
          | ok ids final =>
              rw [rested] at others
              exact others

/-- Aura once it has been given a grant. -/
def Executor.approved (aura : Executor) (session : Session) : Executor :=
  { aura.advanced with
    session := session
    held := aura.held.insert aura.nextDraw.grantId ⟨aura.nextDraw.grantId, aura.nextDraw.secret⟩ }

/-- Granting a list of needs adds exactly these, or the first few when it fails. -/
theorem grant_needs_adds (limits : Limits) (needs : List Need) (aura : Executor) :
    (∃ ids later, grantNeeds limits needs aura = .ok ids later ∧
        GrantsAdded limits needs aura.session later.session) ∨
      ∃ error later granted, grantNeeds limits needs aura = .error error later ∧
        granted <+: needs ∧ GrantsAdded limits granted aura.session later.session := by
  induction needs generalizing aura with
  | nil => exact .inl ⟨[], aura, rfl, added_none limits aura.session⟩
  | cons need rest ih =>
      obtain ⟨session, answered, table⟩ | ⟨error, session, answered, table⟩ :=
        grant_outcome aura.nextDraw PRINCIPAL need.resource need.rights limits aura.session
      · -- the first need is granted; the others follow from there
        have authorized : authorize need.resource need.rights limits aura =
            .ok aura.nextDraw.grantId (aura.approved session) := by
          simp only [authorize, answered, Executor.approved]
        have further : ∀ granted later, GrantsAdded limits granted session later →
            GrantsAdded limits (need :: granted) aura.session later := by
          rintro granted later ⟨grants, same, terms, after⟩
          refine ⟨⟨aura.nextDraw.grantId, PRINCIPAL, need.resource, need.rights,
            aura.nextDraw.now, limits.expiresUnix, limits.maxUses⟩ :: grants, ?_, ?_, ?_⟩
          · rw [List.map_cons, same]
          · intro grant member
            rcases List.mem_cons.mp member with rfl | inRest
            · exact ⟨rfl, rfl, rfl⟩
            · exact terms grant inRest
          · rw [after, table, List.foldl_cons]
        obtain ⟨ids, later, granted, added⟩ | ⟨error, later, granted, failed, part, added⟩ :=
          ih (aura.approved session)
        · left
          refine ⟨aura.nextDraw.grantId :: ids, later, ?_, further rest later.session added⟩
          simp only [grantNeeds, bind_apply, authorized, granted, pure_apply]
        · right
          refine ⟨error, later, need :: granted, ?_, ?_, further granted later.session added⟩
          · simp only [grantNeeds, bind_apply, authorized, failed]
          · exact List.cons_prefix_cons.mpr ⟨rfl, part⟩
      · right
        refine ⟨.weave error, { aura.advanced with session }, [], ?_, List.nil_prefix, ?_⟩
        · simp only [grantNeeds, bind_apply, authorize, answered]
        · exact ⟨[], rfl, by simp, table⟩

/-! ## What a preview and a run leave alone -/

theorem need_statuses_draws (needs : List Need) (aura : Executor) :
    ∃ drawn, (needStatuses needs aura).2 = { aura with drawn } := by
  induction needs generalizing aura with
  | nil => exact ⟨aura.drawn, rfl⟩
  | cons need rest ih =>
      obtain ⟨drawn, later⟩ := ih aura.advanced
      exact ⟨drawn, later⟩

theorem preview_steps_draws (index : Nat) (steps : List Step) (aura : Executor) :
    ∃ drawn, (previewSteps index steps aura).2 = { aura with drawn } := by
  induction steps generalizing index aura with
  | nil => exact ⟨aura.drawn, rfl⟩
  | cons step rest ih =>
      have first : ∃ drawn, (previewStep index step aura).2 = { aura with drawn } := by
        unfold previewStep
        split
        · exact ⟨aura.drawn, rfl⟩
        · split
          · exact ⟨aura.drawn, rfl⟩
          case h_2 needs _ => exact need_statuses_draws needs aura
      obtain ⟨drawn, middle⟩ := first
      obtain ⟨last, later⟩ := ih (index + 1) (previewStep index step aura).2
      refine ⟨last, ?_⟩
      change (previewSteps (index + 1) rest (previewStep index step aura).2).2 = _
      rw [later, middle]

theorem preview_draws (plan : Plan) (aura : Executor) :
    ∃ drawn, (preview plan aura).2 = { aura with drawn } :=
  preview_steps_draws 0 plan.steps aura

theorem broker_needs_grants (asked : List Need) (aura : Executor) :
    grantsOf (brokerNeeds asked aura).2.session = grantsOf aura.session := by
  induction asked generalizing aura with
  | nil => rfl
  | cons need rest ih =>
      simp only [brokerNeeds]
      split
      · rfl
      case h_2 id cap found =>
        have moved := access_keeps_grants aura.advanced.nextDraw cap need.resource need.rights
          aura.session
        cases answered : access aura.advanced.nextDraw cap need.resource need.rights aura.session with
        | error error session =>
            rw [answered] at moved
            exact moved
        | ok lease session =>
            rw [answered] at moved
            exact (ih { aura.advanced.advanced with session }).trans moved

theorem run_step_grants (step : Step) (confirm : Bool) (aura : Executor) :
    grantsOf (runStep step confirm aura).2.session = grantsOf aura.session := by
  unfold runStep
  split
  · rfl
  · split
    · rfl
    · split
      · rfl
      case h_2 needs _ =>
        have kept := broker_needs_grants needs aura
        cases brokered : brokerNeeds needs aura with
        | mk leases middle =>
            rw [brokered] at kept
            cases leases with
            | none => exact kept
            | some leases =>
                dsimp only
                rw [(run_tool_session _ step.args leases middle).1]
                exact kept

theorem run_steps_grants (confirm : Bool) (index : Nat) (steps : List Step) (aura : Executor) :
    grantsOf (runSteps confirm index steps aura).2.session = grantsOf aura.session := by
  induction steps generalizing index aura with
  | nil => rfl
  | cons step rest ih =>
      exact (ih (index + 1) (runStep step confirm aura).2).trans (run_step_grants step confirm aura)

/-! ## Lives of an executor -/

/-- What can happen to Aura and to the broker it runs against. -/
inductive Act where
  | call (call : Call)
  | authorize (resource : Resource) (rights : Rights) (limits : Limits)
  | preview (plan : Plan)
  | grantMissing (preview : Preview) (limits : Limits)
  | execute (plan : Plan) (confirmDestructive : Bool)
  | approveAndExecute (plan : Plan) (limits : Limits)

def auraStep (aura : Executor) : Act → Executor
  | .call call =>
      { aura.advanced with session := finalState (perform aura.nextDraw call aura.session) }
  | .authorize resource rights limits => finalState (authorize resource rights limits aura)
  | .preview plan => (preview plan aura).2
  | .grantMissing preview limits => finalState (grantMissing preview limits aura)
  | .execute plan confirmDestructive => (execute plan confirmDestructive aura).2
  | .approveAndExecute plan limits => finalState (approveAndExecute plan limits aura)

theorem well_filed_preview (plan : Plan) (aura : Executor) (filed : WellFiled aura) :
    WellFiled (preview plan aura).2 := by
  obtain ⟨drawn, same⟩ := preview_draws plan aura
  rw [same]
  exact ⟨filed.grants, filed.wallet⟩

theorem well_filed_step (aura : Executor) (act : Act) (filed : WellFiled aura) :
    WellFiled (auraStep aura act) := by
  cases act with
  | call call => exact ⟨filed_perform aura.nextDraw call aura.session filed.grants, filed.wallet⟩
  | authorize resource rights limits => exact well_filed_authorize resource rights limits aura filed
  | preview plan => exact well_filed_preview plan aura filed
  | grantMissing preview limits => exact well_filed_grant_needs limits preview.missing aura filed
  | execute plan confirmDestructive =>
      exact (run_steps_reported confirmDestructive 0 plan.steps aura filed).2
  | approveAndExecute plan limits =>
      have kept := well_filed_grant_needs limits (preview plan aura).1.missing (preview plan aura).2
        (well_filed_preview plan aura filed)
      simp only [auraStep, approveAndExecute, grantMissing]
      cases answered : grantNeeds limits (preview plan aura).1.missing (preview plan aura).2 with
      | error error granted =>
          rw [answered] at kept
          exact kept
      | ok ids granted =>
          rw [answered] at kept
          exact (run_steps_reported true 0 plan.steps granted kept).2

/-- What an approved plan comes to: a report of lawful steps and grants of exactly what
the preview missed, or an error and grants of the first few of these. -/
def Approved (plan : Plan) (limits : Limits) (aura : Executor) :
    EStateM.Result Error Executor Report → Prop
  | .ok report final =>
      GrantsAdded limits (preview plan aura).1.missing aura.session final.session ∧
        ∃ granted, Reported true 0 plan.steps granted report.results final
  | .error _ final => ∃ granted, granted <+: (preview plan aura).1.missing ∧
      GrantsAdded limits granted aura.session final.session

theorem approve_and_execute_approved (plan : Plan) (limits : Limits) (aura : Executor)
    (filed : WellFiled aura) :
    Approved plan limits aura (approveAndExecute plan limits aura) := by
  have kept := well_filed_grant_needs limits (preview plan aura).1.missing (preview plan aura).2
    (well_filed_preview plan aura filed)
  obtain ⟨drawn, previewed⟩ := preview_draws plan aura
  have session : (preview plan aura).2.session = aura.session := by
    rw [previewed]
  obtain ⟨ids, granted, answered, added⟩ | ⟨error, later, granted, failed, part, added⟩ :=
    grant_needs_adds limits (preview plan aura).1.missing (preview plan aura).2
  · rw [session] at added
    rw [answered] at kept
    obtain ⟨reported, _⟩ := run_steps_reported true 0 plan.steps granted kept
    have outcome : approveAndExecute plan limits aura =
        .ok (execute plan true granted).1 (execute plan true granted).2 := by
      simp only [approveAndExecute, grantMissing, answered]
    rw [outcome]
    refine ⟨?_, granted, reported⟩
    obtain ⟨grants, same, terms, table⟩ := added
    refine ⟨grants, same, terms, ?_⟩
    rw [← table]
    exact run_steps_grants true 0 plan.steps granted
  · rw [session] at added
    have outcome : approveAndExecute plan limits aura = .error error later := by
      simp only [approveAndExecute, grantMissing, failed]
    rw [outcome]
    exact ⟨granted, part, added⟩

/-- An operating system on which every file operation succeeds. -/
def obligingOs : Os where
  currentDir := .ok [47]
  readDir _ _ := .ok []
  isDir _ _ := false
  read _ _ := .ok []
  rename _ _ _ := .ok ()
  removeFile _ _ := .ok ()

def standardCatalog : Catalog := .standard obligingOs fun _ _ => []

/-- Delete `/a`. -/
def deletePlan : Plan where
  intent := "drop a"
  steps := [⟨"delete_file", (∅ : Args).insert "path" "/a", ""⟩]

/-- Move `/a` to `/b`. -/
def movePlan : Plan where
  intent := "rename a"
  steps := [⟨"move_file", (∅ : Args).insert "src" "/a" |>.insert "dst" "/b", ""⟩]

/-- Aura with a fresh wallet on the sample broker. -/
def freshAura (device : Device) : Executor :=
  .withCatalog ⟨sampleBroker, device, []⟩ standardCatalog
    (fun turn => sampleDraw 10 (UInt8.ofNat turn)) 0 []

/-- Which steps of a plan ran, when there is a report. -/
def ranSteps : EStateM.Result Error Executor Report → Option (List Bool)
  | .ok report _ => some (report.results.map fun result => result.status.ran)
  | .error _ _ => none

theorem added_last (limits : Limits) (needs : List Need) (need : Need) (before after : Session)
    (added : GrantsAdded limits (needs ++ [need]) before after) :
    ∃ id grant, grantsOf after id = some grant ∧ grant.resource = need.resource := by
  obtain ⟨grants, same, _, table⟩ := added
  obtain ⟨first, last, rfl, _, lastSame⟩ := List.map_eq_append_iff.mp same
  obtain ⟨grant, rest, rfl, resource, none⟩ := List.map_eq_cons_iff.mp lastSame
  refine ⟨grant.id, grant, ?_, ?_⟩
  · rw [table, List.foldl_append, List.map_eq_nil_iff.mp none, List.foldl_cons, List.foldl_nil,
      withGrant, Function.update_self]
  · rw [← resource]

theorem grants_of_entry (session : Session) (id : GrantId) (grant : Grant)
    (found : grantsOf session id = some grant) :
    ∃ item ∈ session.broker.grants.entries, item.2.grant = grant := by
  obtain ⟨state, known, rfl⟩ := Option.map_eq_some_iff.mp found
  exact ⟨⟨id, state⟩, AList.mem_lookup_iff.mp known, rfl⟩

/-- The eleventh system call finds no space: the second grant is not logged. -/
def fillingDevice : Device :=
  { Device.fresh with faults := List.replicate 10 none ++ [some ⟨"no space", none⟩] }

end HorizonOs.Aura
