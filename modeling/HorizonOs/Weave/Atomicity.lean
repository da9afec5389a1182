import HorizonOs.Weave.Replay

/-!
# A failed log write

Grants and requests log first and change the table afterwards, so a log write
that fails leaves them as if they had not been tried. An admitted access counts
its use and a revocation sets its flag before they log, and neither is taken
back.
-/

namespace HorizonOs.Weave

open HorizonOs.Lib.ByteCodec HorizonOs.Lib.Text HorizonOs.Lib.Runs
open HorizonOs.Lifestream

set_option autoImplicit false

/-- The log write neither reads nor changes the table. -/
theorem log_with_grants (session : Session) (grants : GrantTable) (timeUnix : UInt64)
    (event : Event) :
    log timeUnix event (session.withGrants grants) =
      match log timeUnix event session with
      | .ok _ after => .ok () (after.withGrants grants)
      | .error error after => .error error (after.withGrants grants) := by
  simp only [log, Session.withGrants]
  cases append session.broker.ls session.broker.head session.broker.seq timeUnix event
      session.device with
  | error error device => rfl
  | ok id device =>
      dsimp only
      cases setRef auditRef id device <;> rfl

theorem failed_log_broker (session : Session) (timeUnix : UInt64) (event : Event) (error : Error)
    (after : Session) (failed : log timeUnix event session = .error error after) :
    after.broker = session.broker ∧ after.journal = session.journal := by
  obtain ⟨device, _, ⟨id, logged, _⟩ | ⟨_, ⟨other, left⟩, _⟩⟩ :=
    log_outcome session timeUnix event
  · rw [logged] at failed
    contradiction
  · rw [left] at failed
    cases failed
    exact ⟨rfl, rfl⟩

/-- A call whose log write fails answers with its error, and keeps what it did to
the table beforehand. -/
theorem failed_call (session : Session) (draw : Draw) (call : Call) (event : Event) (error : Error)
    (after : Session) (logs : eventOf session.broker draw call = some event)
    (failed : log draw.logNow event session = .error error after) :
    perform draw call session =
      .error error (after.withGrants (prepare session.broker draw call)) := by
  rw [perform_of_event session draw call event logs, log_with_grants, failed]

/-! ## The condition -/

/-- The call changes the table only once its event is logged: it is no admitted
access and no revocation. -/
def LogsFirst (broker : Broker) (draw : Draw) : Call → Prop
  | .access cap resource rights => refusal broker draw.now cap resource rights ≠ none
  | .revoke _ => False
  | _ => True

theorem used_ne (state : GrantState) : state.used ≠ state := by
  intro same
  have counts : state.uses + 1 = state.uses := congrArg GrantState.uses same
  have word : state.uses.toBitVec + 1 = state.uses.toBitVec := congrArg UInt32.toBitVec counts
  exact absurd word (by bv_omega)

theorem lookup_adjusted (grants : GrantTable) (id : GrantId) (change : GrantState → GrantState)
    (state : GrantState) (found : grants.lookup id = some state)
    (same : grants.adjust id change = grants) : change state = state := by
  have looked := lookup_adjust grants id id change
  rw [same, found, if_pos rfl] at looked
  exact (Option.some.inj looked).symm

/-- A call that logs leaves the table alone before it logs exactly under the
condition. -/
theorem prepare_same_iff (broker : Broker) (draw : Draw) (call : Call) (event : Event)
    (logs : eventOf broker draw call = some event) :
    prepare broker draw call = broker.grants ↔ LogsFirst broker draw call := by
  cases call with
  | grant principal resource rights limits => exact ⟨fun _ => trivial, fun _ => rfl⟩
  | request principal resource rights => exact ⟨fun _ => trivial, fun _ => rfl⟩
  | access cap resource rights =>
      constructor
      · intro same admitted
        obtain ⟨state, found, _⟩ := refusal_none broker draw.now cap resource rights admitted
        simp only [prepare, admitted] at same
        exact used_ne state (lookup_adjusted _ _ _ state found same)
      · intro refused
        cases reason : refusal broker draw.now cap resource rights with
        | none => exact absurd reason refused
        | some text => simp only [prepare, reason]
  | revoke id =>
      constructor
      · intro same
        obtain ⟨state, found, alive, _⟩ := revoke_known broker draw id event logs
        have flag := congrArg GrantState.revoked (lookup_adjusted _ _ _ state found same)
        rw [alive] at flag
        contradiction
      · exact False.elim
  | reissue id => contradiction
  | reload => contradiction

/-! ## Retries -/

/-- The session is as it was before the call, and the call made again on a disk
that has recovered performs it and logs its event. -/
structure Retryable (before failed : Session) (call : Call) : Prop where
  broker : failed.broker = before.broker
  journal : failed.journal = before.journal
  retry : ∀ (draw : Draw) (event : Event) (device : Device),
    eventOf before.broker draw call = some event → device.Healthy → event.Fits →
    ∃ (later : Device) (entry : AuditEntry), entry.event = event ∧
      later.refs.lookup auditRef = some (refText entry.id) ∧
      perform draw call { failed with device } =
        answerIn (verdict before.broker draw call)
          (settled { before with device } draw call later entry)

theorem retry_performs (session : Session) (draw : Draw) (call : Call) (event : Event)
    (logs : eventOf session.broker draw call = some event) (healthy : session.device.Healthy)
    (fits : event.Fits) :
    ∃ (later : Device) (entry : AuditEntry), entry.event = event ∧
      later.refs.lookup auditRef = some (refText entry.id) ∧
      perform draw call session =
        answerIn (verdict session.broker draw call) (settled session draw call later entry) := by
  obtain ⟨device, _, ⟨id, performed, pointed, _⟩ | ⟨faulty, _, _⟩⟩ :=
    logging_outcome session draw call event logs
  · exact ⟨device, _, rfl, pointed, performed⟩
  · exact absurd healthy.faults (faulty fits)

/-- After a revocation whose log write failed, the repeated call finds nothing left
to do: it succeeds and logs nothing. -/
theorem failed_revoke_unlogged (session : Session) (draw : Draw) (id : GrantId) (event : Event)
    (error : Error) (after : Session) (logs : eventOf session.broker draw (.revoke id) = some event)
    (failed : log draw.logNow event session = .error error after) (again : Draw)
    (device : Device) :
    ∃ left, perform draw (.revoke id) session = .error error left ∧
      perform again (.revoke id) { left with device } = .ok .done { left with device } := by
  refine ⟨_, failed_call session draw _ event error after logs failed, ?_⟩
  obtain ⟨state, found, _⟩ := revoke_known session.broker draw id event logs
  have flagged : (prepare session.broker draw (.revoke id)).lookup id = some state.withRevoked := by
    rw [prepare, lookup_adjust, if_pos rfl, found]
    rfl
  simp only [perform, revoke, bind_apply, get_apply, Session.withGrants, flagged,
    GrantState.withRevoked, if_true, pure_apply]

/-! ## A revocation that is never logged -/

/-- The sample broker has granted `/data`; the next write fails. -/
def faultySession : Session :=
  let session := run callStep ⟨sampleBroker, Device.fresh, []⟩ (sampleCalls.take 1)
  { session with device := { session.device with faults := [some ⟨"no space", none⟩] } }

def faultyRequest : Call := .request "app" (samplePath "/other") Rights.READ

def faultyRevoke : EStateM.Result Error Session Answer :=
  perform (sampleDraw 12 2) (.revoke (sampleId 1)) faultySession

end HorizonOs.Weave
