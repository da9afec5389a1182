import HorizonOs.Weave.AuditLaws
import HorizonOs.Weave.Broker

/-!
# What one call does

Each call either logs one event or none at all. A call that logs changes the
table by what it does before the log write, writes, and only then does the
rest; `perform_of_event` says so once for all calls, and the outcomes of the
log write itself are `log_outcome`.
-/

namespace HorizonOs.Weave

open HorizonOs.Lib.ByteCodec HorizonOs.Lib.Text HorizonOs.Lib.Runs
open HorizonOs.Lifestream

set_option autoImplicit false

/-! ## The event of a call -/

def grantEvent (draw : Draw) (principal : PrincipalId) (resource : Resource) (rights : Rights)
    (limits : Limits) : Event :=
  .grant draw.grantId principal resource rights limits.expiresUnix limits.maxUses

def grantState (draw : Draw) (principal : PrincipalId) (resource : Resource) (rights : Rights)
    (limits : Limits) : GrantState where
  grant := ⟨draw.grantId, principal, resource, rights, draw.now, limits.expiresUnix, limits.maxUses⟩
  revoked := false
  uses := 0
  secret := some draw.secret

/-- The event a call logs, when it logs one. -/
def eventOf (broker : Broker) (draw : Draw) : Call → Option Event
  | .grant principal resource rights limits =>
      some (grantEvent draw principal resource rights limits)
  | .request principal resource rights =>
      match broker.policy.decide principal resource rights with
      | some (granted, limits) => some (grantEvent draw principal resource granted limits)
      | none => some (.deny principal resource rights "policy")
  | .access cap resource rights =>
      match refusal broker draw.now cap resource rights with
      | none => some (.use cap.grant (principalOf broker cap.grant) resource rights)
      | some reason => some (.deny (principalOf broker cap.grant) resource rights reason)
  | .revoke id =>
      match broker.grants.lookup id with
      | none => none
      | some state => if state.revoked then none else some (.revoke id)
  | .reissue _ => none
  | .reload => none

/-- What the call does to the table before it logs. -/
def prepare (broker : Broker) (draw : Draw) : Call → GrantTable
  | .access cap resource rights =>
      match refusal broker draw.now cap resource rights with
      | none => broker.grants.adjust cap.grant GrantState.used
      | some _ => broker.grants
  | .revoke id => broker.grants.adjust id GrantState.withRevoked
  | _ => broker.grants

/-- What is left to do once the event is logged. -/
def settle (broker : Broker) (draw : Draw) (grants : GrantTable) : Call → GrantTable
  | .grant principal resource rights limits =>
      grants.insert draw.grantId (grantState draw principal resource rights limits)
  | .request principal resource rights =>
      match broker.policy.decide principal resource rights with
      | some (granted, limits) =>
          grants.insert draw.grantId (grantState draw principal resource granted limits)
      | none => grants
  | _ => grants

/-- What the caller is answered once the event is logged. -/
def verdict (broker : Broker) (draw : Draw) : Call → Except Error Answer
  | .grant _ _ _ _ => .ok (.capability ⟨draw.grantId, draw.secret⟩)
  | .request principal resource rights =>
      match broker.policy.decide principal resource rights with
      | some _ => .ok (.capability ⟨draw.grantId, draw.secret⟩)
      | none => .error (.denied "policy")
  | .access cap resource rights =>
      match refusal broker draw.now cap resource rights with
      | none => .ok (.lease ⟨cap.grant, resource, rights⟩)
      | some reason => .error (.denied reason)
  | _ => .ok .done

/-- A session whose table is replaced. -/
def Session.withGrants (session : Session) (grants : GrantTable) : Session :=
  { session with broker := { session.broker with grants } }

@[simp] theorem with_grants_self (session : Session) :
    session.withGrants session.broker.grants = session := rfl

/-- An answer or an error, with the session it leaves. -/
def answerIn (answer : Except Error Answer) (session : Session) :
    EStateM.Result Error Session Answer :=
  match answer with
  | .ok value => .ok value session
  | .error error => .error error session

@[simp] theorem final_answer (answer : Except Error Answer) (session : Session) :
    finalState (answerIn answer session) = session := by
  cases answer <;> rfl

/-- A call that logs: its table change, the log write, the rest of its change
and its answer. -/
theorem perform_of_event (session : Session) (draw : Draw) (call : Call) (event : Event)
    (logs : eventOf session.broker draw call = some event) :
    perform draw call session =
      match log draw.logNow event (session.withGrants (prepare session.broker draw call)) with
      | .ok _ after =>
          answerIn (verdict session.broker draw call)
            (after.withGrants (settle session.broker draw after.broker.grants call))
      | .error error after => .error error after := by
  cases call with
  | grant principal resource rights limits =>
      cases logs
      simp only [perform, grant, bind_apply, prepare, grantEvent, with_grants_self]
      cases log draw.logNow _ session <;> rfl
  | request principal resource rights =>
      cases decided : session.broker.policy.decide principal resource rights with
      | none =>
          simp only [eventOf, decided] at logs
          cases logs
          simp only [perform, request, bind_apply, get_apply, decided, prepare,
            with_grants_self, settle, verdict]
          cases log draw.logNow _ session <;> rfl
      | some decision =>
          simp only [eventOf, decided] at logs
          cases logs
          simp only [perform, request, grant, bind_apply, get_apply, decided, prepare, grantEvent,
            with_grants_self, settle, verdict]
          cases log draw.logNow _ session <;> rfl
  | access cap resource rights =>
      cases refused : refusal session.broker draw.now cap resource rights with
      | none =>
          simp only [eventOf, refused] at logs
          cases logs
          simp only [perform, access, bind_apply, get_apply, refused, prepare, updateGrants,
            Session.withGrants, settle, verdict]
          cases log draw.logNow _ _ <;> rfl
      | some reason =>
          simp only [eventOf, refused] at logs
          cases logs
          simp only [perform, access, bind_apply, get_apply, refused, prepare,
            with_grants_self, settle, verdict]
          cases log draw.logNow _ session <;> rfl
  | revoke id =>
      cases found : session.broker.grants.lookup id with
      | none =>
          simp only [eventOf, found] at logs
          contradiction
      | some state =>
          cases already : state.revoked with
          | true => simp [eventOf, found, already] at logs
          | false =>
              simp only [eventOf, found, already] at logs
              cases logs
              simp only [perform, revoke, bind_apply, get_apply, found, already, prepare,
                updateGrants, Session.withGrants, Bool.false_eq_true, if_false]
              cases log draw.logNow _ _ <;> rfl
  | reissue id => contradiction
  | reload => contradiction

/-! ## What an answer tells -/

/-- What a call answers, the session it leaves set aside. -/
def outcomeOf {α : Type} : EStateM.Result Error Session α → Except Error α
  | .ok value _ => .ok value
  | .error error _ => .error error

theorem ok_of_outcome {α : Type} (result : EStateM.Result Error Session α) (value : α)
    (outcome : outcomeOf result = .ok value) : ∃ after, result = .ok value after := by
  cases result with
  | ok other after =>
      cases outcome
      exact ⟨after, rfl⟩
  | error error after => contradiction

theorem error_of_outcome {α : Type} (result : EStateM.Result Error Session α) (error : Error)
    (outcome : outcomeOf result = .error error) : result = .error error (finalState result) := by
  cases result with
  | ok value after => contradiction
  | error other after =>
      cases outcome
      rfl

/-- The grant a call has just revoked, or found revoked. -/
def revokedBy (call : Call) (result : EStateM.Result Error Session Answer) : List GrantId :=
  match call, result with
  | .revoke id, .ok _ _ => [id]
  | _, _ => []

/-- A revocation that logs finds its grant unrevoked. -/
theorem revoke_known (broker : Broker) (draw : Draw) (id : GrantId) (event : Event)
    (logs : eventOf broker draw (.revoke id) = some event) :
    ∃ state, broker.grants.lookup id = some state ∧ state.revoked = false ∧
      event = .revoke id := by
  cases found : broker.grants.lookup id with
  | none =>
      simp only [eventOf, found] at logs
      contradiction
  | some state =>
      cases already : state.revoked with
      | true => simp [eventOf, found, already] at logs
      | false =>
          simp only [eventOf, found, already, Bool.false_eq_true, if_false] at logs
          exact ⟨state, rfl, already, (Option.some.inj logs).symm⟩

/-- A revocation answered with success either logs or finds the grant revoked. -/
theorem revoke_answered (session : Session) (draw : Draw) (id : GrantId) (answer : Answer)
    (after : Session) (answered : perform draw (.revoke id) session = .ok answer after) :
    eventOf session.broker draw (.revoke id) = some (.revoke id) ∨
      ∃ state, session.broker.grants.lookup id = some state ∧ state.revoked = true := by
  cases found : session.broker.grants.lookup id with
  | none =>
      simp only [perform, revoke, bind_apply, get_apply, found, throw_apply] at answered
      contradiction
  | some state =>
      cases already : state.revoked with
      | true => exact .inr ⟨state, rfl, already⟩
      | false =>
          left
          simp only [eventOf, found, already, Bool.false_eq_true, if_false]

/-- What the broker has checked when it refuses nothing. -/
theorem refusal_none (broker : Broker) (now : UInt64) (cap : Capability) (resource : Resource)
    (rights : Rights) (admitted : refusal broker now cap resource rights = none) :
    ∃ state, broker.grants.lookup cap.grant = some state ∧ state.secret = some cap.secret ∧
      state.revoked = false ∧ expired now state.grant.expiresUnix = false ∧
      spent state.uses state.grant.maxUses = false ∧
      state.grant.resource.covers resource = true ∧
      state.grant.rights.contains rights = true := by
  cases found : broker.grants.lookup cap.grant with
  | none => simp [refusal, found] at admitted
  | some state =>
      simp only [refusal, found] at admitted
      grind

/-- A lease is for exactly what was asked, by a handle the broker admits. -/
theorem access_admitted (session after : Session) (draw : Draw) (cap : Capability)
    (resource : Resource) (rights : Rights) (lease : Lease)
    (answered : access draw cap resource rights session = .ok lease after) :
    refusal session.broker draw.now cap resource rights = none ∧
      lease = ⟨cap.grant, resource, rights⟩ := by
  cases refused : refusal session.broker draw.now cap resource rights with
  | none =>
      refine ⟨rfl, ?_⟩
      simp only [access, bind_apply, get_apply, refused, updateGrants] at answered
      split at answered
      · cases answered
        rfl
      · contradiction
  | some reason =>
      simp only [access, bind_apply, get_apply, refused] at answered
      split at answered <;> contradiction

/-! ## Calls that log nothing -/

/-- Whether the call only rereads the log. -/
def Call.isReload : Call → Bool
  | .reload => true
  | _ => false

/-- A call that logs nothing and does not reload changes nothing but handles: it
leaves the disk, the journal and the head alone, and mints only what it puts into
the table. -/
theorem perform_silent (session : Session) (draw : Draw) (call : Call)
    (silent : eventOf session.broker draw call = none) (rereads : call.isReload = false) :
    ∃ grants, finalState (perform draw call session) = session.withGrants grants ∧
      (grants = session.broker.grants ∧
          (∀ cap after, perform draw call session ≠ .ok (.capability cap) after) ∨
        ∃ id, call = .reissue id ∧ perform draw call session =
            .ok (.capability ⟨id, draw.secret⟩) (session.withGrants grants) ∧
          grants = session.broker.grants.adjust id fun state =>
            { state with secret := some draw.secret }) := by
  have refused : ∀ error, perform draw call session = .error error session →
      finalState (perform draw call session) = session.withGrants session.broker.grants ∧
        ∀ cap after, perform draw call session ≠ .ok (.capability cap) after := by
    intro error failed
    rw [failed]
    exact ⟨rfl, fun cap after answered => by cases answered⟩
  cases call with
  | grant principal resource rights limits => contradiction
  | request principal resource rights =>
      simp only [eventOf] at silent
      split at silent <;> contradiction
  | access cap resource rights =>
      simp only [eventOf] at silent
      split at silent <;> contradiction
  | revoke id =>
      cases found : session.broker.grants.lookup id with
      | none =>
          obtain ⟨left, unminted⟩ := refused (.denied "no such grant") (by
            simp only [perform, revoke, bind_apply, get_apply, found, throw_apply])
          exact ⟨_, left, .inl ⟨rfl, unminted⟩⟩
      | some state =>
          cases already : state.revoked with
          | false => simp [eventOf, found, already] at silent
          | true =>
              have done : perform draw (.revoke id) session = .ok .done session := by
                simp only [perform, revoke, bind_apply, get_apply, found, already, if_true,
                  pure_apply]
              refine ⟨session.broker.grants, ?_, .inl ⟨rfl, ?_⟩⟩
              · rw [done]
                rfl
              · rw [done]
                intro cap after answered
                cases answered
  | reissue id =>
      cases found : session.broker.grants.lookup id with
      | none =>
          obtain ⟨left, unminted⟩ := refused (.denied "no such grant") (by
            simp only [perform, reissue, bind_apply, get_apply, found, throw_apply])
          exact ⟨_, left, .inl ⟨rfl, unminted⟩⟩
      | some state =>
          cases revoked : state.revoked with
          | true =>
              obtain ⟨left, unminted⟩ := refused (.denied "revoked") (by
                simp only [perform, reissue, bind_apply, get_apply, found, revoked, if_true,
                  throw_apply])
              exact ⟨_, left, .inl ⟨rfl, unminted⟩⟩
          | false =>
              cases late : expired draw.now state.grant.expiresUnix with
              | true =>
                  obtain ⟨left, unminted⟩ := refused (.denied "expired") (by
                    simp only [perform, reissue, bind_apply, get_apply, found, revoked, late,
                      Bool.false_eq_true, if_false, if_true, throw_apply])
                  exact ⟨_, left, .inl ⟨rfl, unminted⟩⟩
              | false =>
                  have minted : perform draw (.reissue id) session =
                      .ok (.capability ⟨id, draw.secret⟩) (session.withGrants
                        (session.broker.grants.adjust id fun state =>
                          { state with secret := some draw.secret })) := by
                    simp only [perform, reissue, bind_apply, get_apply, found, revoked, late,
                      Bool.false_eq_true, if_false, updateGrants]
                    rfl
                  exact ⟨_, by rw [minted, final_state_ok], .inr ⟨id, rfl, minted, rfl⟩⟩
  | reload => contradiction

/-! ## Logging -/

/-- What a log write leaves behind: an entry linked onto the broker's chain with
the shared ref at it, or a fault's error, the broker as it was and a ref that
still reads as before or not at all. -/
theorem log_outcome (session : Session) (timeUnix : UInt64) (event : Event) :
    ∃ device, Grows session.broker.ls.store session.device device ∧
      ((∃ id, log timeUnix event session = .ok ()
            (session.logged device { id, seq := session.broker.seq, timeUnix, event }) ∧
          device.refs.lookup auditRef = some (refText id) ∧
          (event.Fits → ∀ entries,
            Linked session.broker.ls session.device session.broker.head entries →
            Linked session.broker.ls device (some id)
              ({ id, seq := session.broker.seq, timeUnix, event } :: entries))) ∨
        ((event.Fits → session.device.faults ≠ []) ∧
          (∃ error, log timeUnix event session =
            .error (.lifestream error) { session with device }) ∧
          (device.refs.lookup auditRef = session.device.refs.lookup auditRef ∨
            ∃ content, device.refs.lookup auditRef = some content ∧ content.length < 64))) := by
  set broker := session.broker with brokerDef
  have advances := advances_append broker.ls broker.head broker.seq timeUnix event session.device
  cases appended : append broker.ls broker.head broker.seq timeUnix event session.device with
  | error error device =>
      simp only [appended, final_state_error] at advances
      refine ⟨device, advances.toGrows, .inr ⟨?_, ⟨error, ?_⟩, .inl ?_⟩⟩
      · intro fits faultless
        have size := encode_payload_length broker.seq timeUnix event fits
        obtain ⟨id, after, success⟩ := append_succeeds broker.ls broker.head broker.seq timeUnix
          event (by omega) session.device faultless
        rw [appended] at success
        contradiction
      · simp only [log, ← brokerDef, appended]
      · rw [advances.refs]
  | ok id middle =>
      simp only [appended, final_state_ok] at advances
      obtain ⟨device, grows, _, _, _, ⟨pointed, text⟩ | ⟨faulty, message, failed, content⟩⟩ :=
        set_ref_outcome broker.ls.store auditRef id middle
      · refine ⟨device, advances.toGrows.trans grows, .inl ⟨id, ?_, text, ?_⟩⟩
        · simp only [log, ← brokerDef, appended, pointed]
        · intro fits entries linked
          exact (append_links broker.ls broker.head broker.seq timeUnix event fits _ middle id
            entries linked appended).grow grows.toKeeps
      · refine ⟨device, advances.toGrows.trans grows, .inr ⟨?_, ⟨.io message, ?_⟩, ?_⟩⟩
        · exact fun _ faultless => faulty (advances.faults faultless)
        · simp only [log, ← brokerDef, appended, failed]
        · rw [← advances.refs]
          exact content

/-- The session a logging call ends in, once its entry is written. -/
def settled (session : Session) (draw : Draw) (call : Call) (device : Device)
    (entry : AuditEntry) : Session :=
  ((session.withGrants (prepare session.broker draw call)).logged device entry).withGrants
    (settle session.broker draw (prepare session.broker draw call) call)

/-- A call that logs either ends with its entry on the chain, or answers with the
error of the log write and keeps what it did to the table beforehand. -/
theorem logging_outcome (session : Session) (draw : Draw) (call : Call) (event : Event)
    (logs : eventOf session.broker draw call = some event) :
    ∃ device, Grows session.broker.ls.store session.device device ∧
      ((∃ id, perform draw call session = answerIn (verdict session.broker draw call)
            (settled session draw call device ⟨id, session.broker.seq, draw.logNow, event⟩) ∧
          device.refs.lookup auditRef = some (refText id) ∧
          (event.Fits → ∀ entries,
            Linked session.broker.ls session.device session.broker.head entries →
            Linked session.broker.ls device (some id)
              (⟨id, session.broker.seq, draw.logNow, event⟩ :: entries))) ∨
        ((event.Fits → session.device.faults ≠ []) ∧
          (∃ error, perform draw call session = .error (.lifestream error)
            { session.withGrants (prepare session.broker draw call) with device }) ∧
          (device.refs.lookup auditRef = session.device.refs.lookup auditRef ∨
            ∃ content, device.refs.lookup auditRef = some content ∧ content.length < 64))) := by
  obtain ⟨device, grows, ⟨id, logged, pointed, linked⟩ | ⟨faulty, ⟨error, failed⟩, named⟩⟩ :=
    log_outcome (session.withGrants (prepare session.broker draw call)) draw.logNow event
  · refine ⟨device, grows, .inl ⟨id, ?_, pointed, linked⟩⟩
    rw [perform_of_event session draw call event logs, logged]
    rfl
  · refine ⟨device, grows, .inr ⟨faulty, ⟨error, ?_⟩, named⟩⟩
    rw [perform_of_event session draw call event logs, failed]

/-! ## Frames -/

/-- Whatever a call does, the store stays the same one and its disk only grows. -/
structure SessionGrows (before after : Session) : Prop where
  ls : after.broker.ls = before.broker.ls
  device : Grows before.broker.ls.store before.device after.device

theorem SessionGrows.refl (session : Session) : SessionGrows session session :=
  ⟨rfl, Grows.refl _ _⟩

theorem SessionGrows.trans (first second third : Session) (left : SessionGrows first second)
    (right : SessionGrows second third) : SessionGrows first third where
  ls := right.ls.trans left.ls
  device := left.device.trans (left.ls ▸ right.device)

theorem reload_ls {broker later : Broker} {device : Device} {changed : Bool}
    (reloaded : broker.reload device = .ok (later, changed)) : later.ls = broker.ls := by
  obtain ⟨head, _, rest⟩ := of_bind_ok reloaded
  split at rest
  · cases rest
    rfl
  · obtain ⟨table, _, ended⟩ := of_bind_ok rest
    cases ended
    rfl

/-- What a reload answers and leaves: the broker with the head, table and count
of the log it read. -/
theorem reload_outcome (session : Session) (draw : Draw) :
    (∃ error, perform draw .reload session = .error error session) ∨
      ∃ broker changed, session.broker.reload session.device = .ok (broker, changed) ∧
        broker.ls = session.broker.ls ∧
        perform draw .reload session = .ok (.reloaded changed) { session with broker } := by
  cases outcome : session.broker.reload session.device with
  | error error =>
      left
      exact ⟨error, by simp only [perform, bind_apply, reloadCall, outcome]⟩
  | ok result =>
      right
      refine ⟨result.1, result.2, rfl, ?_, ?_⟩
      · exact reload_ls outcome
      · simp only [perform, bind_apply, reloadCall, outcome]
        rfl

theorem perform_grows (session : Session) (draw : Draw) (call : Call) :
    SessionGrows session (finalState (perform draw call session)) := by
  cases logs : eventOf session.broker draw call with
  | some event =>
      obtain ⟨device, grows, ⟨id, performed, _⟩ | ⟨_, ⟨error, performed⟩, _⟩⟩ :=
        logging_outcome session draw call event logs
      · rw [performed, final_answer]
        exact ⟨rfl, grows⟩
      · rw [performed]
        exact ⟨rfl, grows⟩
  | none =>
      cases rereads : call.isReload with
      | false =>
          obtain ⟨grants, left, _⟩ := perform_silent session draw call logs rereads
          rw [left]
          exact ⟨rfl, Grows.refl _ _⟩
      | true =>
          cases call with
          | reload =>
              obtain ⟨error, left⟩ | ⟨broker, changed, _, same, left⟩ :=
                reload_outcome session draw
              · rw [left]
                exact SessionGrows.refl session
              · rw [left]
                exact ⟨same, Grows.refl _ _⟩
          | _ => contradiction

end HorizonOs.Weave
