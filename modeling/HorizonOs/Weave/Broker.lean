import HorizonOs.Weave.Audit

/-!
# The broker

The gate to every resource: a grant table rebuilt from the audit log, and the
calls that read and change it. A call runs on a session: the broker, the disk
its store lies on, and the journal of the entries it logged successfully.
-/

namespace HorizonOs.Weave

open HorizonOs.Lib.ByteCodec HorizonOs.Lib.Text HorizonOs.Lib.Runs
open HorizonOs.Lifestream

set_option autoImplicit false

/-! ## Policy -/

/-- A single allow rule; no principal means any. -/
structure Rule where
  principal : Option PrincipalId
  resource : Resource
  rights : Rights
  limits : Limits
  deriving DecidableEq

inductive Policy where
  | allowAll
  | denyAll
  | rules (rules : List Rule)
  deriving DecidableEq

def Rule.allows (rule : Rule) (principal : PrincipalId) (resource : Resource) (rights : Rights) :
    Bool :=
  (match rule.principal with
    | none => true
    | some named => named = principal) &&
  rule.resource.covers resource && rule.rights.contains rights

def Policy.decide : Policy → PrincipalId → Resource → Rights → Option (Rights × Limits)
  | .allowAll, _, _, rights => some (rights, Limits.none)
  | .denyAll, _, _, _ => none
  | .rules list, principal, resource, rights =>
      list.findSome? fun rule =>
        if rule.allows principal resource rights then some (rights, rule.limits) else none

/-! ## State -/

/-- One grant in memory; the secret is absent after a replay. -/
structure GrantState where
  grant : Grant
  revoked : Bool
  uses : UInt32
  secret : Option Secret
  deriving DecidableEq

abbrev GrantTable := AList fun _ : GrantId => GrantState

structure Broker where
  ls : Lifestream
  policy : Policy
  head : Option ObjectId
  seq : UInt64
  grants : GrantTable

/-- A broker at work on a disk. The journal is a history variable. -/
structure Session where
  broker : Broker
  device : Device
  journal : List AuditEntry

abbrev BrokerM := EStateM Error Session

/-- What one call draws from the clock and the random source. -/
structure Draw where
  now : UInt64
  /-- The clock once more, when the entry is logged. -/
  logNow : UInt64
  grantId : GrantId
  secret : Secret
  deriving DecidableEq

def auditRef : String := "weave-audit"

/-! ## Replay -/

/-- `HashMap::get_mut`: the entry is changed where it is. -/
def GrantTable.adjust (grants : GrantTable) (id : GrantId) (change : GrantState → GrantState) :
    GrantTable :=
  match grants.lookup id with
  | some state => grants.replace id (change state)
  | none => grants

def GrantState.used (state : GrantState) : GrantState := { state with uses := state.uses + 1 }

def GrantState.withRevoked (state : GrantState) : GrantState := { state with revoked := true }

/-- One step of the fold that rebuilds the table from the log. -/
def applyEntry (grants : GrantTable) (entry : AuditEntry) : GrantTable :=
  match entry.event with
  | .grant id principal resource rights expiresUnix maxUses =>
      grants.insert id
        { grant := ⟨id, principal, resource, rights, entry.timeUnix, expiresUnix, maxUses⟩
          revoked := false
          uses := 0
          secret := none }
  | .use id _ _ _ => grants.adjust id GrantState.used
  | .revoke id => grants.adjust id GrantState.withRevoked
  | .deny _ _ _ _ => grants

def tableOf (entries : List AuditEntry) : GrantTable := entries.foldl applyEntry ∅

def chainFrom (ls : Lifestream) (device : Device) : Option ObjectId →
    Except Error (List AuditEntry)
  | some head => readChain ls device head
  | none => .ok []

def replay (ls : Lifestream) (device : Device) (head : Option ObjectId) :
    Except Error (GrantTable × UInt64) := do
  let entries ← chainFrom ls device head
  .ok (tableOf entries, UInt64.ofNat entries.length)

/-- `Broker::open`. -/
def openBroker (ls : Lifestream) (policy : Policy) (device : Device) : Except Error Broker := do
  let head ← fromLifestream (device.getRef auditRef)
  let (grants, seq) ← replay ls device head
  .ok { ls, policy, head, seq, grants }

/-- `Broker::reload`: whether the log changed since the broker last looked. -/
def Broker.reload (broker : Broker) (device : Device) : Except Error (Broker × Bool) := do
  let head ← fromLifestream (device.getRef auditRef)
  if head = broker.head then .ok (broker, false)
  else do
    let (grants, seq) ← replay broker.ls device head
    .ok ({ broker with head, seq, grants }, true)

/-! ## Logging -/

/-- The session after a log write that went through. -/
def Session.logged (session : Session) (device : Device) (entry : AuditEntry) : Session where
  broker := { session.broker with head := some entry.id, seq := session.broker.seq + 1 }
  device := device
  journal := session.journal ++ [entry]

/-- Append the event to the chain the broker knows, then point the shared ref
at it. -/
def log (timeUnix : UInt64) (event : Event) : BrokerM Unit := fun session =>
  let broker := session.broker
  match append broker.ls broker.head broker.seq timeUnix event session.device with
  | .error error device => .error (.lifestream error) { session with device }
  | .ok id device =>
      match setRef auditRef id device with
      | .error error device => .error (.lifestream error) { session with device }
      | .ok _ device => .ok () (session.logged device { id, seq := broker.seq, timeUnix, event })

/-! ## Calls -/

def updateGrants (change : GrantTable → GrantTable) : BrokerM Unit := fun session =>
  .ok () { session with broker := { session.broker with grants := change session.broker.grants } }

/-- Issue a capability directly. -/
def grant (draw : Draw) (principal : PrincipalId) (resource : Resource) (rights : Rights)
    (limits : Limits) : BrokerM Capability := do
  let id := draw.grantId
  log draw.logNow (.grant id principal resource rights limits.expiresUnix limits.maxUses)
  updateGrants fun grants => grants.insert id
    { grant := ⟨id, principal, resource, rights, draw.now, limits.expiresUnix, limits.maxUses⟩
      revoked := false
      uses := 0
      secret := some draw.secret }
  pure ⟨id, draw.secret⟩

/-- A principal asks for access and the policy decides. -/
def request (draw : Draw) (principal : PrincipalId) (resource : Resource) (rights : Rights) :
    BrokerM Capability := do
  let session ← get
  match session.broker.policy.decide principal resource rights with
  | some (granted, limits) => grant draw principal resource granted limits
  | none => do
      log draw.logNow (.deny principal resource rights "policy")
      throw (.denied "policy")

/-- Whether a time lies at or after an expiry. -/
def expired (now : UInt64) : Option UInt64 → Bool
  | some expiry => expiry ≤ now
  | none => false

def spent (uses : UInt32) : Option UInt32 → Bool
  | some limit => limit ≤ uses
  | none => false

/-- The reason `Broker::check` refuses for, if it does. -/
def refusal (broker : Broker) (now : UInt64) (cap : Capability) (resource : Resource)
    (rights : Rights) : Option String :=
  match broker.grants.lookup cap.grant with
  | none => some "no such grant"
  | some state =>
      if state.secret ≠ some cap.secret then some "forged handle"
      else if state.revoked then some "revoked"
      else if expired now state.grant.expiresUnix then some "expired"
      else if spent state.uses state.grant.maxUses then some "use limit reached"
      else if !state.grant.resource.covers resource then some "out of scope"
      else if !state.grant.rights.contains rights then some "insufficient rights"
      else none

def principalOf (broker : Broker) (id : GrantId) : PrincipalId :=
  match broker.grants.lookup id with
  | some state => state.grant.principal
  | none => "unknown"

/-- Exercise a capability: a success logs a use and returns a lease, a failure
logs a denial and returns the reason. -/
def access (draw : Draw) (cap : Capability) (resource : Resource) (rights : Rights) :
    BrokerM Lease := do
  let session ← get
  let principal := principalOf session.broker cap.grant
  match refusal session.broker draw.now cap resource rights with
  | none => do
      -- the use is counted before it is logged
      updateGrants fun grants => grants.adjust cap.grant GrantState.used
      log draw.logNow (.use cap.grant principal resource rights)
      pure ⟨cap.grant, resource, rights⟩
  | some reason => do
      log draw.logNow (.deny principal resource rights reason)
      throw (.denied reason)

/-- Revoke a grant; one that is revoked already is left alone, unlogged. -/
def revoke (draw : Draw) (id : GrantId) : BrokerM Unit := do
  let session ← get
  match session.broker.grants.lookup id with
  | none => throw (.denied "no such grant")
  | some state =>
      if state.revoked then pure ()
      else do
        -- the flag is set before the revocation is logged
        updateGrants fun grants => grants.adjust id GrantState.withRevoked
        log draw.logNow (.revoke id)

/-- Mint a fresh handle for a grant that is still live. -/
def reissue (draw : Draw) (id : GrantId) : BrokerM Capability := do
  let session ← get
  match session.broker.grants.lookup id with
  | none => throw (.denied "no such grant")
  | some state =>
      if state.revoked then throw (.denied "revoked")
      else if expired draw.now state.grant.expiresUnix then throw (.denied "expired")
      else do
        updateGrants fun grants => grants.adjust id fun state =>
          { state with secret := some draw.secret }
        pure ⟨id, draw.secret⟩

/-- `reload` as a call on a session. -/
def reloadCall : BrokerM Bool := fun session =>
  match session.broker.reload session.device with
  | .ok (broker, changed) => .ok changed { session with broker }
  | .error error => .error error session

/-! ## Views -/

def GrantState.status (state : GrantState) (now : UInt64) : Status :=
  if state.revoked then .revoked
  else if expired now state.grant.expiresUnix then .expired
  else .active

def GrantState.info (state : GrantState) (now : UInt64) : GrantInfo where
  id := state.grant.id
  principal := state.grant.principal
  resource := state.grant.resource
  rights := state.grant.rights
  grantedUnix := state.grant.grantedUnix
  expiresUnix := state.grant.expiresUnix
  maxUses := state.grant.maxUses
  uses := state.uses
  status := state.status now

/-- Every grant the broker knows, newest last. The table is walked in no
particular order, here its own. -/
def Broker.grantInfos (broker : Broker) (now : UInt64) : List GrantInfo :=
  (broker.grants.entries.map fun item => item.2.info now).mergeSort
    fun left right => left.grantedUnix ≤ right.grantedUnix

/-- The full audit log, oldest first. -/
def Broker.audit (broker : Broker) (device : Device) : Except Error (List AuditEntry) :=
  chainFrom broker.ls device broker.head

def firstGap : Nat → List AuditEntry → Option (Nat × UInt64)
  | _, [] => none
  | position, entry :: rest =>
      if entry.seq ≠ UInt64.ofNat position then some (position, entry.seq)
      else firstGap (position + 1) rest

/-- Confirm that the chain is intact and contiguous. -/
def Broker.verify (broker : Broker) (device : Device) : Except Error Nat := do
  let entries ← broker.audit device
  match firstGap 0 entries with
  | some (position, seq) =>
      .error (.corrupt s!"audit seq gap at position {position}: entry says {seq}")
  | none => .ok entries.length

/-! ## Calls as data -/

/-- The calls of a broker that change it or its store. -/
inductive Call where
  | grant (principal : PrincipalId) (resource : Resource) (rights : Rights) (limits : Limits)
  | request (principal : PrincipalId) (resource : Resource) (rights : Rights)
  | access (cap : Capability) (resource : Resource) (rights : Rights)
  | revoke (id : GrantId)
  | reissue (id : GrantId)
  | reload
  deriving DecidableEq

inductive Answer where
  | capability (cap : Capability)
  | lease (lease : Lease)
  | done
  | reloaded (changed : Bool)
  deriving DecidableEq

def perform (draw : Draw) : Call → BrokerM Answer
  | .grant principal resource rights limits => do
      let cap ← grant draw principal resource rights limits
      pure (.capability cap)
  | .request principal resource rights => do
      let cap ← request draw principal resource rights
      pure (.capability cap)
  | .access cap resource rights => do
      let lease ← access draw cap resource rights
      pure (.lease lease)
  | .revoke id => do
      revoke draw id
      pure .done
  | .reissue id => do
      let cap ← reissue draw id
      pure (.capability cap)
  | .reload => do
      let changed ← reloadCall
      pure (.reloaded changed)

end HorizonOs.Weave
