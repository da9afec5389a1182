import HorizonOs.Weave.Lifetime

/-!
# What a policy of rules lets happen

A broker whose grants are all decided by its rules keeps every access within
one of them: the grant lies within the rule that allowed it, the log gives the
grant back as it was decided, and what a grant covers its rule covers too.
-/

namespace HorizonOs.Weave

open HorizonOs.Lib.ByteCodec HorizonOs.Lib.Text HorizonOs.Lib.Runs
open HorizonOs.Lifestream

set_option autoImplicit false

/-! ## Rules and grants -/

/-- Some rule allows this grant, until the time at which it expires. -/
def Sanctioned (rules : List Rule) (principal : PrincipalId) (resource : Resource)
    (rights : Rights) (expiresUnix : Option UInt64) : Prop :=
  ∃ rule ∈ rules, rule.allows principal resource rights = true ∧
    rule.limits.expiresUnix = expiresUnix

instance (rules : List Rule) (principal : PrincipalId) (resource : Resource) (rights : Rights)
    (expiresUnix : Option UInt64) :
    Decidable (Sanctioned rules principal resource rights expiresUnix) :=
  inferInstanceAs (Decidable (∃ rule ∈ rules, _))

/-- What an access exercises lies within a rule that has not expired. -/
def WithinRules (rules : List Rule) (now : UInt64) (principal : PrincipalId)
    (resource : Resource) (rights : Rights) : Prop :=
  ∃ rule ∈ rules, (rule.principal = none ∨ rule.principal = some principal) ∧
    rule.resource.covers resource = true ∧ rule.rights.contains rights = true ∧
    ∀ expiry ∈ rule.limits.expiresUnix, now < expiry

instance (rules : List Rule) (now : UInt64) (principal : PrincipalId) (resource : Resource)
    (rights : Rights) : Decidable (WithinRules rules now principal resource rights) :=
  inferInstanceAs (Decidable (∃ rule ∈ rules, _ ∧ _ ∧ _ ∧ ∀ expiry ∈ rule.limits.expiresUnix, _))

theorem rule_allows_iff (rule : Rule) (principal : PrincipalId) (resource : Resource)
    (rights : Rights) : rule.allows principal resource rights = true ↔
      (rule.principal = none ∨ rule.principal = some principal) ∧
        rule.resource.covers resource = true ∧ rule.rights.contains rights = true := by
  cases named : rule.principal with
  | none => simp [Rule.allows, named]
  | some other => simp [Rule.allows, named, and_assoc]

/-- What a policy of rules grants is what was asked, within the rule it found. -/
theorem decide_sanctioned (rules : List Rule) (principal : PrincipalId) (resource : Resource)
    (rights granted : Rights) (limits : Limits)
    (decided : (Policy.rules rules).decide principal resource rights = some (granted, limits)) :
    granted = rights ∧ Sanctioned rules principal resource granted limits.expiresUnix := by
  obtain ⟨rule, member, found⟩ := List.exists_of_findSome?_eq_some decided
  split at found
  · rename_i allowed
    cases found
    exact ⟨rfl, rule, member, allowed, rfl⟩
  · contradiction

/-- A rule that allows a grant allows all that the grant covers. -/
theorem within_of_sanctioned (rules : List Rule) (now : UInt64) (principal : PrincipalId)
    (scope resource : Resource) (allowed rights : Rights) (expiresUnix : Option UInt64)
    (sanctioned : Sanctioned rules principal scope allowed expiresUnix)
    (timely : expired now expiresUnix = false) (covered : scope.covers resource = true)
    (contained : allowed.contains rights = true) :
    WithinRules rules now principal resource rights := by
  obtain ⟨rule, member, allows, expires⟩ := sanctioned
  obtain ⟨named, covers, contains⟩ := (rule_allows_iff rule principal scope allowed).mp allows
  refine ⟨rule, member, named, covers_trans _ _ _ covers covered,
    Rights.contains_trans _ _ _ contains contained, ?_⟩
  intro expiry same
  rw [← expires, Option.mem_def.mp same] at timely
  simpa [expired] using timely

/-! ## Tables within the rules -/

def TableSanctioned (rules : List Rule) (grants : GrantTable) : Prop :=
  ∀ id state, grants.lookup id = some state → Sanctioned rules state.grant.principal
    state.grant.resource state.grant.rights state.grant.expiresUnix

/-- A logged grant lies within the rules; other events grant nothing. -/
def Event.Sanctioned (rules : List Rule) : Event → Prop
  | .grant _ principal resource rights expiresUnix _ =>
      Weave.Sanctioned rules principal resource rights expiresUnix
  | _ => True

instance (rules : List Rule) : DecidablePred (Event.Sanctioned rules)
  | .grant _ principal resource rights expiresUnix _ =>
      inferInstanceAs (Decidable (Weave.Sanctioned rules principal resource rights expiresUnix))
  | .use _ _ _ _ => inferInstanceAs (Decidable True)
  | .deny _ _ _ _ => inferInstanceAs (Decidable True)
  | .revoke _ => inferInstanceAs (Decidable True)

section Tables

variable {rules : List Rule} {grants : GrantTable}

theorem sanctioned_insert (sanctioned : TableSanctioned rules grants) (id : GrantId)
    (state : GrantState) (within : Sanctioned rules state.grant.principal state.grant.resource
      state.grant.rights state.grant.expiresUnix) :
    TableSanctioned rules (grants.insert id state) := by
  intro other found known
  by_cases same : other = id
  · subst same
    rw [AList.lookup_insert] at known
    cases known
    exact within
  · rw [AList.lookup_insert_ne same] at known
    exact sanctioned other found known

/-- Uses, revocations and handles leave the terms of a grant alone. -/
theorem sanctioned_adjust (sanctioned : TableSanctioned rules grants) (id : GrantId)
    (change : GrantState → GrantState) (same : ∀ state, (change state).grant = state.grant) :
    TableSanctioned rules (grants.adjust id change) := by
  intro other found known
  rw [lookup_adjust] at known
  split at known
  case isTrue equal =>
    obtain ⟨before, present, rfl⟩ := Option.map_eq_some_iff.mp known
    rw [same]
    exact sanctioned id before present
  case isFalse => exact sanctioned other found known

theorem sanctioned_entry (sanctioned : TableSanctioned rules grants) (entry : AuditEntry)
    (within : entry.event.Sanctioned rules) : TableSanctioned rules (applyEntry grants entry) := by
  rw [applyEntry]
  cases event : entry.event with
  | grant id principal resource rights expiresUnix maxUses =>
      rw [event] at within
      exact sanctioned_insert sanctioned id _ within
  | use id principal resource rights => exact sanctioned_adjust sanctioned id _ fun _ => rfl
  | deny principal resource rights reason => exact sanctioned
  | revoke id => exact sanctioned_adjust sanctioned id _ fun _ => rfl

theorem table_of_sanctioned (entries : List AuditEntry)
    (within : ∀ entry ∈ entries, entry.event.Sanctioned rules) :
    TableSanctioned rules (tableOf entries) := by
  induction entries using List.reverseRecOn with
  | nil =>
      intro id state found
      simp [tableOf] at found
  | append_singleton entries last ih =>
      have stepped : tableOf (entries ++ [last]) = applyEntry (tableOf entries) last := by
        simp [tableOf, List.foldl_append]
      rw [stepped]
      apply sanctioned_entry
      · exact ih fun entry member => within entry (List.mem_append_left _ member)
      · exact within last (List.mem_append_right _ (List.mem_singleton_self _))

end Tables

/-! ## Calls that only ask -/

/-- Whether the call grants without asking the policy. -/
def Call.isGrant : Call → Bool
  | .grant _ _ _ _ => true
  | _ => false

/-- Every broker opened on the store has these rules, and nobody grants directly. -/
def OnlyRequests (rules : List Rule) : Weather × Deed → Prop
  | (_, .openBroker policy) => policy = .rules rules
  | (_, .call _ call) => call.isGrant = false

instance (rules : List Rule) : DecidablePred (OnlyRequests rules)
  | (_, .openBroker policy) => inferInstanceAs (Decidable (policy = .rules rules))
  | (_, .call _ call) => inferInstanceAs (Decidable (call.isGrant = false))

/-- What the call has the broker log fits the codec, and a granted path still lies
within a rule of the same expiry when it is read back from the log as text. -/
def ReadsBackWithin (rules : List Rule) (life : Life) : Weather × Deed → Prop
  | (_, .openBroker _) => True
  | (_, .call draw call) => ∀ broker ∈ life.broker, ∀ event ∈ eventOf broker draw call,
      event.Fits ∧ event.persisted.Sanctioned rules

instance (rules : List Rule) : ∀ life deed, Decidable (ReadsBackWithin rules life deed)
  | _, (_, .openBroker _) => inferInstanceAs (Decidable True)
  | life, (_, .call draw call) =>
      inferInstanceAs (Decidable (∀ broker ∈ life.broker, ∀ event ∈ eventOf broker draw call,
        event.Fits ∧ event.persisted.Sanctioned rules))

section Calls

variable {rules : List Rule}

theorem sanctioned_prepare (broker : Broker) (draw : Draw) (call : Call)
    (sanctioned : TableSanctioned rules broker.grants) :
    TableSanctioned rules (prepare broker draw call) := by
  cases call with
  | access cap resource rights =>
      simp only [prepare]
      split
      · exact sanctioned_adjust sanctioned _ _ fun _ => rfl
      · exact sanctioned
  | revoke id => exact sanctioned_adjust sanctioned _ _ fun _ => rfl
  | _ => exact sanctioned

/-- What a call does to the table once it has logged stays within the rules, if it
does not grant directly. -/
theorem sanctioned_settle (broker : Broker) (draw : Draw) (call : Call) (grants : GrantTable)
    (ruled : broker.policy = .rules rules) (asks : call.isGrant = false)
    (sanctioned : TableSanctioned rules grants) :
    TableSanctioned rules (settle broker draw grants call) := by
  cases call with
  | grant principal resource rights limits => contradiction
  | request principal resource rights =>
      cases decided : broker.policy.decide principal resource rights with
      | none =>
          simp only [settle, decided]
          exact sanctioned
      | some decision =>
          obtain ⟨granted, limits⟩ := decision
          rw [ruled] at decided
          obtain ⟨_, within⟩ := decide_sanctioned rules principal resource rights granted limits
            decided
          rw [← ruled] at decided
          simp only [settle, decided]
          exact sanctioned_insert sanctioned _ _ within
  | _ => exact sanctioned

/-- A call that does not grant directly logs no grant but one within the rules, and a
path that is text reads back as it was. -/
theorem textual_reads_back (broker : Broker) (draw : Draw) (call : Call) (event : Event)
    (ruled : broker.policy = .rules rules) (asks : call.isGrant = false)
    (logs : eventOf broker draw call = some event) (textual : event.TextualGrant) :
    event.persisted.Sanctioned rules := by
  cases call with
  | grant principal resource rights limits => contradiction
  | request principal resource rights =>
      cases decided : broker.policy.decide principal resource rights with
      | none =>
          simp only [eventOf, decided] at logs
          cases logs
          trivial
      | some decision =>
          obtain ⟨granted, limits⟩ := decision
          simp only [eventOf, decided] at logs
          cases logs
          rw [ruled] at decided
          obtain ⟨_, within⟩ := decide_sanctioned rules principal resource rights granted limits
            decided
          change Sanctioned rules principal resource.persisted granted limits.expiresUnix
          rw [persisted_of_utf8 resource textual]
          exact within
  | access cap resource rights =>
      simp only [eventOf] at logs
      split at logs <;> cases logs <;> trivial
  | revoke id =>
      obtain ⟨state, _, _, rfl⟩ := revoke_known broker draw id event logs
      trivial
  | reissue id => contradiction
  | reload => contradiction

end Calls

/-! ## The invariant -/

/-- A broker of these rules at the head of the chain, whose table lies within them. -/
structure Bounded (ls : Lifestream) (rules : List Rule) (head : Option ObjectId)
    (broker : Broker) : Prop where
  store : broker.ls = ls
  head : broker.head = head
  policy : broker.policy = .rules rules
  table : TableSanctioned rules broker.grants

/-- The chain at the head reads back within the rules, and so does the table of
whoever is open on it. -/
structure Confined (ls : Lifestream) (rules : List Rule) (life : Life) (head : Option ObjectId)
    (kept : List AuditEntry) : Prop where
  sound : Sound ls.store life.device
  names : Names life.device head
  linked : Linked ls life.device head kept.reverse
  within : ∀ entry ∈ kept, entry.event.persisted.Sanctioned rules
  bounded : ∀ broker, life.broker = some broker → Bounded ls rules head broker

section Step

variable {ls : Lifestream} {rules : List Rule} {life : Life} {head : Option ObjectId}
  {kept : List AuditEntry}

/-- Whoever rereads the log, in whatever weather, gets a table within the rules. -/
theorem reread_confined (confined : Confined ls rules life head kept) (weather : Weather)
    (free : CollisionFree ls.store life.device) (found : Option ObjectId) (grants : GrantTable)
    (seq : UInt64) (read : (inWeather life.device weather).getRef auditRef = .ok found)
    (replayed : replay ls (inWeather life.device weather) found = .ok (grants, seq)) :
    TableSanctioned rules grants ∧ ∃ rest : List AuditEntry, Names (inWeather life.device weather) found ∧
      Linked ls (inWeather life.device weather) found rest.reverse ∧
      ∀ entry ∈ rest, entry.event.persisted.Sanctioned rules := by
  have keeps := weather_keeps ls.store life.device weather
  obtain ⟨known, names⟩ :=
    names_get_ref (inWeather life.device weather) head found confined.names read
  have table : ∀ rest : List AuditEntry,
      Linked ls (inWeather life.device weather) found rest.reverse →
      (∀ entry ∈ rest, entry.event.persisted.Sanctioned rules) →
      TableSanctioned rules grants := by
    intro rest linked within
    rw [replay_table ls _ found rest grants seq (keeps.sound confined.sound) free linked replayed]
    apply table_of_sanctioned
    intro entry member
    obtain ⟨logged, inside, rfl⟩ := List.mem_map.mp member
    exact within logged inside
  rcases known with same | lost
  · have linked : Linked ls (inWeather life.device weather) found kept.reverse := by
      rw [same]
      exact confined.linked.grow keeps
    exact ⟨table kept linked confined.within, kept, names, linked, confined.within⟩
  · have linked : Linked ls (inWeather life.device weather) found ([] : List AuditEntry).reverse := by
      rw [lost]
      exact .nil
    have within : ∀ entry ∈ ([] : List AuditEntry), entry.event.persisted.Sanctioned rules := by
      intro entry member
      cases member
    exact ⟨table [] linked within, [], names, linked, within⟩

theorem open_broker_policy (ls : Lifestream) (policy : Policy) (device : Device) (broker : Broker)
    (opened : openBroker ls policy device = .ok broker) : broker.policy = policy := by
  obtain ⟨head, _, rest⟩ := of_bind_ok opened
  obtain ⟨result, _, ended⟩ := of_bind_ok rest
  cases ended
  rfl

/-- A reload leaves the broker alone, or has reread the log from its head. -/
theorem reload_reads {broker later : Broker} {device : Device} {changed : Bool}
    (reloaded : broker.reload device = .ok (later, changed)) :
    later = broker ∨ later.ls = broker.ls ∧ later.policy = broker.policy ∧
      device.getRef auditRef = .ok later.head ∧
      replay broker.ls device later.head = .ok (later.grants, later.seq) := by
  obtain ⟨head, named, rest⟩ := of_bind_ok reloaded
  split at rest
  · cases rest
    exact .inl rfl
  · obtain ⟨table, replayed, ended⟩ := of_bind_ok rest
    cases ended
    exact .inr ⟨rfl, rfl, of_from_lifestream named, replayed⟩

theorem confined_open (confined : Confined ls rules life head kept) (weather : Weather)
    (free : CollisionFree ls.store life.device) :
    ∃ later rest, Confined ls rules (lifeStep ls life (weather, .openBroker (.rules rules))) later
      rest := by
  have keeps := weather_keeps ls.store life.device weather
  simp only [lifeStep]
  cases opened : openBroker ls (.rules rules) (inWeather life.device weather) with
  | error error =>
      refine ⟨head, kept, keeps.sound confined.sound, confined.names, confined.linked.grow keeps,
        confined.within, ?_⟩
      intro broker present
      contradiction
  | ok broker =>
      obtain ⟨store, read, replayed⟩ := open_broker_reads _ _ broker opened
      obtain ⟨table, rest, names, linked, within⟩ :=
        reread_confined confined weather free broker.head broker.grants broker.seq read replayed
      refine ⟨broker.head, rest, keeps.sound confined.sound, names, linked, within, ?_⟩
      intro other present
      cases present
      exact ⟨store, rfl, open_broker_policy ls _ _ broker opened, table⟩

theorem confined_reload (confined : Confined ls rules life head kept) (weather : Weather)
    (draw : Draw) (broker : Broker) (present : life.broker = some broker)
    (free : CollisionFree ls.store life.device) :
    ∃ later rest, Confined ls rules (lifeStep ls life (weather, .call draw .reload)) later rest := by
  have keeps := weather_keeps ls.store life.device weather
  have bounded := confined.bounded broker present
  have unread : Confined ls rules { life with device := inWeather life.device weather } head kept :=
    ⟨keeps.sound confined.sound, confined.names, confined.linked.grow keeps, confined.within,
      confined.bounded⟩
  simp only [lifeStep, present, Life.after]
  obtain ⟨error, left⟩ | ⟨other, changed, reread, _, left⟩ :=
    reload_outcome (life.session broker weather) draw
  · rw [left]
    refine ⟨head, kept, unread.sound, unread.names, unread.linked, unread.within, ?_⟩
    intro same known
    cases known
    exact bounded
  · rw [left]
    change broker.reload (inWeather life.device weather) = _ at reread
    rcases reload_reads reread with same | ⟨store, policy, read, replayed⟩
    · refine ⟨head, kept, unread.sound, unread.names, unread.linked, unread.within, ?_⟩
      intro later known
      cases known
      rw [same]
      exact bounded
    · rw [bounded.store] at replayed
      obtain ⟨table, rest, names, linked, within⟩ :=
        reread_confined confined weather free other.head other.grants other.seq read replayed
      refine ⟨other.head, rest, keeps.sound confined.sound, names, linked, within, ?_⟩
      intro later known
      cases known
      exact ⟨store.trans bounded.store, rfl, policy.trans bounded.policy, table⟩

/-- A call that logs nothing changes no more than handles. -/
theorem confined_silent (confined : Confined ls rules life head kept) (weather : Weather)
    (draw : Draw) (call : Call) (broker : Broker) (present : life.broker = some broker)
    (silent : eventOf broker draw call = none) (rereads : call.isReload = false) :
    Confined ls rules (lifeStep ls life (weather, .call draw call)) head kept := by
  have keeps := weather_keeps ls.store life.device weather
  have bounded := confined.bounded broker present
  obtain ⟨grants, left, unchanged⟩ :=
    perform_silent (life.session broker weather) draw call silent rereads
  have table : TableSanctioned rules grants := by
    rcases unchanged with ⟨same, _⟩ | ⟨id, _, _, same⟩
    · rw [same]
      exact bounded.table
    · rw [same]
      exact sanctioned_adjust bounded.table id _ fun _ => rfl
  simp only [lifeStep, present, Life.after, left]
  refine ⟨keeps.sound confined.sound, confined.names, confined.linked.grow keeps,
    confined.within, ?_⟩
  intro other known
  cases known
  exact ⟨bounded.store, bounded.head, bounded.policy, table⟩

/-- A call that logs adds an entry within the rules to the chain, or fails to and
keeps the chain. -/
theorem confined_logging (confined : Confined ls rules life head kept) (weather : Weather)
    (draw : Draw) (call : Call) (broker : Broker) (event : Event)
    (present : life.broker = some broker) (logs : eventOf broker draw call = some event)
    (asks : call.isGrant = false)
    (back : ReadsBackWithin rules life (weather, .call draw call)) :
    ∃ later rest, Confined ls rules (lifeStep ls life (weather, .call draw call)) later rest := by
  have keeps := weather_keeps ls.store life.device weather
  have bounded := confined.bounded broker present
  obtain ⟨fits, within⟩ := back broker present event logs
  have prepared := sanctioned_prepare broker draw call bounded.table
  simp only [lifeStep, present]
  obtain ⟨device, grows, ⟨id, performed, pointed, linked⟩ | ⟨_, ⟨error, performed⟩, named⟩⟩ :=
    logging_outcome (life.session broker weather) draw call event logs
  · change Grows broker.ls.store _ device at grows
    rw [bounded.store] at grows
    have chain : Linked ls device (some id)
        (⟨id, broker.seq, draw.logNow, event⟩ :: kept.reverse) := by
      rw [← bounded.store]
      apply linked fits
      change Linked broker.ls _ broker.head _
      rw [bounded.store, bounded.head]
      exact confined.linked.grow keeps
    rw [performed]
    simp only [Life.after, final_answer]
    refine ⟨some id, kept ++ [⟨id, broker.seq, draw.logNow, event⟩],
      (keeps.trans grows.toKeeps).sound confined.sound, .inl pointed, ?_, ?_, ?_⟩
    · rw [List.reverse_append]
      exact chain
    · intro entry member
      rcases List.mem_append.mp member with old | new
      · exact confined.within entry old
      · rw [List.mem_singleton.mp new]
        exact within
    · intro other known
      cases known
      exact ⟨bounded.store, rfl, bounded.policy,
        sanctioned_settle broker draw call _ bounded.policy asks prepared⟩
  · change Grows broker.ls.store _ device at grows
    rw [bounded.store] at grows
    have moved := keeps.trans grows.toKeeps
    have names : Names device head := by
      rcases named with same | torn
      · change _ = life.device.refs.lookup auditRef at same
        rw [Names, same]
        exact confined.names
      · exact .inr torn
    rw [performed]
    refine ⟨head, kept, moved.sound confined.sound, names, confined.linked.grow moved,
      confined.within, ?_⟩
    intro other known
    cases known
    exact ⟨bounded.store, bounded.head, bounded.policy, prepared⟩

theorem confined_step (confined : Confined ls rules life head kept) (deed : Weather × Deed)
    (asks : OnlyRequests rules deed) (back : ReadsBackWithin rules life deed)
    (free : CollisionFree ls.store life.device) :
    ∃ later rest, Confined ls rules (lifeStep ls life deed) later rest := by
  obtain ⟨weather, deed⟩ := deed
  cases deed with
  | openBroker policy =>
      cases asks
      exact confined_open confined weather free
  | call draw call =>
      cases present : life.broker with
      | none =>
          simp only [lifeStep, present]
          exact ⟨head, kept, confined⟩
      | some broker =>
          cases logs : eventOf broker draw call with
          | some event =>
              exact confined_logging confined weather draw call broker event present logs asks back
          | none =>
              cases rereads : call.isReload with
              | false =>
                  exact ⟨head, kept,
                    confined_silent confined weather draw call broker present logs rereads⟩
              | true =>
                  cases call with
                  | reload => exact confined_reload confined weather draw broker present free
                  | _ => contradiction

end Step

/-! ## Runs -/

theorem confined_run (ls : Lifestream) (rules : List Rule) (life : Life)
    (deeds : List (Weather × Deed)) (confined : ∃ head kept, Confined ls rules life head kept)
    (store : life.OneStore ls) (asks : ∀ deed ∈ deeds, OnlyRequests rules deed)
    (back : Guarded (lifeStep ls) (ReadsBackWithin rules) life deeds)
    (free : CollisionFree ls.store (run (lifeStep ls) life deeds).device) :
    ∃ head kept, Confined ls rules (run (lifeStep ls) life deeds) head kept := by
  apply life_run_invariant ls (fun life deed => OnlyRequests rules deed ∧
    ReadsBackWithin rules life deed) (fun life => ∃ head kept, Confined ls rules life head kept)
  · rintro life deed ⟨head, kept, holds⟩ ⟨asked, reads⟩ clear
    exact confined_step holds deed asked reads clear
  · exact confined
  · exact store
  · exact guarded_everywhere (lifeStep ls) _ _ life deeds asks back
  · exact free

/-- Where only requests grant and what is granted reads back within the rules, every
access that succeeds lies within a rule that names its principal or none, covers its
resource and rights, and has not expired. -/
theorem requests_stay_within_rules (ls : Lifestream) (rules : List Rule) (device : Device)
    (deeds : List (Weather × Deed)) (sound : Sound ls.store device)
    (unlogged : device.refs.lookup auditRef = none)
    (asks : ∀ deed ∈ deeds, OnlyRequests rules deed)
    (back : Guarded (lifeStep ls) (ReadsBackWithin rules) (.start device) deeds)
    (free : CollisionFree ls.store (run (lifeStep ls) (.start device) deeds).device) :
    let life := run (lifeStep ls) (.start device) deeds
    ∀ broker weather draw cap resource rights answer after, life.broker = some broker →
      perform draw (.access cap resource rights) (life.session broker weather) =
        .ok answer after →
      WithinRules rules draw.now (principalOf broker cap.grant) resource rights := by
  intro life broker weather draw cap resource rights answer after present answered
  have initial : Confined ls rules (.start device) none [] := by
    refine ⟨sound, .inl unlogged, .nil, ?_, ?_⟩
    · intro entry member
      cases member
    · intro broker present
      contradiction
  obtain ⟨head, kept, confined⟩ := confined_run ls rules (.start device) deeds
    ⟨none, [], initial⟩ (fun broker present => by contradiction) asks back free
  have bounded := confined.bounded broker present
  have admitted := admitted_of_lease _ after draw cap resource rights answer answered
  obtain ⟨state, found, _, _, timely, _, covered, contained⟩ :=
    refusal_none broker draw.now cap resource rights admitted
  have principal : principalOf broker cap.grant = state.grant.principal := by
    rw [principalOf, found]
  rw [principal]
  exact within_of_sanctioned rules draw.now _ _ _ _ _ _ (bounded.table _ state found) timely
    covered contained

/-- Readers of `/data`, until the time 99. -/
def dataRules : List Rule := [⟨some "app", samplePath "/data", Rights.READ, ⟨some 99, none⟩⟩]

/-- A request, answered in one session, whose grant is reissued in the next. -/
def requestedDeeds (rules : List Rule) (resource : Resource) : List (Weather × Deed) :=
  [(.fair, .openBroker (.rules rules)),
    (.fair, .call (sampleDraw 10 1) (.request "app" resource Rights.READ)),
    (.fair, .openBroker (.rules rules)), (.fair, .call (sampleDraw 11 2) (.reissue (sampleId 1)))]

def requestedLife (rules : List Rule) (resource : Resource) : Life :=
  run (lifeStep sampleStore) (.start Device.fresh) (requestedDeeds rules resource)

theorem reissued_request_within_rules :
    WithinRules dataRules 12 "app" (samplePath "/data/x") Rights.READ := by
  have tried : (requestedLife dataRules (samplePath "/data")).tries 12 =
      some (.ok (.lease ⟨sampleId 1, samplePath "/data/x", Rights.READ⟩)) := by
    decide +kernel
  obtain ⟨broker, present, answered⟩ := Option.map_eq_some_iff.mp tried
  obtain ⟨after, performed⟩ : ∃ after, perform (sampleDraw 12 2)
      (.access sampleHandle (samplePath "/data/x") Rights.READ)
      ((requestedLife dataRules (samplePath "/data")).session broker .fair) = .ok _ after :=
    ok_of_outcome _ _ answered
  have named : (requestedLife dataRules (samplePath "/data")).broker.map
      (fun broker => principalOf broker (sampleId 1)) = some "app" := by
    decide +kernel
  rw [present] at named
  have principal : principalOf broker sampleHandle.grant = "app" := Option.some.inj named
  have within := requests_stay_within_rules sampleStore dataRules Device.fresh
    (requestedDeeds dataRules (samplePath "/data")) (fresh_sound sampleStore.store) rfl
    (by decide) (by decide +kernel) (by decide +kernel) broker .fair (sampleDraw 12 2)
    sampleHandle (samplePath "/data/x") Rights.READ _ after present performed
  rwa [principal] at within

/-! ## A path that is not text -/

/-- A directory whose name is no UTF-8, and what the log makes of that name. -/
def rawPath : Resource := .file [47, 97, 255]

def rawRules : List Rule := [⟨none, rawPath, Rights.READ, Limits.none⟩]

/-- The grant comes back from the log with the replacement character in its path,
which no rule covers, and an access to that path is let through. -/
theorem lossy_grant_leaves_rules :
    let life := requestedLife rawRules rawPath
    CollisionFree sampleStore.store life.device ∧
      (∀ deed ∈ requestedDeeds rawRules rawPath, OnlyRequests rawRules deed) ∧
      (life.broker.map fun broker => outcomeOf (perform (sampleDraw 12 2)
        (.access sampleHandle rawPath.persisted Rights.READ) (life.session broker .fair))) =
          some (.ok (.lease ⟨sampleId 1, rawPath.persisted, Rights.READ⟩)) ∧
      ∀ principal, ¬WithinRules rawRules 12 principal rawPath.persisted Rights.READ := by
  refine ⟨by decide +kernel, by decide +kernel, by decide +kernel, ?_⟩
  rintro principal ⟨rule, member, _, covers, _⟩
  rw [List.mem_singleton.mp member] at covers
  have uncovered : rawPath.covers rawPath.persisted = false := by decide
  rw [uncovered] at covers
  contradiction

end HorizonOs.Weave
