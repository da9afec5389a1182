import HorizonOs.Weave.Replay

/-!
# Brokers that share a store

Any number of brokers opened on one store, their calls interleaved in any
order. A broker appends onto the head it last saw and then overwrites the
shared ref, so an entry is kept by every later log exactly as long as whoever
logs has the current head. The run lemma says so; the run at the end of the
module loses a revocation.
-/

namespace HorizonOs.Weave

open HorizonOs.Lib.ByteCodec HorizonOs.Lib.Text HorizonOs.Lib.Runs
open HorizonOs.Lifestream

set_option autoImplicit false

/-- A store and the brokers opened on it. The journal and the list of the grants
whose revocation was answered with success are history variables. -/
structure World where
  device : Device
  brokers : List Broker
  journal : List AuditEntry
  revoked : List GrantId

inductive Move where
  | openBroker (policy : Policy)
  | call (index : Nat) (draw : Draw) (call : Call)
  deriving DecidableEq

def World.after (world : World) (index : Nat) (call : Call)
    (result : EStateM.Result Error Session Answer) : World where
  device := (finalState result).device
  brokers := world.brokers.set index (finalState result).broker
  journal := (finalState result).journal
  revoked := revokedBy call result ++ world.revoked

/-- The session of one broker of the world. -/
def World.session (world : World) (broker : Broker) : Session :=
  ⟨broker, world.device, world.journal⟩

def worldStep (ls : Lifestream) (world : World) : Move → World
  | .openBroker policy =>
      match openBroker ls policy world.device with
      | .ok broker => { world with brokers := world.brokers ++ [broker] }
      | .error _ => world
  | .call index draw call =>
      match world.brokers[index]? with
      | none => world
      | some broker => world.after index call (perform draw call (world.session broker))

/-- The chain read from the audit ref as it stands. -/
def finalChain (ls : Lifestream) (device : Device) : Except Error (List AuditEntry) := do
  let head ← fromLifestream (device.getRef auditRef)
  chainFrom ls device head

/-- Every entry logged is on the final chain, and every grant whose revocation
was answered with success is revoked in its replay. -/
def World.LosesNothing (ls : Lifestream) (world : World) : Prop :=
  ∃ entries, finalChain ls world.device = .ok entries ∧
    (∀ entry ∈ world.journal, entry ∈ entries) ∧
    ∀ id ∈ world.revoked, (tableOf entries).revokes id = true

instance (ls : Lifestream) (world : World) : Decidable (world.LosesNothing ls) :=
  match read : finalChain ls world.device with
  | .error _ => isFalse fun ⟨_, chain, _⟩ => by rw [read] at chain; contradiction
  | .ok entries =>
      decidable_of_iff ((∀ entry ∈ world.journal, entry ∈ entries) ∧
          ∀ id ∈ world.revoked, (tableOf entries).revokes id = true)
        ⟨fun kept => ⟨entries, read, kept⟩, fun ⟨other, chain, kept⟩ => by
          rw [read] at chain
          cases chain
          exact kept⟩

/-- A call that logs does so from the current head, logs what the codec gives
back, and draws no grant id that was drawn before. -/
def Attentive (world : World) : Move → Prop
  | .openBroker _ => True
  | .call index draw call =>
      ∀ broker, world.brokers[index]? = some broker →
        ∀ event, eventOf broker draw call = some event →
          world.device.getRef auditRef = .ok broker.head ∧ event.Encodable ∧
            ∀ id, event.grants = some id → ∀ entry ∈ world.journal, entry.event.grants ≠ some id

/-! ## The invariant -/

/-- Every broker of the world works on the one store. -/
def World.OneStore (ls : Lifestream) (world : World) : Prop :=
  ∀ broker ∈ world.brokers, broker.ls = ls

/-- The log holds what was logged, and every broker lags it. -/
structure Shared (ls : Lifestream) (world : World) (head : Option ObjectId) : Prop where
  healthy : world.device.Healthy
  log : LogAt ls world.device head world.journal
  store : world.OneStore ls
  lag : ∀ broker ∈ world.brokers,
    Lags broker.grants.standings (standingsOf (world.journal.map AuditEntry.event))
  revoked : ∀ id ∈ world.revoked,
    ∃ standing, standingsOf (world.journal.map AuditEntry.event) id = some standing ∧
      standing.revoked = true

/-- A known grant was granted by some event of the ledger. -/
theorem granted_of_known (events : List Event) (id : GrantId) (standing : Standing)
    (known : standingsOf events id = some standing) : ∃ event ∈ events, event.grants = some id := by
  induction events using List.reverseRecOn generalizing standing with
  | nil => contradiction
  | append_singleton events last ih =>
      have older : ∀ before, standingsOf events id = some before →
          ∃ event ∈ events ++ [last], event.grants = some id := by
        intro before found
        obtain ⟨event, member, granted⟩ := ih before found
        exact ⟨event, List.mem_append_left _ member, granted⟩
      rw [standings_of_snoc] at known
      cases last with
      | grant granted principal resource rights expiresUnix maxUses =>
          by_cases same : id = granted
          · exact ⟨_, List.mem_append_right _ (List.mem_singleton_self _), by rw [same]; rfl⟩
          · rw [Standings.record, Function.update_of_ne same] at known
            exact older standing known
      | use used principal resource rights =>
          by_cases same : id = used
          · subst same
            rw [Standings.record, Function.update_self] at known
            obtain ⟨before, found, _⟩ := Option.map_eq_some_iff.mp known
            exact older before found
          · rw [Standings.record, Function.update_of_ne same] at known
            exact older standing known
      | deny principal resource rights reason => exact older standing known
      | revoke gone =>
          by_cases same : id = gone
          · subst same
            rw [Standings.record, Function.update_self] at known
            obtain ⟨before, found, _⟩ := Option.map_eq_some_iff.mp known
            exact older before found
          · rw [Standings.record, Function.update_of_ne same] at known
            exact older standing known

/-- An id that no entry grants is unknown to the ledger. -/
theorem unknown_of_ungranted (journal : List AuditEntry) (id : GrantId)
    (ungranted : ∀ entry ∈ journal, entry.event.grants ≠ some id) :
    standingsOf (journal.map AuditEntry.event) id = none := by
  cases found : standingsOf (journal.map AuditEntry.event) id with
  | none => rfl
  | some standing =>
      obtain ⟨event, member, granted⟩ := granted_of_known _ id standing found
      obtain ⟨entry, inside, rfl⟩ := List.mem_map.mp member
      exact absurd granted (ungranted entry inside)

/-- The head, table and count a broker takes over from a log it reads. -/
theorem reload_log (broker : Broker) (device : Device) (head : Option ObjectId)
    (entries : List AuditEntry) (healthy : device.Healthy)
    (log : LogAt broker.ls device head entries) (free : CollisionFree broker.ls.store device) :
    broker.reload device = .ok (broker, false) ∧ head = broker.head ∨
      broker.reload device = .ok ({ broker with
        head, seq := UInt64.ofNat entries.length, grants := tableOf entries }, true) := by
  have pointed := get_ref_log broker.ls device head entries log (healthy.unreadableRef auditRef)
  have read := (chain_from_log broker.ls device head entries log free).of_readable
    healthy.unreadable
  by_cases same : head = broker.head
  · left
    exact ⟨by simp [Broker.reload, pointed, same, fromLifestream, bind, Except.bind], same⟩
  · right
    simp [Broker.reload, pointed, same, fromLifestream, replay, read, bind, Except.bind]

theorem world_step_grows (ls : Lifestream) (world : World)
    (store : world.OneStore ls) (move : Move) :
    Grows ls.store world.device (worldStep ls world move).device := by
  cases move with
  | openBroker policy =>
      simp only [worldStep]
      cases openBroker ls policy world.device <;> exact Grows.refl _ _
  | call index draw call =>
      cases found : world.brokers[index]? with
      | none =>
          simp only [worldStep, found]
          exact Grows.refl _ _
      | some broker =>
          have grows := (perform_grows (world.session broker) draw call).device
          rw [← store broker (List.mem_of_getElem? found)]
          simp only [worldStep, found]
          exact grows

theorem one_store_step (ls : Lifestream) (world : World) (move : Move)
    (store : world.OneStore ls) : (worldStep ls world move).OneStore ls := by
  cases move with
  | openBroker policy =>
      simp only [worldStep]
      cases opened : openBroker ls policy world.device with
      | error error => exact store
      | ok broker =>
          intro other member
          rcases List.mem_append.mp member with old | new
          · exact store other old
          · rw [List.mem_singleton.mp new]
            exact open_broker_ls ls policy world.device broker opened
  | call index draw call =>
      cases found : world.brokers[index]? with
      | none =>
          simp only [worldStep, found]
          exact store
      | some broker =>
          simp only [worldStep, found]
          intro other member
          rcases List.mem_or_eq_of_mem_set member with old | rfl
          · exact store other old
          · exact (perform_grows (world.session broker) draw call).ls.trans
              (store broker (List.mem_of_getElem? found))

section Step

variable {ls : Lifestream} {world : World} {head : Option ObjectId}

theorem shared_open (shared : Shared ls world head) (policy : Policy)
    (free : CollisionFree ls.store world.device) :
    Shared ls (worldStep ls world (.openBroker policy)) head := by
  simp only [worldStep]
  cases opened : openBroker ls policy world.device with
  | error error => exact shared
  | ok broker =>
      have tracks := tracks_open ls policy world.device head world.journal [] broker
        shared.healthy shared.log free opened
      have store : broker.ls = ls := open_broker_ls ls policy world.device broker opened
      refine ⟨shared.healthy, shared.log, ?_, ?_, shared.revoked⟩
      · intro other member
        rcases List.mem_append.mp member with old | new
        · exact shared.store other old
        · rw [List.mem_singleton.mp new]
          exact store
      · intro other member
        rcases List.mem_append.mp member with old | new
        · exact shared.lag other old
        · rw [List.mem_singleton.mp new, tracks.table]
          exact lags_refl _

/-- A call that logs nothing leaves log and ledger where they are. -/
theorem shared_silent (shared : Shared ls world head) (index : Nat) (broker : Broker) (draw : Draw)
    (call : Call) (found : world.brokers[index]? = some broker)
    (silent : eventOf broker draw call = none) (rereads : call.isReload = false) :
    Shared ls (worldStep ls world (.call index draw call)) head := by
  have member := List.mem_of_getElem? found
  obtain ⟨grants, left, same⟩ := silent_standings (world.session broker) draw call silent rereads
  simp only [worldStep, found, World.after, left]
  refine ⟨shared.healthy, shared.log, ?_, ?_, ?_⟩
  · intro other inside
    rcases List.mem_or_eq_of_mem_set inside with old | rfl
    · exact shared.store other old
    · exact shared.store broker member
  · intro other inside
    rcases List.mem_or_eq_of_mem_set inside with old | rfl
    · exact shared.lag other old
    · have lag := shared.lag broker member
      change Lags grants.standings _
      rw [same]
      exact lag
  · intro id inside
    rcases List.mem_append.mp inside with new | old
    · cases call with
      | revoke target =>
          cases answered : perform draw (.revoke target) (world.session broker) with
          | error error after =>
              rw [answered] at new
              cases new
          | ok answer after =>
              rw [answered] at new
              rw [List.mem_singleton.mp new]
              rcases revoke_answered _ draw target answer after answered with logs | revoked
              · change eventOf broker draw _ = _ at logs
                rw [silent] at logs
                contradiction
              · obtain ⟨state, known, flag⟩ := revoked
                change broker.grants.lookup target = _ at known
                have standing : broker.grants.standings target = some state.standing := by
                  simp only [GrantTable.standings, known, Option.map_some]
                obtain ⟨other, ahead, flags⟩ := shared.lag broker member target _ standing
                exact ⟨other, ahead, flags flag⟩
      | _ => cases new
    · exact shared.revoked id old

theorem shared_reload (shared : Shared ls world head) (index : Nat) (broker : Broker) (draw : Draw)
    (found : world.brokers[index]? = some broker) (free : CollisionFree ls.store world.device) :
    Shared ls (worldStep ls world (.call index draw .reload)) head := by
  have member := List.mem_of_getElem? found
  have store := shared.store broker member
  have reread := reload_log broker world.device head world.journal shared.healthy
    (store ▸ shared.log) (store ▸ free)
  -- either way a reload answers with a broker that lags the log
  obtain ⟨later, changed, outcome, same, lag⟩ : ∃ later changed,
      broker.reload world.device = .ok (later, changed) ∧ later.ls = ls ∧
        Lags later.grants.standings (standingsOf (world.journal.map AuditEntry.event)) := by
    rcases reread with ⟨unchanged, _⟩ | replayed
    · exact ⟨_, _, unchanged, store, shared.lag broker member⟩
    · refine ⟨_, _, replayed, store, ?_⟩
      rw [table_of_standings]
      exact lags_refl _
  have left : perform draw .reload (world.session broker) =
      .ok (.reloaded changed) { world.session broker with broker := later } := by
    have inner : (world.session broker).broker.reload (world.session broker).device =
        .ok (later, changed) := outcome
    simp only [perform, bind_apply, reloadCall, inner]
    rfl
  simp only [worldStep, found, World.after, left, final_state_ok]
  refine ⟨shared.healthy, shared.log, ?_, ?_, shared.revoked⟩
  · intro other inside
    rcases List.mem_or_eq_of_mem_set inside with old | rfl
    · exact shared.store other old
    · exact same
  · intro other inside
    rcases List.mem_or_eq_of_mem_set inside with old | rfl
    · exact shared.lag other old
    · exact lag

/-- A call that logs from the current head adds its entry to the log; who made it
records the event, and everybody else falls behind. -/
theorem shared_logging (shared : Shared ls world head) (index : Nat) (broker : Broker)
    (draw : Draw) (call : Call) (event : Event) (found : world.brokers[index]? = some broker)
    (logs : eventOf broker draw call = some event) (current : head = broker.head)
    (encodable : event.Encodable)
    (fresh : ∀ id, event.grants = some id → ∀ entry ∈ world.journal,
      entry.event.grants ≠ some id) :
    ∃ later, Shared ls (worldStep ls world (.call index draw call)) later := by
  have member := List.mem_of_getElem? found
  have store := shared.store broker member
  have log : LogAt broker.ls world.device broker.head world.journal := by
    rw [store, ← current]
    exact shared.log
  obtain ⟨device, entry, same, _, performed, healthy, extended⟩ :=
    logging_call_outcome (world.session broker) world.journal draw call event shared.healthy log
      logs encodable
  have left : finalState (perform draw call (world.session broker)) =
      settled (world.session broker) draw call device entry := by
    rw [performed, final_answer]
  have unknown : ∀ id, event.grants = some id →
      standingsOf (world.journal.map AuditEntry.event) id = none := fun id granted =>
    unknown_of_ungranted world.journal id (fresh id granted)
  have recorded : standingsOf ((world.journal ++ [entry]).map AuditEntry.event) =
      (standingsOf (world.journal.map AuditEntry.event)).record event := by
    rw [List.map_append, List.map_singleton, standings_of_snoc, same]
  refine ⟨some entry.id, ?_⟩
  simp only [worldStep, found, World.after, left]
  refine ⟨healthy, ?_, ?_, ?_, ?_⟩
  · rw [← store]
    exact extended
  · intro other inside
    rcases List.mem_or_eq_of_mem_set inside with old | rfl
    · exact shared.store other old
    · exact store
  · intro other inside
    change Lags _ (standingsOf ((world.journal ++ [entry]).map AuditEntry.event))
    rw [recorded]
    rcases List.mem_or_eq_of_mem_set inside with old | rfl
    · apply lags_ahead
      · exact shared.lag other old
      · exact unknown
    · have lag := lags_record _ _ event (shared.lag broker member)
      rw [← call_standings broker draw call event logs] at lag
      exact lag
  · intro id inside
    change ∃ standing, standingsOf ((world.journal ++ [entry]).map AuditEntry.event) id =
      some standing ∧ _
    rw [recorded]
    rcases List.mem_append.mp inside with new | old
    · cases call with
      | revoke target =>
          cases answered : perform draw (.revoke target) (world.session broker) with
          | error error after =>
              rw [answered] at new
              cases new
          | ok answer after =>
              rw [answered] at new
              rw [List.mem_singleton.mp new]
              obtain ⟨state, known, _, alive⟩ := revoke_known broker draw target event logs
              have standing : broker.grants.standings target = some state.standing := by
                rw [GrantTable.standings, known]
                rfl
              obtain ⟨other, ahead, _⟩ := shared.lag broker member target _ standing
              rw [alive, Standings.record, Function.update_self, ahead]
              exact ⟨other.withRevoked, rfl, rfl⟩
      | _ => cases new
    · have known := shared.revoked id old
      apply revoked_of_record
      · intro granted
        obtain ⟨standing, ahead, _⟩ := known
        rw [unknown id granted] at ahead
        contradiction
      · exact known

theorem shared_step (shared : Shared ls world head) (move : Move)
    (attentive : Attentive world move)
    (free : CollisionFree ls.store (worldStep ls world move).device) :
    ∃ later, Shared ls (worldStep ls world move) later := by
  have before := free.before (world_step_grows ls world shared.store move).written
  cases move with
  | openBroker policy => exact ⟨head, shared_open shared policy before⟩
  | call index draw call =>
      cases found : world.brokers[index]? with
      | none =>
          simp only [worldStep, found]
          exact ⟨head, shared⟩
      | some broker =>
          cases logs : eventOf broker draw call with
          | some event =>
              obtain ⟨pointed, encodable, fresh⟩ := attentive broker found event logs
              rw [get_ref_log ls world.device head world.journal shared.log
                (shared.healthy.unreadableRef auditRef)] at pointed
              exact shared_logging shared index broker draw call event found logs
                (Except.ok.inj pointed) encodable fresh
          | none =>
              cases rereads : call.isReload with
              | false => exact ⟨head, shared_silent shared index broker draw call found logs rereads⟩
              | true =>
                  cases call with
                  | reload => exact ⟨head, shared_reload shared index broker draw found before⟩
                  | _ => contradiction

end Step

/-! ## Runs -/

theorem shared_run (ls : Lifestream) (world : World) (head : Option ObjectId) (moves : List Move)
    (shared : Shared ls world head) (attentive : Guarded (worldStep ls) Attentive world moves)
    (free : CollisionFree ls.store (run (worldStep ls) world moves).device) :
    ∃ later, Shared ls (run (worldStep ls) world moves) later := by
  -- what does not collide at the end did not collide on the way
  have inherited : ∀ world move,
      ((worldStep ls world move).OneStore ls → CollisionFree ls.store (worldStep ls world move).device) →
        world.OneStore ls → CollisionFree ls.store world.device := by
    intro world move after store
    exact (after (one_store_step ls world move store)).before
      (world_step_grows ls world store move).written
  obtain ⟨_, guarded⟩ := guarded_inherited (worldStep ls) Attentive
    (fun world => world.OneStore ls → CollisionFree ls.store world.device) inherited world moves
    attentive fun _ => free
  refine guarded_run_invariant (worldStep ls) _ (fun world => ∃ head, Shared ls world head)
    ?_ world moves ⟨head, shared⟩ guarded
  rintro state move ⟨before, holds⟩ ⟨now, clear⟩
  exact shared_step holds move now (clear (one_store_step ls state move holds.store))

/-- What the invariant means for whoever reads the shared ref. -/
theorem shared_loses_nothing (ls : Lifestream) (world : World) (head : Option ObjectId)
    (shared : Shared ls world head) (free : CollisionFree ls.store world.device) :
    world.LosesNothing ls := by
  have pointed := get_ref_log ls world.device head world.journal shared.log
    (shared.healthy.unreadableRef auditRef)
  have read := (chain_from_log ls world.device head world.journal shared.log free).of_readable
    shared.healthy.unreadable
  refine ⟨world.journal, ?_, fun _ member => member, ?_⟩
  · simp only [finalChain, pointed, fromLifestream, read, bind, Except.bind]
  · intro id member
    obtain ⟨standing, known, revoked⟩ := shared.revoked id member
    rw [← table_of_standings] at known
    simp only [GrantTable.standings] at known
    obtain ⟨state, found, rfl⟩ := Option.map_eq_some_iff.mp known
    simp only [GrantTable.revokes, found]
    exact revoked

/-- The world of a store before any broker is opened on it. -/
def World.start (device : Device) (journal : List AuditEntry) : World := ⟨device, [], journal, []⟩

/-- However brokers are opened on a store and their calls interleaved, as long as
nobody logs from a stale head, the final chain has every entry logged and its
replay every revocation answered. -/
theorem attentive_brokers_lose_nothing (ls : Lifestream) (device : Device)
    (head : Option ObjectId) (earlier : List AuditEntry) (healthy : device.Healthy)
    (log : LogAt ls device head earlier) (moves : List Move)
    (attentive : Guarded (worldStep ls) Attentive (.start device earlier) moves)
    (free : CollisionFree ls.store (run (worldStep ls) (.start device earlier) moves).device) :
    (run (worldStep ls) (.start device earlier) moves).LosesNothing ls := by
  have initial : Shared ls (.start device earlier) head := by
    apply Shared.mk healthy log
    · intro broker member
      cases member
    · intro broker member
      cases member
    · intro id member
      cases member
  obtain ⟨later, shared⟩ := shared_run ls _ head moves initial attentive free
  exact shared_loses_nothing ls _ later shared free

instance : ∀ world move, Decidable (Attentive world move)
  | _, .openBroker _ => inferInstanceAs (Decidable True)
  | world, .call index draw call =>
      match found : world.brokers[index]? with
      | none => isTrue fun broker present => by rw [found] at present; contradiction
      | some broker =>
          match logs : eventOf broker draw call with
          | none => isTrue fun other present event logged => by
              rw [found] at present
              cases present
              rw [logs] at logged
              contradiction
          | some event =>
              decidable_of_iff (world.device.getRef auditRef = .ok broker.head ∧
                  event.Encodable ∧ ∀ id ∈ event.grants, ∀ entry ∈ world.journal,
                    entry.event.grants ≠ some id)
                ⟨fun holds other present event logged => by
                  rw [found] at present
                  cases present
                  rw [logs] at logged
                  cases logged
                  exact holds,
                fun attentive => attentive broker found event logs⟩

/-- The second broker reloads before it revokes what the first granted. -/
def politeMoves : List Move :=
  [.openBroker .denyAll, .openBroker .denyAll,
    .call 0 (sampleDraw 10 1) (.grant "app" (samplePath "/data") Rights.READ Limits.none),
    .call 1 (sampleDraw 11 2) .reload,
    .call 1 (sampleDraw 12 2) (.revoke (sampleId 1))]

theorem polite_brokers_lose_nothing :
    (run (worldStep sampleStore) (.start Device.fresh []) politeMoves).LosesNothing sampleStore :=
  attentive_brokers_lose_nothing sampleStore Device.fresh none [] fresh_healthy
    (fresh_log sampleStore) politeMoves (by decide +kernel) (by decide +kernel)

/-- The second broker has seen the grant but not its revocation, and logs a grant
of its own over it. -/
def staleMoves : List Move :=
  [.openBroker .denyAll, .openBroker .denyAll,
    .call 0 (sampleDraw 10 1) (.grant "app" (samplePath "/data") Rights.READ Limits.none),
    .call 1 (sampleDraw 11 2) .reload,
    .call 0 (sampleDraw 12 2) (.revoke (sampleId 1)),
    .call 1 (sampleDraw 13 2) (.grant "app" (samplePath "/more") Rights.READ Limits.none)]

theorem stale_broker_drops_revocation :
    let world := run (worldStep sampleStore) (.start Device.fresh []) staleMoves
    Device.fresh.Healthy ∧ CollisionFree sampleStore.store world.device ∧
      sampleId 1 ∈ world.revoked ∧ ¬world.LosesNothing sampleStore :=
  ⟨fresh_healthy, by decide +kernel⟩

end HorizonOs.Weave
