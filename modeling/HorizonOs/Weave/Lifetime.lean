import HorizonOs.Weave.Authority
import HorizonOs.Weave.Replay

/-!
# Lives of a store

One broker at a time on a store, opened and reopened, while the disk behaves as
it likes: every deed has its own faults. What an admitted access proves about
its handle, its grant and the grants's past, over everything that ever happened
to the store.
-/

namespace HorizonOs.Weave

open HorizonOs.Lib.ByteCodec HorizonOs.Lib.Text HorizonOs.Lib.Runs
open HorizonOs.Lifestream

set_option autoImplicit false

/-- How the system calls of one deed will go. -/
structure Weather where
  faults : List (Option Fault)
  unreadable : ObjectId → Option String
  unreadableRef : String → Option String

def Weather.fair : Weather := ⟨[], fun _ => none, fun _ => none⟩

def inWeather (device : Device) (weather : Weather) : Device :=
  { device with
    faults := weather.faults
    unreadable := weather.unreadable
    unreadableRef := weather.unreadableRef }

inductive Deed where
  | openBroker (policy : Policy)
  | call (draw : Draw) (call : Call)
  deriving DecidableEq

/-- A store and the broker open on it, if one is. All but these two are history
variables: what was logged, the handles last minted in this session, and the
revocations and accesses ever answered with success. -/
structure Life where
  device : Device
  broker : Option Broker
  journal : List AuditEntry
  minted : GrantId → Option Secret
  revoked : List GrantId
  used : List GrantId

def mintedBy (minted : GrantId → Option Secret) (result : EStateM.Result Error Session Answer) :
    GrantId → Option Secret :=
  match result with
  | .ok (.capability cap) _ => Function.update minted cap.grant (some cap.secret)
  | _ => minted

def usedBy (call : Call) (result : EStateM.Result Error Session Answer) : List GrantId :=
  match call, result with
  | .access cap _ _, .ok _ _ => [cap.grant]
  | _, _ => []

def Life.after (life : Life) (call : Call) (result : EStateM.Result Error Session Answer) :
    Life where
  device := (finalState result).device
  broker := some (finalState result).broker
  journal := (finalState result).journal
  minted := mintedBy life.minted result
  revoked := revokedBy call result ++ life.revoked
  used := usedBy call result ++ life.used

/-- The session of the life's broker in the given weather. -/
def Life.session (life : Life) (broker : Broker) (weather : Weather) : Session :=
  ⟨broker, inWeather life.device weather, life.journal⟩

def lifeStep (ls : Lifestream) (life : Life) : Weather × Deed → Life
  | (weather, .openBroker policy) =>
      { life with
        device := inWeather life.device weather
        broker := (openBroker ls policy (inWeather life.device weather)).toOption
        minted := fun _ => none }
  | (weather, .call draw call) =>
      match life.broker with
      | none => life
      | some broker => life.after call (perform draw call (life.session broker weather))

/-- A store on which no broker was ever opened. -/
def Life.start (device : Device) : Life := ⟨device, none, [], fun _ => none, [], []⟩

/-! ## The condition -/

/-- The path a grant names is text. -/
def Event.TextualGrant : Event → Prop
  | .grant _ _ resource _ _ _ => resource.Utf8Path
  | _ => True

/-- The grant a call sets out to revoke. -/
def Call.target : Call → Option GrantId
  | .revoke id => some id
  | _ => none

/-- What is logged fits the codec and names granted paths in text, a new grant
has an id of its own, and a revocation finds its grant revoked already only when
a revocation was logged. -/
def Lawful (life : Life) : Weather × Deed → Prop
  | (_, .openBroker _) => True
  | (_, .call draw call) =>
      ∀ broker ∈ life.broker,
        (∀ event ∈ eventOf broker draw call, event.Fits ∧ event.TextualGrant ∧
          ∀ id ∈ event.grants, ∀ entry ∈ life.journal, entry.event.grants ≠ some id) ∧
        ∀ id ∈ call.target, ∀ state ∈ broker.grants.lookup id, state.revoked = true →
          ∃ entry ∈ life.journal, entry.event = .revoke id

/-! ## Disks in any weather -/

theorem weather_keeps (store : ObjectStore) (device : Device) (weather : Weather) :
    Keeps store device (inWeather device weather) :=
  ⟨fun _ _ found => found, List.Subset.refl _, id⟩

/-- The audit ref names this head, or is torn and names none. -/
def Names (device : Device) (head : Option ObjectId) : Prop :=
  device.refs.lookup auditRef = head.map refText ∨
    ∃ content, device.refs.lookup auditRef = some content ∧ content.length < 64

theorem names_get_ref (device : Device) (head found : Option ObjectId) (names : Names device head)
    (read : device.getRef auditRef = .ok found) :
    (found = head ∨ found = none) ∧ Names device found := by
  rcases names with named | ⟨content, torn, short⟩
  · cases head with
    | none =>
        simp only [Device.getRef, named, Option.map_none] at read
        cases read
        exact ⟨.inl rfl, .inl named⟩
    | some id =>
        simp only [Device.getRef, named, Option.map_some] at read
        split at read
        · contradiction
        · rw [parse_ref_text] at read
          cases read
          exact ⟨.inl rfl, .inl named⟩
  · cases found with
    | none => exact ⟨.inr rfl, .inr ⟨content, torn, short⟩⟩
    | some id =>
        simp only [Device.getRef, torn] at read
        split at read
        · contradiction
        · exact absurd read (parse_ref_of_short content short id)

/-- The log gives back every event that matters to how grants stand. -/
theorem persisted_standings (entries : List AuditEntry)
    (textual : ∀ entry ∈ entries, entry.event.TextualGrant) :
    standingsOf ((entries.map AuditEntry.persisted).map AuditEntry.event) =
      standingsOf (entries.map AuditEntry.event) := by
  induction entries using List.reverseRecOn with
  | nil => rfl
  | append_singleton entries last ih =>
      have earlier := ih fun entry member => textual entry (List.mem_append_left _ member)
      have recorded : ∀ standings : Standings,
          standings.record last.persisted.event = standings.record last.event := by
        intro standings
        have path := textual last (List.mem_append_right _ (List.mem_singleton_self _))
        rw [AuditEntry.persisted]
        cases event : last.event with
        | grant id principal resource rights expiresUnix maxUses =>
            rw [event] at path
            rw [Event.persisted, persisted_of_utf8 resource path]
        | _ => rfl
      simp only [List.map_append, List.map_cons, List.map_nil, standings_of_snoc, earlier,
        recorded]

/-- A replay that succeeds gives the table of what the chain persists. -/
theorem replay_table (ls : Lifestream) (device : Device) (head : Option ObjectId)
    (entries : List AuditEntry) (grants : GrantTable) (seq : UInt64)
    (sound : Sound ls.store device) (free : CollisionFree ls.store device)
    (linked : Linked ls device head entries.reverse)
    (replayed : replay ls device head = .ok (grants, seq)) :
    grants = tableOf (entries.map AuditEntry.persisted) := by
  have read : Reads device (chainFrom ls device head) (entries.map AuditEntry.persisted) := by
    cases head with
    | none =>
        generalize reversed : entries.reverse = chain at linked
        cases linked
        rw [List.reverse_eq_nil_iff.mp reversed]
        exact .inl rfl
    | some id =>
        have walked := read_chain_linked ls device id _ sound free linked
        rwa [← List.map_reverse, List.reverse_reverse] at walked
  rcases read with chain | ⟨_, error, chain⟩
  · simp only [replay, chain, bind, Except.bind] at replayed
    cases replayed
    rfl
  · simp only [replay, chain, bind, Except.bind] at replayed
    contradiction

/-- A replay that succeeds gives a table that implements the ledger of the chain. -/
theorem replay_linked (ls : Lifestream) (device : Device) (head : Option ObjectId)
    (entries : List AuditEntry) (grants : GrantTable) (seq : UInt64)
    (sound : Sound ls.store device) (free : CollisionFree ls.store device)
    (linked : Linked ls device head entries.reverse)
    (textual : ∀ entry ∈ entries, entry.event.TextualGrant)
    (replayed : replay ls device head = .ok (grants, seq)) :
    grants.standings = standingsOf (entries.map AuditEntry.event) := by
  rw [replay_table ls device head entries grants seq sound free linked replayed,
    table_of_standings]
  exact persisted_standings entries textual

/-! ## Handles -/

/-- A live secret is the one minted last for its grant. -/
def Mints (grants : GrantTable) (minted : GrantId → Option Secret) : Prop :=
  ∀ id state secret, grants.lookup id = some state → state.secret = some secret →
    minted id = some secret

theorem mints_adjust (grants : GrantTable) (minted : GrantId → Option Secret) (id : GrantId)
    (change : GrantState → GrantState) (same : ∀ state, (change state).secret = state.secret)
    (mints : Mints grants minted) : Mints (grants.adjust id change) minted := by
  intro other state secret found live
  rw [lookup_adjust] at found
  split at found
  case isTrue equal =>
    obtain ⟨before, known, rfl⟩ := Option.map_eq_some_iff.mp found
    rw [same] at live
    rw [equal]
    exact mints id before secret known live
  case isFalse => exact mints other state secret found live

theorem mints_prepare (broker : Broker) (draw : Draw) (call : Call)
    (minted : GrantId → Option Secret) (mints : Mints broker.grants minted) :
    Mints (prepare broker draw call) minted := by
  cases call with
  | access cap resource rights =>
      simp only [prepare]
      split
      · apply mints_adjust
        · exact fun _ => rfl
        · exact mints
      · exact mints
  | revoke id =>
      apply mints_adjust
      · exact fun _ => rfl
      · exact mints
  | _ => exact mints

theorem mints_insert (grants : GrantTable) (minted : GrantId → Option Secret) (id : GrantId)
    (state : GrantState) (secret : Secret) (live : state.secret = some secret)
    (mints : Mints grants minted) :
    Mints (grants.insert id state) (Function.update minted id (some secret)) := by
  intro other found otherSecret known shown
  by_cases same : other = id
  · subst same
    rw [AList.lookup_insert] at known
    cases known
    rw [Function.update_self, ← shown, live]
  · rw [AList.lookup_insert_ne same] at known
    rw [Function.update_of_ne same]
    exact mints other found otherSecret known shown

theorem mints_settle (session after : Session) (draw : Draw) (call : Call) (grants : GrantTable)
    (minted : GrantId → Option Secret) (mints : Mints grants minted) :
    Mints (settle session.broker draw grants call)
      (mintedBy minted (answerIn (verdict session.broker draw call) after)) := by
  cases call with
  | grant principal resource rights limits => exact mints_insert _ _ _ _ _ rfl mints
  | request principal resource rights =>
      cases decided : session.broker.policy.decide principal resource rights with
      | none =>
          simp only [settle, verdict, decided]
          exact mints
      | some decision =>
          simp only [settle, verdict, decided]
          exact mints_insert _ _ _ _ _ rfl mints
  | access cap resource rights =>
      cases refused : refusal session.broker draw.now cap resource rights with
      | none =>
          simp only [settle, verdict, refused]
          exact mints
      | some reason =>
          simp only [settle, verdict, refused]
          exact mints
  | _ => exact mints

theorem mints_reissued (grants : GrantTable) (minted : GrantId → Option Secret) (id : GrantId)
    (secret : Secret) (mints : Mints grants minted) :
    Mints (grants.adjust id fun state => { state with secret := some secret })
      (Function.update minted id (some secret)) := by
  intro other state shown found live
  rw [lookup_adjust] at found
  split at found
  case isTrue equal =>
    obtain ⟨before, known, rfl⟩ := Option.map_eq_some_iff.mp found
    cases live
    rw [equal, Function.update_self]
  case isFalse different =>
    rw [Function.update_of_ne different]
    exact mints other state shown found live

theorem mints_replayed (entries : List AuditEntry) (minted : GrantId → Option Secret) :
    Mints (tableOf entries) minted := by
  induction entries using List.reverseRecOn with
  | nil =>
      intro id state secret found
      simp [tableOf] at found
  | append_singleton entries last ih =>
      have stepped : tableOf (entries ++ [last]) = applyEntry (tableOf entries) last := by
        simp [tableOf, List.foldl_append]
      rw [stepped, applyEntry]
      cases last.event with
      | grant id principal resource rights expiresUnix maxUses =>
          intro other state secret found live
          by_cases same : other = id
          · subst same
            rw [AList.lookup_insert] at found
            cases found
            contradiction
          · rw [AList.lookup_insert_ne same] at found
            exact ih other state secret found live
      | use id principal resource rights => exact mints_adjust _ _ _ _ (fun _ => rfl) ih
      | deny principal resource rights reason => exact ih
      | revoke id => exact mints_adjust _ _ _ _ (fun _ => rfl) ih

/-! ## Calls and the history -/

theorem room_of_unspent (uses limit : UInt32) (unspent : spent uses (some limit) = false) :
    uses.toNat < limit.toNat := by
  simp only [spent, decide_eq_false_iff_not, UInt32.not_le] at unspent
  exact UInt32.lt_iff_toNat_lt.mp unspent

/-- What a broker logs is admissible when its table honours the history. -/
theorem admissible_event (broker : Broker) (draw : Draw) (call : Call) (event : Event)
    (events : List Event) (logs : eventOf broker draw call = some event)
    (fresh : ∀ id, event.grants = some id → ∀ earlier ∈ events, earlier.grants ≠ some id) :
    Admissible events broker.grants.standings event := by
  have standing : ∀ id state, broker.grants.lookup id = some state →
      broker.grants.standings id = some state.standing := by
    intro id state found
    rw [GrantTable.standings, found]
    rfl
  cases call with
  | grant principal resource rights limits =>
      cases logs
      exact fresh _ rfl
  | request principal resource rights =>
      cases decided : broker.policy.decide principal resource rights with
      | none =>
          simp only [eventOf, decided] at logs
          cases logs
          trivial
      | some decision =>
          simp only [eventOf, decided] at logs
          cases logs
          exact fresh _ rfl
  | access cap resource rights =>
      cases refused : refusal broker draw.now cap resource rights with
      | none =>
          simp only [eventOf, refused] at logs
          cases logs
          obtain ⟨state, found, _, _, _, unspent, _⟩ :=
            refusal_none broker draw.now cap resource rights refused
          refine ⟨state.standing, standing _ state found, ?_⟩
          intro limit limited
          change state.grant.maxUses = some limit at limited
          rw [limited] at unspent
          exact room_of_unspent state.uses limit unspent
      | some reason =>
          simp only [eventOf, refused] at logs
          cases logs
          trivial
  | revoke id =>
      obtain ⟨state, found, _, rfl⟩ := revoke_known broker draw id event logs
      exact ⟨state.standing, standing id state found⟩
  | reissue id => contradiction
  | reload => contradiction

/-- What a call does to the table before it logs takes nothing back. -/
theorem authority_prepare (broker : Broker) (draw : Draw) (call : Call) (events : List Event)
    (used : List GrantId) (chain : Standings)
    (authority : Authority events used broker.grants.standings chain) :
    Authority events used (prepare broker draw call).standings chain := by
  have adjusted : ∀ (id : GrantId) (change : GrantState → GrantState)
      (abstract : Standing → Standing),
      (∀ state, (change state).standing = abstract state.standing) →
      (∀ before, broker.grants.standings id = some before →
        (abstract before).grantEvent id = before.grantEvent id ∧
          (before.revoked = true → (abstract before).revoked = true) ∧
          ∀ limit, before.maxUses = some limit →
            before.uses.toNat ≤ (abstract before).uses.toNat ∧
              (abstract before).uses.toNat ≤ limit.toNat) →
      Authority events used (broker.grants.adjust id change).standings chain := by
    intro id change abstract commutes worse
    apply authority_ahead authority
    intro other standing found
    rw [adjust_standings _ _ _ _ commutes] at found
    by_cases same : other = id
    · subst same
      rw [Function.update_self] at found
      obtain ⟨before, known, rfl⟩ := Option.map_eq_some_iff.mp found
      exact ⟨before, known, worse before known⟩
    · rw [Function.update_of_ne same] at found
      exact ⟨standing, found, rfl, fun flag => flag, fun limit limited =>
        ⟨le_refl _, (authority.table.counted other standing limit found limited).2⟩⟩
  cases call with
  | access cap resource rights =>
      cases refused : refusal broker draw.now cap resource rights with
      | none =>
          simp only [prepare, refused]
          apply adjusted cap.grant GrantState.used Standing.used
          · intro state
            rfl
          · intro before known
            refine ⟨rfl, fun flag => flag, ?_⟩
            intro limit limited
            obtain ⟨state, found, _, _, _, unspent, _⟩ :=
              refusal_none broker draw.now cap resource rights refused
            rw [GrantTable.standings, found] at known
            cases known
            change state.grant.maxUses = some limit at limited
            rw [limited] at unspent
            have room := room_of_unspent state.uses limit unspent
            have more : (state.standing.used).uses.toNat = state.uses.toNat + 1 :=
              uses_step state.uses limit room
            change state.uses.toNat ≤ _ ∧ _
            rw [more]
            omega
      | some reason =>
          simp only [prepare, refused]
          exact authority
  | revoke id =>
      apply adjusted id GrantState.withRevoked Standing.withRevoked
      · intro state
        rfl
      · intro before known
        exact ⟨rfl, fun _ => rfl, fun limit limited =>
          ⟨le_refl _, (authority.table.counted id before limit known limited).2⟩⟩
  | _ => exact authority

/-- The answer to a call that logged counts a use exactly when its event does. -/
theorem used_by_event (broker : Broker) (draw : Draw) (call : Call) (event : Event)
    (after : Session) (logs : eventOf broker draw call = some event) :
    usedBy call (answerIn (verdict broker draw call) after) = event.uses.toList := by
  cases call with
  | access cap resource rights =>
      cases refused : refusal broker draw.now cap resource rights <;>
        simp only [eventOf, refused] at logs <;>
        cases logs <;>
        simp only [verdict, refused] <;>
        rfl
  | grant principal resource rights limits =>
      cases logs
      rfl
  | request principal resource rights =>
      cases decided : broker.policy.decide principal resource rights <;>
        simp only [eventOf, decided] at logs <;>
        cases logs <;>
        rfl
  | revoke id =>
      obtain ⟨state, _, _, rfl⟩ := revoke_known broker draw id event logs
      rfl
  | reissue id => contradiction
  | reload => contradiction

theorem revoked_by_event (broker : Broker) (draw : Draw) (call : Call) (event : Event)
    (after : Session) (logs : eventOf broker draw call = some event) :
    ∀ id ∈ revokedBy call (answerIn (verdict broker draw call) after), event = .revoke id := by
  intro id member
  cases call with
  | revoke target =>
      cases List.mem_singleton.mp member
      obtain ⟨state, _, _, same⟩ := revoke_known broker draw id event logs
      exact same
  | _ => cases member

/-! ## The invariant -/

def Life.events (life : Life) : List Event := life.journal.map AuditEntry.event

/-- Where the chain of these entries leaves every grant. -/
def chainStandings (kept : List AuditEntry) : Standings := standingsOf (kept.map AuditEntry.event)

/-- A broker at the head of the chain, whose table grants nothing the history
does not. -/
structure Seated (ls : Lifestream) (life : Life) (head : Option ObjectId) (kept : List AuditEntry)
    (broker : Broker) : Prop where
  store : broker.ls = ls
  head : broker.head = head
  authority : Authority life.events life.used broker.grants.standings (chainStandings kept)
  mints : Mints broker.grants life.minted

/-- The chain at the head has some of what was logged, and grants nothing the
history does not. -/
structure Lasts (ls : Lifestream) (life : Life) (head : Option ObjectId)
    (kept : List AuditEntry) : Prop where
  sound : Sound ls.store life.device
  names : Names life.device head
  linked : Linked ls life.device head kept.reverse
  subset : kept ⊆ life.journal
  textual : ∀ entry ∈ life.journal, entry.event.TextualGrant
  authority : Authority life.events life.used (chainStandings kept) (chainStandings kept)
  revoked : ∀ id ∈ life.revoked, .revoke id ∈ life.events
  seated : ∀ broker, life.broker = some broker → Seated ls life head kept broker

section Step

variable {ls : Lifestream} {life : Life} {head : Option ObjectId} {kept : List AuditEntry}

/-- Whoever rereads the log, in whatever weather, gets the table of the chain or of
no chain at all. -/
theorem reread_outcome (lasts : Lasts ls life head kept) (weather : Weather)
    (free : CollisionFree ls.store life.device) (found : Option ObjectId) (grants : GrantTable)
    (seq : UInt64) (read : (inWeather life.device weather).getRef auditRef = .ok found)
    (replayed : replay ls (inWeather life.device weather) found = .ok (grants, seq)) :
    ∃ rest, rest ⊆ kept ∧ Names (inWeather life.device weather) found ∧
      Linked ls (inWeather life.device weather) found rest.reverse ∧
      grants.standings = chainStandings rest ∧
      Authority life.events life.used (chainStandings rest) (chainStandings rest) := by
  have keeps := weather_keeps ls.store life.device weather
  obtain ⟨known, names⟩ :=
    names_get_ref (inWeather life.device weather) head found lasts.names read
  have readable : ∀ rest : List AuditEntry, rest ⊆ kept →
      Linked ls (inWeather life.device weather) found rest.reverse →
      grants.standings = chainStandings rest := by
    intro rest inside linked
    apply replay_linked ls _ found rest grants seq (keeps.sound lasts.sound) free linked
    · exact fun entry member => lasts.textual entry (lasts.subset (inside member))
    · exact replayed
  rcases known with same | lost
  · have linked : Linked ls (inWeather life.device weather) found kept.reverse := by
      rw [same]
      exact lasts.linked.grow keeps
    exact ⟨kept, List.Subset.refl _, names, linked, readable kept (List.Subset.refl _) linked,
      lasts.authority⟩
  · have linked : Linked ls (inWeather life.device weather) found ([] : List AuditEntry).reverse := by
      rw [lost]
      exact .nil
    exact ⟨[], List.nil_subset _, names, linked, readable [] (List.nil_subset _) linked,
      authority_lost lasts.authority⟩

theorem table_mints (ls : Lifestream) (device : Device) (head : Option ObjectId)
    (grants : GrantTable) (seq : UInt64) (minted : GrantId → Option Secret)
    (replayed : replay ls device head = .ok (grants, seq)) : Mints grants minted := by
  simp only [replay, bind, Except.bind] at replayed
  split at replayed
  · contradiction
  · cases replayed
    exact mints_replayed _ minted

theorem open_broker_reads (policy : Policy) (device : Device) (broker : Broker)
    (opened : openBroker ls policy device = .ok broker) :
    broker.ls = ls ∧ device.getRef auditRef = .ok broker.head ∧
      replay ls device broker.head = .ok (broker.grants, broker.seq) := by
  simp only [openBroker, bind, Except.bind] at opened
  split at opened
  · contradiction
  case h_2 head named =>
    split at opened
    · contradiction
    case h_2 result replayed =>
      cases opened
      refine ⟨rfl, ?_, replayed⟩
      cases read : device.getRef auditRef with
      | error error =>
          rw [read] at named
          contradiction
      | ok found =>
          rw [read] at named
          cases named
          rfl

theorem lasts_open (lasts : Lasts ls life head kept) (weather : Weather) (policy : Policy)
    (free : CollisionFree ls.store life.device) :
    ∃ later rest, Lasts ls (lifeStep ls life (weather, .openBroker policy)) later rest := by
  have keeps := weather_keeps ls.store life.device weather
  simp only [lifeStep]
  cases opened : openBroker ls policy (inWeather life.device weather) with
  | error error =>
      refine ⟨head, kept, keeps.sound lasts.sound, lasts.names, lasts.linked.grow keeps,
        lasts.subset, lasts.textual, lasts.authority, lasts.revoked, ?_⟩
      intro broker present
      contradiction
  | ok broker =>
      obtain ⟨store, read, replayed⟩ := open_broker_reads policy _ broker opened
      obtain ⟨rest, inside, names, linked, table, authority⟩ :=
        reread_outcome lasts weather free broker.head broker.grants broker.seq read replayed
      refine ⟨broker.head, rest, keeps.sound lasts.sound, names, linked,
        List.Subset.trans inside lasts.subset, lasts.textual, authority, lasts.revoked, ?_⟩
      intro other present
      cases present
      refine ⟨store, rfl, ?_, table_mints ls _ _ _ _ _ replayed⟩
      rw [table]
      exact authority

/-- A reload seats the broker at the head it reads, or leaves it where it was. -/
theorem lasts_reload (lasts : Lasts ls life head kept) (weather : Weather) (draw : Draw)
    (broker : Broker) (present : life.broker = some broker)
    (free : CollisionFree ls.store life.device) :
    ∃ later rest, Lasts ls (lifeStep ls life (weather, .call draw .reload)) later rest := by
  have keeps := weather_keeps ls.store life.device weather
  have seated := lasts.seated broker present
  simp only [lifeStep, present, Life.after]
  obtain ⟨error, left⟩ | ⟨other, changed, reread, store, left⟩ :=
    reload_outcome (life.session broker weather) draw
  · rw [left]
    refine ⟨head, kept, keeps.sound lasts.sound, lasts.names, lasts.linked.grow keeps,
      lasts.subset, lasts.textual, lasts.authority, lasts.revoked, ?_⟩
    intro same known
    cases known
    exact ⟨seated.store, seated.head, seated.authority, seated.mints⟩
  · rw [left]
    change broker.reload (inWeather life.device weather) = _ at reread
    change other.ls = broker.ls at store
    simp only [Broker.reload, bind, Except.bind] at reread
    split at reread
    · contradiction
    case h_2 found named =>
      have read : (inWeather life.device weather).getRef auditRef = .ok found := by
        cases ref : (inWeather life.device weather).getRef auditRef with
        | error error =>
            rw [ref] at named
            contradiction
        | ok value =>
            rw [ref] at named
            cases named
            rfl
      split at reread
      · cases reread
        refine ⟨head, kept, keeps.sound lasts.sound, lasts.names, lasts.linked.grow keeps,
          lasts.subset, lasts.textual, lasts.authority, lasts.revoked, ?_⟩
        intro same known
        cases known
        exact ⟨seated.store, seated.head, seated.authority, seated.mints⟩
      · split at reread
        · contradiction
        case h_2 result replayed =>
          cases reread
          rw [seated.store] at replayed
          obtain ⟨rest, inside, names, linked, table, authority⟩ :=
            reread_outcome lasts weather free found result.1 result.2 read replayed
          refine ⟨found, rest, keeps.sound lasts.sound, names, linked,
            List.Subset.trans inside lasts.subset, lasts.textual, authority, lasts.revoked, ?_⟩
          intro same known
          cases known
          refine ⟨seated.store, rfl, ?_, table_mints ls _ _ _ _ _ replayed⟩
          change Authority _ _ (GrantTable.standings result.1) _
          rw [table]
          exact authority

/-- A call that logs nothing leaves the history and how the grants stand. -/
theorem lasts_silent (lasts : Lasts ls life head kept) (weather : Weather) (draw : Draw)
    (call : Call) (broker : Broker) (present : life.broker = some broker)
    (silent : eventOf broker draw call = none) (rereads : call.isReload = false)
    (lawful : Lawful life (weather, .call draw call)) :
    Lasts ls (lifeStep ls life (weather, .call draw call)) head kept := by
  have keeps := weather_keeps ls.store life.device weather
  have seated := lasts.seated broker present
  have unused : usedBy call (perform draw call (life.session broker weather)) = [] := by
    cases call with
    | access cap resource rights =>
        simp only [eventOf] at silent
        split at silent <;> contradiction
    | _ => rfl
  have revoked : ∀ id ∈ revokedBy call (perform draw call (life.session broker weather)),
      .revoke id ∈ life.events := by
    intro id member
    cases call with
    | revoke target =>
        cases answered : perform draw (.revoke target) (life.session broker weather) with
        | error error after =>
            rw [answered] at member
            cases member
        | ok answer after =>
            rw [answered] at member
            rw [List.mem_singleton.mp member]
            rcases revoke_answered _ draw target answer after answered with logs | known
            · change eventOf broker draw _ = _ at logs
              rw [silent] at logs
              contradiction
            · obtain ⟨state, found, flag⟩ := known
              obtain ⟨entry, inside, event⟩ := (lawful broker present).2 target rfl state found flag
              rw [← event]
              exact List.mem_map_of_mem inside
    | _ => cases member
  obtain ⟨grants, left, unchanged⟩ :=
    perform_silent (life.session broker weather) draw call silent rereads
  have table : grants.standings = broker.grants.standings ∧
      Mints grants (mintedBy life.minted (perform draw call (life.session broker weather))) := by
    rcases unchanged with ⟨same, unminted⟩ | ⟨id, rfl, answered, same⟩
    · rw [same]
      refine ⟨rfl, ?_⟩
      cases result : perform draw call (life.session broker weather) with
      | error error after => exact seated.mints
      | ok answer after =>
          cases answer with
          | capability cap => exact absurd result (unminted cap after)
          | _ => exact seated.mints
    · rw [answered, same]
      exact ⟨adjust_standings_same _ _ _ fun _ => rfl, mints_reissued _ _ _ _ seated.mints⟩
  simp only [lifeStep, present, Life.after, unused, left, List.nil_append]
  refine ⟨keeps.sound lasts.sound, lasts.names, lasts.linked.grow keeps, lasts.subset,
    lasts.textual, lasts.authority, ?_, ?_⟩
  · intro id member
    rcases List.mem_append.mp member with new | old
    · exact revoked id new
    · exact lasts.revoked id old
  · intro other known
    cases known
    refine ⟨seated.store, seated.head, ?_, table.2⟩
    change Authority _ _ grants.standings _
    rw [table.1]
    exact seated.authority

/-- A call whose log write goes through adds its event to the history and to both
views. -/
theorem lasts_logged (lasts : Lasts ls life head kept) (weather : Weather) (draw : Draw)
    (call : Call) (broker : Broker) (present : life.broker = some broker) (entry : AuditEntry)
    (logs : eventOf broker draw call = some entry.event) (textual : entry.event.TextualGrant)
    (fresh : ∀ id, entry.event.grants = some id → ∀ earlier ∈ life.journal,
      earlier.event.grants ≠ some id)
    (device : Device) (keeps : Keeps ls.store life.device device)
    (pointed : device.refs.lookup auditRef = some (refText entry.id))
    (linked : Linked ls device (some entry.id) (entry :: kept.reverse)) :
    Lasts ls (life.after call (answerIn (verdict broker draw call)
      (settled (life.session broker weather) draw call device entry))) (some entry.id)
      (kept ++ [entry]) := by
  have seated := lasts.seated broker present
  have events : (life.journal ++ [entry]).map AuditEntry.event = life.events ++ [entry.event] := by
    rw [List.map_append, List.map_singleton]
    rfl
  have recorded : chainStandings (kept ++ [entry]) = (chainStandings kept).record entry.event := by
    rw [chainStandings, chainStandings, List.map_append, List.map_singleton, standings_of_snoc]
  have authority := authority_logged seated.authority entry.event
    (admissible_event broker draw call entry.event life.events logs (by
      intro id granted earlier member
      obtain ⟨other, inside, rfl⟩ := List.mem_map.mp member
      exact fresh id granted other inside))
  rw [← call_standings broker draw call entry.event logs, ← recorded, ← events,
    ← used_by_event broker draw call entry.event
      (settled (life.session broker weather) draw call device entry) logs] at authority
  simp only [Life.after, final_answer]
  refine ⟨keeps.sound lasts.sound, .inl pointed, ?_, ?_, ?_, authority_reread authority, ?_, ?_⟩
  · rw [List.reverse_append]
    exact linked
  · apply List.append_subset.mpr
    exact ⟨List.Subset.trans lasts.subset (List.subset_append_left _ _),
      List.subset_append_right _ _⟩
  · intro other member
    rcases List.mem_append.mp member with old | new
    · exact lasts.textual other old
    · rw [List.mem_singleton.mp new]
      exact textual
  · intro gone member
    change _ ∈ (life.journal ++ [entry]).map AuditEntry.event
    rw [events]
    rcases List.mem_append.mp member with new | old
    · rw [revoked_by_event broker draw call entry.event _ logs gone new]
      exact List.mem_append_right _ (List.mem_singleton_self _)
    · exact List.mem_append_left _ (lasts.revoked gone old)
  · intro other known
    cases known
    refine ⟨seated.store, rfl, authority, ?_⟩
    apply mints_settle (life.session broker weather)
    exact mints_prepare broker draw call life.minted seated.mints

/-- A call whose log write fails leaves the chain, and a table that grants no more
than before. -/
theorem lasts_failed (lasts : Lasts ls life head kept) (weather : Weather) (draw : Draw)
    (call : Call) (broker : Broker) (present : life.broker = some broker) (error : Error)
    (device : Device) (keeps : Keeps ls.store life.device device)
    (named : device.refs.lookup auditRef = life.device.refs.lookup auditRef ∨
      ∃ content, device.refs.lookup auditRef = some content ∧ content.length < 64) :
    Lasts ls (life.after call (.error error
      { (life.session broker weather).withGrants (prepare broker draw call) with device })) head
      kept := by
  have seated := lasts.seated broker present
  have unused : ∀ after, usedBy call (.error error after) = [] := by
    intro after
    cases call <;> rfl
  have unrevoked : ∀ after, revokedBy call (.error error after) = [] := by
    intro after
    cases call <;> rfl
  have names : Names device head := by
    rcases named with same | torn
    · rw [Names, same]
      exact lasts.names
    · exact .inr torn
  simp only [Life.after, unused, unrevoked, List.nil_append]
  refine ⟨keeps.sound lasts.sound, names, lasts.linked.grow keeps, lasts.subset, lasts.textual,
    lasts.authority, lasts.revoked, ?_⟩
  intro other known
  cases known
  exact ⟨seated.store, seated.head, authority_prepare broker draw call _ _ _ seated.authority,
    mints_prepare broker draw call life.minted seated.mints⟩

theorem lasts_logging (lasts : Lasts ls life head kept) (weather : Weather) (draw : Draw)
    (call : Call) (broker : Broker) (event : Event) (present : life.broker = some broker)
    (logs : eventOf broker draw call = some event)
    (lawful : Lawful life (weather, .call draw call)) :
    ∃ later rest, Lasts ls (lifeStep ls life (weather, .call draw call)) later rest := by
  have keeps := weather_keeps ls.store life.device weather
  have seated := lasts.seated broker present
  obtain ⟨fits, textual, fresh⟩ := (lawful broker present).1 event logs
  simp only [lifeStep, present]
  obtain ⟨device, grows, ⟨id, performed, pointed, linked⟩ | ⟨_, ⟨error, performed⟩, named⟩⟩ :=
    logging_outcome (life.session broker weather) draw call event logs
  · change Grows broker.ls.store _ device at grows
    rw [seated.store] at grows
    have chain : Linked ls device (some id)
        (⟨id, broker.seq, draw.logNow, event⟩ :: kept.reverse) := by
      rw [← seated.store]
      apply linked fits
      change Linked broker.ls _ broker.head _
      rw [seated.store, seated.head]
      exact lasts.linked.grow keeps
    rw [performed]
    exact ⟨_, _, lasts_logged lasts weather draw call broker present
      ⟨id, broker.seq, draw.logNow, event⟩ logs textual fresh device
      (keeps.trans grows.toKeeps) pointed chain⟩
  · change Grows broker.ls.store _ device at grows
    rw [seated.store] at grows
    rw [performed]
    exact ⟨head, kept, lasts_failed lasts weather draw call broker present _ device
      (keeps.trans grows.toKeeps) named⟩

theorem lasts_step (lasts : Lasts ls life head kept) (deed : Weather × Deed)
    (lawful : Lawful life deed) (free : CollisionFree ls.store life.device) :
    ∃ later rest, Lasts ls (lifeStep ls life deed) later rest := by
  obtain ⟨weather, deed⟩ := deed
  cases deed with
  | openBroker policy => exact lasts_open lasts weather policy free
  | call draw call =>
      cases present : life.broker with
      | none =>
          simp only [lifeStep, present]
          exact ⟨head, kept, lasts⟩
      | some broker =>
          cases logs : eventOf broker draw call with
          | some event => exact lasts_logging lasts weather draw call broker event present logs lawful
          | none =>
              cases rereads : call.isReload with
              | false =>
                  exact ⟨head, kept,
                    lasts_silent lasts weather draw call broker present logs rereads lawful⟩
              | true =>
                  cases call with
                  | reload => exact lasts_reload lasts weather draw broker present free
                  | _ => contradiction

end Step

/-! ## Runs -/

def Life.OneStore (ls : Lifestream) (life : Life) : Prop :=
  ∀ broker, life.broker = some broker → broker.ls = ls

theorem life_step_keeps (ls : Lifestream) (life : Life) (deed : Weather × Deed)
    (store : life.OneStore ls) :
    (lifeStep ls life deed).OneStore ls ∧ Keeps ls.store life.device (lifeStep ls life deed).device := by
  obtain ⟨weather, deed⟩ := deed
  have keeps := weather_keeps ls.store life.device weather
  cases deed with
  | openBroker policy =>
      refine ⟨?_, keeps⟩
      intro broker known
      simp only [lifeStep] at known
      cases opened : openBroker ls policy (inWeather life.device weather) with
      | error error =>
          rw [opened] at known
          contradiction
      | ok other =>
          rw [opened] at known
          cases known
          exact open_broker_ls ls policy _ _ opened
  | call draw call =>
      cases present : life.broker with
      | none =>
          simp only [lifeStep, present]
          exact ⟨store, Keeps.refl _ _⟩
      | some broker =>
          have grows := perform_grows (life.session broker weather) draw call
          have same : broker.ls = ls := store broker present
          simp only [lifeStep, present]
          constructor
          · intro other known
            cases known
            exact grows.ls.trans same
          · have moved := grows.device.toKeeps
            change Keeps broker.ls.store _ _ at moved
            rw [same] at moved
            exact keeps.trans moved

/-- An invariant that steps keep where plaintexts do not collide is kept by a run at
whose end they do not. -/
theorem life_run_invariant (ls : Lifestream) (guard : Life → Weather × Deed → Prop)
    (invariant : Life → Prop)
    (kept : ∀ life deed, invariant life → guard life deed → CollisionFree ls.store life.device →
      invariant (lifeStep ls life deed))
    (life : Life) (deeds : List (Weather × Deed)) (initial : invariant life)
    (store : life.OneStore ls) (guarded : Guarded (lifeStep ls) guard life deeds)
    (free : CollisionFree ls.store (run (lifeStep ls) life deeds).device) :
    invariant (run (lifeStep ls) life deeds) := by
  -- what does not collide at the end did not collide on the way
  have inherited : ∀ life deed,
      ((lifeStep ls life deed).OneStore ls →
        CollisionFree ls.store (lifeStep ls life deed).device) →
      life.OneStore ls → CollisionFree ls.store life.device := by
    intro life deed after store
    obtain ⟨storeNext, keeps⟩ := life_step_keeps ls life deed store
    exact (after storeNext).before keeps.written
  obtain ⟨_, clear⟩ := guarded_inherited (lifeStep ls) guard
    (fun life => life.OneStore ls → CollisionFree ls.store life.device) inherited life deeds guarded
    fun _ => free
  have both := guarded_run_invariant (lifeStep ls) _
    (fun life => life.OneStore ls ∧ invariant life) (by
      rintro state deed ⟨store, holds⟩ ⟨now, clear⟩
      obtain ⟨storeNext, keeps⟩ := life_step_keeps ls state deed store
      exact ⟨storeNext, kept state deed holds now ((clear storeNext).before keeps.written)⟩)
    life deeds ⟨store, initial⟩ clear
  exact both.2

theorem lasts_run (ls : Lifestream) (life : Life) (deeds : List (Weather × Deed))
    (lasts : ∃ head kept, Lasts ls life head kept) (store : life.OneStore ls)
    (lawful : Guarded (lifeStep ls) Lawful life deeds)
    (free : CollisionFree ls.store (run (lifeStep ls) life deeds).device) :
    ∃ head kept, Lasts ls (run (lifeStep ls) life deeds) head kept := by
  apply life_run_invariant ls Lawful (fun life => ∃ head kept, Lasts ls life head kept)
  · rintro life deed ⟨head, kept, holds⟩ now clear
    exact lasts_step holds deed now clear
  · exact lasts
  · exact store
  · exact lawful
  · exact free

/-- The handle is the last one minted for its grant in this session, the grant was
never revoked with success, has not expired, and covers what is asked for. -/
structure Entitled (life : Life) (now : UInt64) (cap : Capability) (resource : Resource)
    (rights : Rights) : Prop where
  minted : life.minted cap.grant = some cap.secret
  unrevoked : cap.grant ∉ life.revoked
  terms : ∃ principal scope allowed expiresUnix maxUses,
    .grant cap.grant principal scope allowed expiresUnix maxUses ∈ life.events ∧
      (∀ expiry, expiresUnix = some expiry → now < expiry) ∧ scope.covers resource = true ∧
      allowed.contains rights = true

theorem entitled_of_admitted (ls : Lifestream) (life : Life) (head : Option ObjectId)
    (kept : List AuditEntry) (lasts : Lasts ls life head kept) (broker : Broker)
    (present : life.broker = some broker) (now : UInt64) (cap : Capability) (resource : Resource)
    (rights : Rights) (admitted : refusal broker now cap resource rights = none) :
    Entitled life now cap resource rights := by
  have seated := lasts.seated broker present
  obtain ⟨state, found, live, alive, timely, _, covered, contained⟩ :=
    refusal_none broker now cap resource rights admitted
  have standing : broker.grants.standings cap.grant = some state.standing := by
    rw [GrantTable.standings, found]
    rfl
  constructor
  · exact seated.mints cap.grant state cap.secret found live
  · intro member
    have flag := seated.authority.table.revoked cap.grant _ standing
      (lasts.revoked cap.grant member)
    change state.revoked = true at flag
    rw [alive] at flag
    contradiction
  · refine ⟨_, _, _, _, _, seated.authority.table.granted cap.grant _ standing, ?_, covered,
      contained⟩
    intro expiry same
    change state.grant.expiresUnix = some expiry at same
    rw [same] at timely
    simpa [expired] using timely

theorem admitted_of_lease (session after : Session) (draw : Draw) (cap : Capability)
    (resource : Resource) (rights : Rights) (answer : Answer)
    (answered : perform draw (.access cap resource rights) session = .ok answer after) :
    refusal session.broker draw.now cap resource rights = none := by
  cases refused : refusal session.broker draw.now cap resource rights with
  | none => rfl
  | some reason =>
      have logs : eventOf session.broker draw (.access cap resource rights) =
          some (.deny (principalOf session.broker cap.grant) resource rights reason) := by
        simp only [eventOf, refused]
      obtain ⟨device, _, ⟨id, performed, _⟩ | ⟨_, ⟨error, performed⟩, _⟩⟩ :=
        logging_outcome session draw _ _ logs
      · rw [answered] at performed
        simp only [verdict, refused, answerIn] at performed
        contradiction
      · rw [answered] at performed
        contradiction

/-- Over the whole life of a store, in any weather: whoever is given access is
entitled to it, and no grant is used more often than it allows. -/
theorem authority_over_lives (ls : Lifestream) (device : Device) (deeds : List (Weather × Deed))
    (sound : Sound ls.store device) (unlogged : device.refs.lookup auditRef = none)
    (lawful : Guarded (lifeStep ls) Lawful (.start device) deeds)
    (free : CollisionFree ls.store (run (lifeStep ls) (.start device) deeds).device) :
    let life := run (lifeStep ls) (.start device) deeds
    (∀ broker weather draw cap resource rights answer after, life.broker = some broker →
      perform draw (.access cap resource rights) (life.session broker weather) =
        .ok answer after → Entitled life draw.now cap resource rights) ∧
    ∀ id principal resource rights expiresUnix limit,
      .grant id principal resource rights expiresUnix (some limit) ∈ life.events →
        life.used.count id ≤ limit.toNat := by
  intro life
  have initial : Lasts ls (.start device) none [] := by
    refine ⟨sound, .inl unlogged, .nil, List.nil_subset _, ?_, authority_start, ?_, ?_⟩
    · intro entry member
      cases member
    · intro id member
      cases member
    · intro broker present
      contradiction
  have store : (Life.start device).OneStore ls := fun broker present => by contradiction
  obtain ⟨head, kept, lasts⟩ := lasts_run ls _ deeds ⟨none, [], initial⟩ store lawful free
  constructor
  · intro broker weather draw cap resource rights answer after present answered
    apply entitled_of_admitted ls life head kept lasts broker present
    exact admitted_of_lease _ after draw cap resource rights answer answered
  · exact lasts.authority.orderly.bounded

instance : DecidablePred Event.TextualGrant
  | .grant _ _ resource _ _ _ => inferInstanceAs (Decidable resource.Utf8Path)
  | .use _ _ _ _ => inferInstanceAs (Decidable True)
  | .deny _ _ _ _ => inferInstanceAs (Decidable True)
  | .revoke _ => inferInstanceAs (Decidable True)

instance : ∀ life deed, Decidable (Lawful life deed)
  | _, (_, .openBroker _) => inferInstanceAs (Decidable True)
  | life, (_, .call draw call) =>
      inferInstanceAs (Decidable (∀ broker ∈ life.broker,
        (∀ event ∈ eventOf broker draw call, event.Fits ∧ event.TextualGrant ∧
          ∀ id ∈ event.grants, ∀ entry ∈ life.journal, entry.event.grants ≠ some id) ∧
        ∀ id ∈ call.target, ∀ state ∈ broker.grants.lookup id, state.revoked = true →
          ∃ entry ∈ life.journal, entry.event = .revoke id))

/-- The sample broker's handle on `/data`. -/
def sampleHandle : Capability := ⟨sampleId 1, sampleMaster 3⟩

/-- A grant for one use, made in one session and reissued in the next. -/
def reissuedDeeds : List (Weather × Deed) :=
  [(.fair, .openBroker .denyAll),
    (.fair, .call (sampleDraw 10 1)
      (.grant "app" (samplePath "/data") Rights.READ ⟨some 99, some 1⟩)),
    (.fair, .openBroker .denyAll), (.fair, .call (sampleDraw 11 2) (.reissue (sampleId 1)))]

def reissuedLife : Life := run (lifeStep sampleStore) (.start Device.fresh) reissuedDeeds

/-- What an access for `/data/x` answers in this life. -/
def Life.tries (life : Life) (now : UInt64) : Option (Except Error Answer) :=
  life.broker.map fun broker => outcomeOf (perform (sampleDraw now 2)
    (.access sampleHandle (samplePath "/data/x") Rights.READ) (life.session broker .fair))

theorem reissued_handle_entitled :
    Entitled reissuedLife 12 sampleHandle (samplePath "/data/x") Rights.READ := by
  have tried : reissuedLife.tries 12 =
      some (.ok (.lease ⟨sampleId 1, samplePath "/data/x", Rights.READ⟩)) := by
    decide +kernel
  obtain ⟨broker, present, answered⟩ := Option.map_eq_some_iff.mp tried
  obtain ⟨after, performed⟩ : ∃ after, perform (sampleDraw 12 2)
      (.access sampleHandle (samplePath "/data/x") Rights.READ)
      (reissuedLife.session broker .fair) = .ok _ after := ok_of_outcome _ _ answered
  exact (authority_over_lives sampleStore Device.fresh reissuedDeeds
    (fresh_sound sampleStore.store) rfl (by decide +kernel) (by decide +kernel)).1
    broker .fair (sampleDraw 12 2) sampleHandle (samplePath "/data/x") Rights.READ _ after present
    performed

/-! ## A revocation that did not last -/

/-- The revocation fails for want of space; repeated, it succeeds without an entry;
reopened, the broker reissues the grant. -/
def resurrectingDeeds : List (Weather × Deed) :=
  [(.fair, .openBroker .denyAll),
    (.fair, .call (sampleDraw 10 1) (.grant "app" (samplePath "/data") Rights.READ Limits.none)),
    ({ Weather.fair with faults := [some ⟨"no space", none⟩] },
      .call (sampleDraw 11 2) (.revoke (sampleId 1))),
    (.fair, .call (sampleDraw 12 2) (.revoke (sampleId 1))), (.fair, .openBroker .denyAll),
    (.fair, .call (sampleDraw 13 2) (.reissue (sampleId 1)))]

theorem revoked_grant_admitted :
    let life := run (lifeStep sampleStore) (.start Device.fresh) resurrectingDeeds
    CollisionFree sampleStore.store life.device ∧ sampleId 1 ∈ life.revoked ∧
      life.tries 14 = some (.ok (.lease ⟨sampleId 1, samplePath "/data/x", Rights.READ⟩)) := by
  decide +kernel

end HorizonOs.Weave
