import HorizonOs.Weave.Calls
import Mathlib.Logic.Function.Basic

/-!
# The ledger

What the broker is for, without table, codec or store: a ledger is a sequence
of events, and every grant stands as the events recorded about it say. The
live table and the table replayed from the log are two implementations of it.
-/

namespace HorizonOs.Weave

open HorizonOs.Lib.ByteCodec HorizonOs.Lib.Runs
open HorizonOs.Lifestream

set_option autoImplicit false

/-- How a grant stands: everything about it but its handle and when it was given. -/
structure Standing where
  principal : PrincipalId
  resource : Resource
  rights : Rights
  expiresUnix : Option UInt64
  maxUses : Option UInt32
  revoked : Bool
  uses : UInt32
  deriving DecidableEq

abbrev Standings := GrantId → Option Standing

def Standing.used (standing : Standing) : Standing := { standing with uses := standing.uses + 1 }

def Standing.withRevoked (standing : Standing) : Standing := { standing with revoked := true }

/-- One event recorded. -/
def Standings.record (standings : Standings) : Event → Standings
  | .grant id principal resource rights expiresUnix maxUses =>
      Function.update standings id
        (some ⟨principal, resource, rights, expiresUnix, maxUses, false, 0⟩)
  | .use id _ _ _ => Function.update standings id ((standings id).map Standing.used)
  | .revoke id => Function.update standings id ((standings id).map Standing.withRevoked)
  | .deny _ _ _ _ => standings

/-- Where a ledger leaves every grant. -/
def standingsOf (events : List Event) : Standings :=
  events.foldl Standings.record fun _ => none

theorem standings_of_snoc (events : List Event) (event : Event) :
    standingsOf (events ++ [event]) = (standingsOf events).record event := by
  simp [standingsOf, List.foldl_append]

/-- The ids an event grants. -/
def Event.grants : Event → Option GrantId
  | .grant id _ _ _ _ _ => some id
  | _ => none

/-- Only a new grant under its id can undo a revocation. -/
theorem revoked_of_record (standings : Standings) (event : Event) (id : GrantId)
    (other : event.grants ≠ some id)
    (revoked : ∃ standing, standings id = some standing ∧ standing.revoked = true) :
    ∃ standing, standings.record event id = some standing ∧ standing.revoked = true := by
  obtain ⟨standing, found, flag⟩ := revoked
  cases event with
  | grant granted principal resource rights expiresUnix maxUses =>
      have different : id ≠ granted := fun same => other (by rw [same]; rfl)
      exact ⟨standing, by rw [Standings.record, Function.update_of_ne different, found], flag⟩
  | use granted principal resource rights =>
      by_cases same : id = granted
      · subst same
        exact ⟨standing.used, by rw [Standings.record, Function.update_self, found]; rfl, flag⟩
      · exact ⟨standing, by rw [Standings.record, Function.update_of_ne same, found], flag⟩
  | deny principal resource rights reason => exact ⟨standing, found, flag⟩
  | revoke granted =>
      by_cases same : id = granted
      · subst same
        exact ⟨standing.withRevoked, by rw [Standings.record, Function.update_self, found]; rfl,
          rfl⟩
      · exact ⟨standing, by rw [Standings.record, Function.update_of_ne same, found], flag⟩

/-- A grant is never forgotten. -/
theorem known_of_record (standings : Standings) (event : Event) (id : GrantId)
    (known : (standings id).isSome) : (standings.record event id).isSome := by
  have kept : ∀ (other : GrantId) (change : Standing → Standing),
      (Function.update standings other ((standings other).map change) id).isSome := by
    intro other change
    by_cases same : id = other
    · subst same
      rw [Function.update_self, Option.isSome_map]
      exact known
    · rw [Function.update_of_ne same]
      exact known
  cases event with
  | grant granted principal resource rights expiresUnix maxUses =>
      by_cases same : id = granted
      · subst same
        rw [Standings.record, Function.update_self]
        rfl
      · rw [Standings.record, Function.update_of_ne same]
        exact known
  | use granted principal resource rights => exact kept granted Standing.used
  | deny principal resource rights reason => exact known
  | revoke granted => exact kept granted Standing.withRevoked

/-- One ledger's view lags another: what it knows the other knows, and what it has
revoked the other has. -/
def Lags (behind ahead : Standings) : Prop :=
  ∀ id standing, behind id = some standing →
    ∃ other, ahead id = some other ∧ (standing.revoked = true → other.revoked = true)

theorem lags_refl (standings : Standings) : Lags standings standings :=
  fun _ standing found => ⟨standing, found, id⟩

/-- Recording the same event on both sides keeps one lagging the other. -/
theorem lags_record (behind ahead : Standings) (event : Event) (lags : Lags behind ahead) :
    Lags (behind.record event) (ahead.record event) := by
  have mapped : ∀ (id : GrantId) (change : Standing → Standing),
      (∀ left right : Standing, (left.revoked = true → right.revoked = true) →
        ((change left).revoked = true → (change right).revoked = true)) →
      Lags (Function.update behind id ((behind id).map change))
        (Function.update ahead id ((ahead id).map change)) := by
    intro id change monotone other standing found
    by_cases same : other = id
    · subst same
      rw [Function.update_self] at found
      obtain ⟨source, known, rfl⟩ := Option.map_eq_some_iff.mp found
      obtain ⟨target, knownToo, flags⟩ := lags other source known
      exact ⟨change target, by rw [Function.update_self, knownToo]; rfl, monotone _ _ flags⟩
    · rw [Function.update_of_ne same] at found ⊢
      exact lags other standing found
  cases event with
  | grant id principal resource rights expiresUnix maxUses =>
      intro other standing found
      by_cases same : other = id
      · subst same
        simp only [Standings.record, Function.update_self] at found ⊢
        exact ⟨standing, found, fun flag => flag⟩
      · simp only [Standings.record, Function.update_of_ne same] at found ⊢
        exact lags other standing found
  | use id principal resource rights => exact mapped id Standing.used fun _ _ flags => flags
  | deny principal resource rights reason => exact lags
  | revoke id => exact mapped id Standing.withRevoked fun _ _ _ _ => rfl

/-- Recording an event ahead keeps the one behind lagging, as long as the event
grants no id that is known already. -/
theorem lags_ahead (behind ahead : Standings) (event : Event) (lags : Lags behind ahead)
    (fresh : ∀ id, event.grants = some id → ahead id = none) : Lags behind (ahead.record event) := by
  intro id standing found
  obtain ⟨other, known, flags⟩ := lags id standing found
  have ungranted : event.grants ≠ some id := by
    intro granted
    rw [fresh id granted] at known
    contradiction
  cases flag : other.revoked with
  | true =>
      obtain ⟨later, knownLater, flagLater⟩ :=
        revoked_of_record ahead event id ungranted ⟨other, known, flag⟩
      exact ⟨later, knownLater, fun _ => flagLater⟩
  | false =>
      have kept := known_of_record ahead event id (by rw [known]; rfl)
      obtain ⟨later, knownLater⟩ := Option.isSome_iff_exists.mp kept
      refine ⟨later, knownLater, fun flagged => ?_⟩
      rw [flags flagged] at flag
      contradiction

/-! ## The tables implement the ledger -/

def GrantState.standing (state : GrantState) : Standing where
  principal := state.grant.principal
  resource := state.grant.resource
  rights := state.grant.rights
  expiresUnix := state.grant.expiresUnix
  maxUses := state.grant.maxUses
  revoked := state.revoked
  uses := state.uses

/-- Whether a grant is revoked in a table. -/
def GrantTable.revokes (grants : GrantTable) (id : GrantId) : Bool :=
  match grants.lookup id with
  | some state => state.revoked
  | none => false

/-- How the grants of a table stand. -/
def GrantTable.standings (grants : GrantTable) : Standings := fun id =>
  (grants.lookup id).map GrantState.standing

theorem insert_standings (grants : GrantTable) (id : GrantId) (state : GrantState) :
    GrantTable.standings (grants.insert id state) =
      Function.update grants.standings id (some state.standing) := by
  funext other
  by_cases same : other = id
  · subst same
    simp [GrantTable.standings]
  · simp [GrantTable.standings, AList.lookup_insert_ne same, Function.update_of_ne same]

theorem dlookup_kreplace (id other : GrantId) (state : GrantState)
    (entries : List (Sigma fun _ : GrantId => GrantState)) :
    List.dlookup other (List.kreplace id state entries) =
      if other = id then (List.dlookup id entries).map fun _ => state
      else List.dlookup other entries := by
  induction entries with
  | nil =>
      split
      · rfl
      · rfl
  | cons entry rest ih =>
      rw [List.kreplace] at ih ⊢
      by_cases same : id = entry.1
      · obtain ⟨key, found⟩ := entry
        dsimp only at same
        subst same
        rw [List.lookmap_cons_some _ rest (dif_pos rfl)]
        by_cases asked : other = id
        · subst asked
          rw [if_pos rfl, List.dlookup_cons_eq, List.dlookup_cons_eq]
          rfl
        · have skips : ∀ (entry : GrantState), List.dlookup other (⟨id, entry⟩ :: rest) =
              List.dlookup other rest := fun entry => List.dlookup_cons_ne rest ⟨id, entry⟩ asked
          rw [if_neg asked, skips, skips]
      · have passes := List.dlookup_cons_ne rest entry same
        rw [List.lookmap_cons_none _ rest (dif_neg same), passes]
        by_cases asked : other = entry.1
        · have apart : other ≠ id := fun equal => same (equal.symm.trans asked)
          obtain ⟨key, found⟩ := entry
          dsimp only at asked
          subst asked
          rw [if_neg apart, List.dlookup_cons_eq, List.dlookup_cons_eq]
        · have skips : ∀ tail, List.dlookup other (entry :: tail) = List.dlookup other tail :=
            fun tail => List.dlookup_cons_ne tail entry asked
          rw [skips, ih, skips]

/-- Replacing the value of a key that is there. -/
theorem lookup_replace (grants : GrantTable) (id other : GrantId) (state : GrantState) :
    (grants.replace id state).lookup other =
      if other = id then (grants.lookup id).map fun _ => state else grants.lookup other :=
  dlookup_kreplace id other state grants.entries

theorem lookup_adjust (grants : GrantTable) (id other : GrantId)
    (change : GrantState → GrantState) : (grants.adjust id change).lookup other =
      if other = id then (grants.lookup id).map change else grants.lookup other := by
  cases found : grants.lookup id with
  | none =>
      simp only [GrantTable.adjust, found]
      split
      case isTrue same =>
        rw [same, found]
        rfl
      case isFalse => rfl
  | some state =>
      simp only [GrantTable.adjust, found, lookup_replace]
      rfl

theorem adjust_standings (grants : GrantTable) (id : GrantId) (change : GrantState → GrantState)
    (abstract : Standing → Standing)
    (commutes : ∀ state, (change state).standing = abstract state.standing) :
    (grants.adjust id change).standings =
      Function.update grants.standings id ((grants.standings id).map abstract) := by
  funext other
  simp only [GrantTable.standings, lookup_adjust]
  by_cases same : other = id
  · subst same
    simp [Option.map_map, Function.comp_def, commutes]
  · simp [same, GrantTable.standings]

/-- A change that only touches the handle changes nothing about how grants stand. -/
theorem adjust_standings_same (grants : GrantTable) (id : GrantId)
    (change : GrantState → GrantState) (same : ∀ state, (change state).standing = state.standing) :
    (grants.adjust id change).standings = grants.standings := by
  rw [adjust_standings grants id change (fun standing => standing) same]
  simp

/-- The replay step implements `record`. -/
theorem apply_entry_standings (grants : GrantTable) (entry : AuditEntry) :
    (applyEntry grants entry).standings = grants.standings.record entry.event := by
  unfold applyEntry
  cases entry.event with
  | grant id principal resource rights expiresUnix maxUses => exact insert_standings grants id _
  | use id principal resource rights => exact adjust_standings grants id _ _ fun _ => rfl
  | deny principal resource rights reason => rfl
  | revoke id => exact adjust_standings grants id _ _ fun _ => rfl

/-- The replayed table implements the ledger. -/
theorem table_of_standings (entries : List AuditEntry) :
    (tableOf entries).standings = standingsOf (entries.map AuditEntry.event) := by
  rw [standingsOf, List.foldl_map]
  exact (List.foldl_hom GrantTable.standings fun grants entry =>
    (apply_entry_standings grants entry).symm).symm

/-- The live table implements `record` for every event a call logs. -/
theorem call_standings (broker : Broker) (draw : Draw) (call : Call) (event : Event)
    (logs : eventOf broker draw call = some event) :
    (settle broker draw (prepare broker draw call) call).standings =
      broker.grants.standings.record event := by
  cases call with
  | grant principal resource rights limits =>
      cases logs
      exact insert_standings _ _ _
  | request principal resource rights =>
      cases decided : broker.policy.decide principal resource rights with
      | none =>
          simp only [eventOf, decided] at logs
          cases logs
          simp only [settle, decided]
          rfl
      | some decision =>
          simp only [eventOf, decided] at logs
          cases logs
          simp only [settle, decided]
          exact insert_standings _ _ _
  | access cap resource rights =>
      cases refused : refusal broker draw.now cap resource rights with
      | none =>
          simp only [eventOf, refused] at logs
          cases logs
          simp only [settle, prepare, refused]
          exact adjust_standings _ _ _ _ fun _ => rfl
      | some reason =>
          simp only [eventOf, refused] at logs
          cases logs
          simp only [settle, prepare, refused]
          rfl
  | revoke id =>
      have same : event = .revoke id := by
        simp only [eventOf] at logs
        split at logs
        · contradiction
        · split at logs
          · contradiction
          · exact (Option.some.inj logs).symm
      subst same
      exact adjust_standings _ _ _ _ fun _ => rfl
  | reissue id => contradiction
  | reload => contradiction

/-- A call that logs nothing leaves every grant standing as it was. -/
theorem silent_standings (session : Session) (draw : Draw) (call : Call)
    (silent : eventOf session.broker draw call = none) (rereads : call.isReload = false) :
    ∃ grants, finalState (perform draw call session) = session.withGrants grants ∧
      grants.standings = session.broker.grants.standings := by
  obtain ⟨grants, left, ⟨rfl, _⟩ | ⟨id, _, _, rfl⟩⟩ := perform_silent session draw call silent rereads
  · exact ⟨_, left, rfl⟩
  · exact ⟨_, left, adjust_standings_same _ _ _ fun _ => rfl⟩

/-! ## What the codec does to a ledger -/

/-- Every path the event names is text. -/
def Event.Utf8Paths : Event → Prop
  | .grant _ _ resource _ _ _ => resource.Utf8Path
  | .use _ _ resource _ => resource.Utf8Path
  | .deny _ resource _ _ => resource.Utf8Path
  | .revoke _ => True

theorem persisted_event (event : Event) (textual : event.Utf8Paths) : event.persisted = event := by
  cases event with
  | grant id principal resource rights expiresUnix maxUses =>
      rw [Event.persisted, persisted_of_utf8 resource textual]
  | use id principal resource rights => rw [Event.persisted, persisted_of_utf8 resource textual]
  | deny principal resource rights reason =>
      rw [Event.persisted, persisted_of_utf8 resource textual]
  | revoke id => rfl

/-- An event that the log gives back as it was: its strings fit their length
prefixes and its paths are text. -/
structure Event.Encodable (event : Event) : Prop where
  fits : event.Fits
  textual : event.Utf8Paths

instance : DecidablePred Event.Utf8Paths
  | .grant _ _ resource _ _ _ => inferInstanceAs (Decidable resource.Utf8Path)
  | .use _ _ resource _ => inferInstanceAs (Decidable resource.Utf8Path)
  | .deny _ resource _ _ => inferInstanceAs (Decidable resource.Utf8Path)
  | .revoke _ => inferInstanceAs (Decidable True)

instance : DecidablePred Event.Encodable := fun event =>
  decidable_of_iff (event.Fits ∧ event.Utf8Paths)
    ⟨fun both => ⟨both.1, both.2⟩, fun encodable => ⟨encodable.fits, encodable.textual⟩⟩

end HorizonOs.Weave
