import HorizonOs.Aura.Brokerage
import HorizonOs.Weave.Following

/-!
# An approval that fails

The grants that a plan lacks are made and logged one by one. Where logging one of them fails the
call ends: no tool has run, the grants in front of it stand, in the table and in the log, and
nothing of it or of those behind it is in either.
-/

namespace HorizonOs.Aura

open HorizonOs.Lib.Runs
open HorizonOs.Lifestream HorizonOs.Weave

set_option autoImplicit false

/-- The need that a grant was made for. -/
def grantedNeed (grant : Grant) : Need := ⟨grant.resource, grant.rights⟩

/-- The entry of a grant in the log. -/
def grantLogged (grant : Grant) : Event :=
  .grant grant.id grant.principal grant.resource grant.rights grant.expiresUnix grant.maxUses

/-- What the log can give back as it was. -/
def Need.Encodable (need : Need) : Prop := need.resource.Fits ∧ need.resource.Utf8Path

instance : DecidablePred Need.Encodable := fun need =>
  inferInstanceAs (Decidable (need.resource.Fits ∧ need.resource.Utf8Path))

/-- The grant that Aura is given for a need. -/
def Executor.nextGrant (aura : Executor) (need : Need) (limits : Limits) : Grant where
  id := aura.nextDraw.grantId
  principal := PRINCIPAL
  resource := need.resource
  rights := need.rights
  grantedUnix := aura.nextDraw.now
  expiresUnix := limits.expiresUnix
  maxUses := limits.maxUses

theorem authorize_outcome (need : Need) (limits : Limits) (aura : Executor)
    (entries : List AuditEntry) (follows : Follows aura.session entries)
    (encodable : need.Encodable) :
    ∃ session, SessionGrows aura.session session ∧
      ((∃ entry, authorize need.resource need.rights limits aura =
            .ok aura.nextDraw.grantId (aura.approved session) ∧
          grantsOf session = withGrant (grantsOf aura.session) (aura.nextGrant need limits) ∧
          entry.event = grantLogged (aura.nextGrant need limits) ∧
          Follows session (entries ++ [entry])) ∨
        ∃ fault, authorize need.resource need.rights limits aura =
            .error (.weave (.lifestream fault)) { aura.advanced with session } ∧
          grantsOf session = grantsOf aura.session ∧ Follows session entries) := by
  have named : strFits PRINCIPAL := by decide
  have fits : (grantLogged (aura.nextGrant need limits)).Encodable :=
    ⟨⟨named, encodable.1⟩, encodable.2⟩
  have event : Event.grant aura.nextDraw.grantId PRINCIPAL need.resource need.rights
      limits.expiresUnix limits.maxUses = grantLogged (aura.nextGrant need limits) := rfl
  have given := grant_outcome aura.nextDraw PRINCIPAL need.resource need.rights limits aura.session
  obtain ⟨device, grows, ⟨entry, logged, same, after⟩ | ⟨fault, failed, after⟩⟩ :=
    follows_log follows aura.nextDraw.logNow _ fits
  · obtain ⟨session, session', granted⟩ : ∃ session, session = (aura.session.logged device
        entry).withGrants (aura.session.broker.grants.insert aura.nextDraw.grantId
          (grantState aura.nextDraw PRINCIPAL need.resource need.rights limits)) ∧
        grant aura.nextDraw PRINCIPAL need.resource need.rights limits aura.session =
          .ok ⟨aura.nextDraw.grantId, aura.nextDraw.secret⟩ session := by
      refine ⟨_, rfl, ?_⟩
      simp only [grant, bind_apply, event, logged, updateGrants]
      rfl
    refine ⟨session, ?_, .inl ⟨entry, ?_, ?_, same, ?_⟩⟩
    · rw [session']
      exact ⟨rfl, grows⟩
    · simp only [authorize, granted, Executor.approved]
    · obtain ⟨later, answered, table⟩ | ⟨error, later, answered, _⟩ := given
      · rw [granted] at answered
        cases answered
        exact table
      · rw [granted] at answered
        cases answered
    · rw [session']
      exact after.with_grants _
  · have refused : grant aura.nextDraw PRINCIPAL need.resource need.rights limits aura.session =
        .error (.lifestream fault) { aura.session with device } := by
      simp only [grant, bind_apply, event, failed]
    refine ⟨{ aura.session with device }, ⟨rfl, grows⟩, .inr ⟨fault, ?_, rfl, after⟩⟩
    simp only [authorize, refused]

/-- Where granting these needs fails, the first of them are granted and logged, and the next one is
where it failed. -/
theorem grant_needs_failed (limits : Limits) (needs : List Need) (aura : Executor)
    (entries : List AuditEntry) (follows : Follows aura.session entries)
    (encodable : ∀ need ∈ needs, need.Encodable) (error : Error) (final : Executor)
    (failed : grantNeeds limits needs aura = .error error final) :
    final.files = aura.files ∧ SessionGrows aura.session final.session ∧
      (∃ fault, error = .weave (.lifestream fault)) ∧
      ∃ (grants : List Grant) (need : Need) (rest : List Need) (added : List AuditEntry),
        needs = grants.map grantedNeed ++ need :: rest ∧
        (∀ grant ∈ grants, grant.principal = PRINCIPAL ∧ grant.expiresUnix = limits.expiresUnix ∧
          grant.maxUses = limits.maxUses) ∧
        grantsOf final.session = grants.foldl withGrant (grantsOf aura.session) ∧
        Follows final.session (entries ++ added) ∧
        added.map AuditEntry.event = grants.map grantLogged := by
  induction needs generalizing aura entries with
  | nil => cases failed
  | cons need rest ih =>
      obtain ⟨first, others⟩ := List.forall_mem_cons.mp encodable
      obtain ⟨session, grows, ⟨entry, authorized, table, event, after⟩ |
        ⟨fault, refused, table, after⟩⟩ := authorize_outcome need limits aura entries follows first
      · simp only [grantNeeds, bind_apply, authorized] at failed
        cases rested : grantNeeds limits rest (aura.approved session) with
        | ok ids later =>
            rw [rested] at failed
            cases failed
        | error error' later =>
            rw [rested] at failed
            cases failed
            obtain ⟨files, grew, fault, grants, next, behind, added, asked, terms, given, stays,
              logged⟩ := ih (aura.approved session) (entries ++ [entry]) after others rested
            refine ⟨files, grows.trans _ _ _ grew, fault, aura.nextGrant need limits :: grants, next,
              behind, entry :: added, ?_, ?_, ?_, ?_, ?_⟩
            · rw [asked]
              rfl
            · intro grant member
              rcases List.mem_cons.mp member with here | later
              · rw [here]
                exact ⟨rfl, rfl, rfl⟩
              · exact terms grant later
            · rw [given, List.foldl_cons, ← table]
              rfl
            · rw [List.append_assoc] at stays
              exact stays
            · rw [List.map_cons, List.map_cons, logged, event]
      · simp only [grantNeeds, bind_apply, authorize] at failed
        simp only [authorize] at refused
        rw [refused] at failed
        cases failed
        refine ⟨rfl, grows, ⟨fault, rfl⟩, [], need, rest, [], rfl, ?_, table, ?_, rfl⟩
        · intro grant member
          cases member
        · rw [List.append_nil]
          exact after

/-- The log of a store before a call, and once more after it, whatever opens it. -/
theorem replays_of_follows {session final : Session} {entries added : List AuditEntry}
    (follows : Follows session entries) (after : Follows final (entries ++ added))
    (grows : SessionGrows session final)
    (free : CollisionFree session.broker.ls.store final.device) :
    Replays session.broker.ls session.device (entries.map AuditEntry.event) ∧
      Replays session.broker.ls final.device
        (entries.map AuditEntry.event ++ added.map AuditEntry.event) := by
  have replayed := follows_replays after (grows.ls.symm ▸ free)
  rw [grows.ls, List.map_append] at replayed
  exact ⟨follows_replays follows (free.before grows.device.written), replayed⟩

/-- Whether a table has a grant to Aura that is neither revoked nor expired. -/
def grantsLive (grants : GrantTable) (now : UInt64) : Bool :=
  grants.entries.any fun item =>
    item.2.grant.principal = PRINCIPAL && item.2.status now = .active

end HorizonOs.Aura
