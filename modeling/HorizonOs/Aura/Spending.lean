import HorizonOs.Aura.Promises

/-!
# What a blocked step has spent

The needs of a step are brokered one after the other, each counted and logged as
it is admitted, so a step that is blocked at a later need has used its earlier
ones up.
-/

namespace HorizonOs.Aura

open HorizonOs.Lib.ByteCodec HorizonOs.Lib.Text HorizonOs.Lib.Runs
open HorizonOs.Lifestream HorizonOs.Weave

set_option autoImplicit false

def isUse : Event → Bool
  | .use _ _ _ _ => true
  | _ => false

/-- How often a grant was used, as the broker counts. -/
def usesOf (session : Session) (id : GrantId) : Option UInt32 :=
  (session.broker.grants.lookup id).map GrantState.uses

/-- Every use count is as it was, and no use was logged. -/
def Unspent (before after : Session) : Prop :=
  (∀ id, usesOf after id = usesOf before id) ∧
    ∃ added, after.journal = before.journal ++ added ∧ ∀ entry ∈ added, isUse entry.event = false

/-- The need is refused before anything is counted: it has no choice, or the broker's
check turns the choice away. -/
def Barred (aura : Executor) (need : Need) : Prop :=
  ∀ id cap, aura.capabilityFor need = some (id, cap) →
    refusal aura.session.broker aura.advanced.nextDraw.now cap need.resource need.rights ≠ none

theorem unspent_refl (session : Session) : Unspent session session :=
  ⟨fun _ => rfl, [], by simp, by simp⟩

/-- A refused access logs a denial and nothing else. -/
theorem refused_unspent (draw : Draw) (cap : Capability) (resource : Resource) (rights : Rights)
    (session : Session) (reason : String)
    (refused : refusal session.broker draw.now cap resource rights = some reason) :
    ∃ error later, access draw cap resource rights session = .error error later ∧
      Unspent session later := by
  simp only [access, bind_apply, get_apply, refused]
  obtain ⟨device, _, ⟨id, outcome, _⟩ | ⟨_, ⟨error, outcome⟩, _⟩⟩ :=
    log_outcome session draw.logNow
      (.deny (principalOf session.broker cap.grant) resource rights reason)
  · rw [outcome]
    refine ⟨_, _, rfl, fun _ => rfl, [_], rfl, ?_⟩
    intro entry member
    rw [List.mem_singleton.mp member]
    rfl
  · rw [outcome]
    exact ⟨_, _, rfl, fun _ => rfl, [], by simp, by simp⟩

/-- An access that is not refused counts a use, whether the log takes it or not. -/
theorem counted_access (draw : Draw) (cap : Capability) (resource : Resource) (rights : Rights)
    (session : Session)
    (admitted : refusal session.broker draw.now cap resource rights = none) :
    (finalState (access draw cap resource rights session)).broker.grants =
      session.broker.grants.adjust cap.grant GrantState.used := by
  have counted : updateGrants (fun grants => grants.adjust cap.grant GrantState.used) session =
      .ok () (session.withGrants (session.broker.grants.adjust cap.grant GrantState.used)) := rfl
  simp only [access, bind_apply, get_apply, admitted, counted, log_with_grants]
  cases logged : log draw.logNow
      (.use cap.grant (principalOf session.broker cap.grant) resource rights) session <;> rfl

def JournalGrows (before after : Session) : Prop :=
  ∃ added, after.journal = before.journal ++ added

theorem journal_grows_refl (session : Session) : JournalGrows session session := ⟨[], by simp⟩

theorem journal_grows_trans (first second third : Session) (near : JournalGrows first second)
    (far : JournalGrows second third) : JournalGrows first third := by
  obtain ⟨some, near⟩ := near
  obtain ⟨more, far⟩ := far
  exact ⟨some ++ more, by rw [far, near, List.append_assoc]⟩

theorem log_grows_journal (time : UInt64) (event : Event) :
    Preserves JournalGrows (log time event) := by
  intro session
  obtain ⟨device, _, ⟨id, outcome, _⟩ | ⟨_, ⟨error, outcome⟩, _⟩⟩ :=
    log_outcome session time event
  · rw [outcome]
    exact ⟨[_], rfl⟩
  · rw [outcome]
    exact journal_grows_refl session

theorem access_grows_journal (draw : Draw) (cap : Capability) (resource : Resource)
    (rights : Rights) : Preserves JournalGrows (access draw cap resource rights) := by
  intro session
  simp only [access, bind_apply, get_apply]
  cases refusal session.broker draw.now cap resource rights with
  | none =>
      apply Preserves.bind journal_grows_trans
      · exact fun session => ⟨[], by simp [updateGrants]⟩
      intro _
      apply Preserves.bind journal_grows_trans (log_grows_journal _ _)
      intro _
      exact Preserves.pure journal_grows_refl _
  | some reason =>
      apply Preserves.bind journal_grows_trans (log_grows_journal _ _)
      intro _
      exact journal_grows_refl

/-- Whatever is brokered only adds to the journal. -/
theorem broker_needs_journal (needs : List Need) (aura : Executor) :
    JournalGrows aura.session (brokerNeeds needs aura).2.session := by
  induction needs generalizing aura with
  | nil => exact journal_grows_refl aura.session
  | cons need rest ih =>
      cases chosen : aura.capabilityFor need with
      | none =>
          rw [broker_unheld rest chosen]
          exact journal_grows_refl aura.session
      | some pair =>
          obtain ⟨id, cap⟩ := pair
          have moved := access_grows_journal aura.advanced.nextDraw cap need.resource need.rights
            aura.session
          cases answered : access aura.advanced.nextDraw cap need.resource need.rights
              aura.session with
          | error error session =>
              rw [answered] at moved
              rw [broker_refused rest chosen answered]
              exact moved
          | ok lease session =>
              rw [answered] at moved
              rw [broker_admitted rest chosen answered]
              exact journal_grows_trans _ _ _ moved (ih { aura.advanced.advanced with session })

/-- Brokering spends nothing exactly when it stops at the first need, before that is
counted. -/
theorem brokering_unspent_iff (need : Need) (rest : List Need) (aura : Executor)
    (filed : WellFiled aura) :
    Unspent aura.session (brokerNeeds (need :: rest) aura).2.session ↔ Barred aura need := by
  cases chosen : aura.capabilityFor need with
  | none =>
      rw [broker_unheld rest chosen]
      constructor
      · intro _ id cap found
        rw [chosen] at found
        contradiction
      · intro _
        exact unspent_refl aura.session
  | some pair =>
      obtain ⟨id, cap⟩ := pair
      cases refused : refusal aura.session.broker aura.advanced.nextDraw.now cap need.resource
          need.rights with
      | some reason =>
          obtain ⟨error, later, answered, unspent⟩ :=
            refused_unspent _ cap need.resource need.rights aura.session reason refused
          rw [broker_refused rest chosen answered]
          constructor
          · intro _ other handle found
            rw [chosen] at found
            cases found
            rw [refused]
            exact fun impossible => by cases impossible
          · intro _
            exact unspent
      | none =>
          constructor
          · intro unspent
            exfalso
            have counted := counted_access _ _ _ _ aura.session refused
            obtain ⟨same, state, known, _⟩ := choice_live filed.grants filed.wallet
              ⟨need, aura.nextDraw.now, aura.advanced.nextDraw⟩ id cap chosen
            cases answered : access aura.advanced.nextDraw cap need.resource need.rights
                aura.session with
            | error error later =>
                -- the log failed, but the count in memory has gone up
                rw [answered, final_state_error] at counted
                rw [broker_refused rest chosen answered] at unspent
                have before := unspent.1 id
                rw [usesOf, usesOf] at before
                change (later.broker.grants.lookup id).map GrantState.uses = _ at before
                rw [counted, same, lookup_adjust, if_pos rfl, known] at before
                have next : state.uses + 1 = state.uses := Option.some.inj before
                simp at next
            | ok lease later =>
                -- the use is in the journal, whatever came after it
                obtain ⟨entry, logged, event⟩ := access_logged _ _ _ _ _ _ _ answered
                rw [broker_admitted rest chosen answered] at unspent
                obtain ⟨more, onward⟩ :=
                  broker_needs_journal rest { aura.advanced.advanced with session := later }
                obtain ⟨_, added, journal, unused⟩ := unspent
                dsimp only at onward journal
                rw [onward, logged, List.append_assoc] at journal
                have within := List.append_cancel_left journal
                have plain := unused entry (by
                  rw [← within]
                  exact List.mem_cons_self)
                rw [event] at plain
                contradiction
          · intro barred
            exact absurd refused (barred id cap chosen)

/-- Aura with a grant to move `/a` away once. -/
def halfAura : Executor :=
  finalState (authorize (samplePath "/a") (Rights.READ.union Rights.WRITE) ⟨none, some 1⟩
    (freshAura Device.fresh))

theorem half_reached : Reached halfAura :=
  fresh_reached.act (.authorize (samplePath "/a") (Rights.READ.union Rights.WRITE) ⟨none, some 1⟩)

def moveStep : Step := ⟨"move_file", (∅ : Args).insert "src" "/a" |>.insert "dst" "/b", ""⟩

end HorizonOs.Aura
