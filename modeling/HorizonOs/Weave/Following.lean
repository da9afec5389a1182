import HorizonOs.Weave.Lifetime

/-!
# A broker on its log

A broker alone on its store, on a disk that may fail at any system call. It stays at the head of
the chain it has written; whoever opens the store later finds that chain, or, where a failed write
tore the ref, no chain at all.
-/

namespace HorizonOs.Weave

open HorizonOs.Lib.Runs
open HorizonOs.Lifestream

set_option autoImplicit false

/-- The broker is at the head of a chain of these entries, and the ref names that head or is torn. -/
structure Follows (session : Session) (entries : List AuditEntry) : Prop where
  sound : Sound session.broker.ls.store session.device
  names : Names session.device session.broker.head
  linked : Linked session.broker.ls session.device session.broker.head entries.reverse
  encodable : ∀ entry ∈ entries, entry.event.Encodable

section Follows

variable {session : Session} {entries : List AuditEntry}

theorem Follows.with_grants (follows : Follows session entries) (grants : GrantTable) :
    Follows (session.withGrants grants) entries :=
  ⟨follows.sound, follows.names, follows.linked, follows.encodable⟩

theorem follows_open (ls : Lifestream) (policy : Policy) (device : Device)
    (head : Option ObjectId) (journal : List AuditEntry) (broker : Broker)
    (sound : Sound ls.store device) (names : Names device head)
    (linked : Linked ls device head entries.reverse)
    (encodable : ∀ entry ∈ entries, entry.event.Encodable)
    (opened : openBroker ls policy device = .ok broker) :
    ∃ known, Follows ⟨broker, device, journal⟩ known := by
  obtain ⟨store, read, _⟩ := open_broker_reads policy device broker opened
  obtain ⟨same | lost, found⟩ := names_get_ref device head broker.head names read
  · refine ⟨entries, ?_, found, ?_, encodable⟩
    · rw [store]
      exact sound
    · rw [store, same]
      exact linked
  · -- the torn ref reads as no log at all
    refine ⟨[], ?_, found, ?_, ?_⟩
    · rw [store]
      exact sound
    · change Linked broker.ls device broker.head _
      rw [lost]
      exact .nil
    · intro entry member
      cases member

/-- A log write goes through and the chain is longer by its entry, or it fails and the chain is
what it was. -/
theorem follows_log (follows : Follows session entries) (timeUnix : UInt64) (event : Event)
    (encodable : event.Encodable) :
    ∃ device, Grows session.broker.ls.store session.device device ∧
      ((∃ entry, log timeUnix event session = .ok () (session.logged device entry) ∧
          entry.event = event ∧ Follows (session.logged device entry) (entries ++ [entry])) ∨
        ∃ error, log timeUnix event session = .error (.lifestream error) { session with device } ∧
          Follows { session with device } entries) := by
  obtain ⟨device, grows, ⟨id, logged, pointed, linked⟩ | ⟨_, ⟨error, failed⟩, named⟩⟩ :=
    log_outcome session timeUnix event
  · refine ⟨device, grows, .inl ?_⟩
    refine ⟨_, logged, rfl, grows.sound follows.sound, .inl pointed, ?_, ?_⟩
    · rw [List.reverse_append]
      exact linked encodable.fits entries.reverse follows.linked
    · intro entry member
      rcases List.mem_append.mp member with old | new
      · exact follows.encodable entry old
      · rw [List.mem_singleton.mp new]
        exact encodable
  · refine ⟨device, grows, .inr ?_⟩
    refine ⟨error, failed, grows.sound follows.sound, ?_,
      follows.linked.grow grows.toKeeps, follows.encodable⟩
    rcases named with same | torn
    · rw [Names, same]
      exact follows.names
    · exact .inr torn

theorem follows_logging (follows : Follows session entries) (draw : Draw) (call : Call)
    (event : Event) (logs : eventOf session.broker draw call = some event)
    (encodable : event.Encodable) : ∃ known, Follows (callStep session (draw, call)) known := by
  have performed := perform_of_event session draw call event logs
  obtain ⟨device, _, ⟨entry, logged, _, after⟩ | ⟨error, failed, after⟩⟩ :=
    follows_log (follows.with_grants (prepare session.broker draw call)) draw.logNow event encodable
  · rw [logged] at performed
    refine ⟨entries ++ [entry], ?_⟩
    rw [callStep, performed, final_answer]
    exact after.with_grants _
  · rw [failed] at performed
    refine ⟨entries, ?_⟩
    rw [callStep, performed]
    exact after

theorem follows_reload (follows : Follows session entries) (draw : Draw) :
    ∃ known, Follows (callStep session (draw, .reload)) known := by
  obtain ⟨error, left⟩ | ⟨broker, changed, reread, store, left⟩ := reload_outcome session draw
  · refine ⟨entries, ?_⟩
    rw [callStep, left]
    exact follows
  · rw [callStep, left, final_state_ok]
    obtain ⟨head, named, rest⟩ := of_bind_ok reread
    split at rest
    · cases rest
      exact ⟨entries, follows⟩
    case isFalse moved =>
      obtain ⟨table, _, ended⟩ := of_bind_ok rest
      cases ended
      obtain ⟨same | lost, found⟩ :=
        names_get_ref session.device session.broker.head head follows.names
          (of_from_lifestream named)
      · exact absurd same moved
      · refine ⟨[], follows.sound, found, ?_, ?_⟩
        · change Linked _ _ head _
          rw [lost]
          exact .nil
        · intro entry member
          cases member

theorem follows_step (session : Session) (call : Draw × Call)
    (follows : ∃ entries, Follows session entries) (encodes : Encodes session call) :
    ∃ entries, Follows (callStep session call) entries := by
  obtain ⟨entries, follows⟩ := follows
  obtain ⟨draw, call⟩ := call
  cases logs : eventOf session.broker draw call with
  | some event => exact follows_logging follows draw call event logs (encodes event logs)
  | none =>
      cases rereads : call.isReload with
      | false =>
          obtain ⟨grants, left, _⟩ := perform_silent session draw call logs rereads
          refine ⟨entries, ?_⟩
          rw [callStep, left]
          exact follows.with_grants grants
      | true =>
          cases call with
          | reload => exact follows_reload follows draw
          | _ => contradiction

theorem follows_run (session : Session) (calls : List (Draw × Call))
    (follows : ∃ entries, Follows session entries)
    (encodes : Guarded callStep Encodes session calls) :
    ∃ entries, Follows (run callStep session calls) entries :=
  guarded_run_invariant callStep Encodes (fun session => ∃ entries, Follows session entries)
    follows_step session calls follows encodes

/-- What whoever opens the store finds, in any weather in which it can be opened: these events, or
nothing. -/
def Replays (ls : Lifestream) (device : Device) (events : List Event) : Prop :=
  ∀ weather policy broker, openBroker ls policy (inWeather device weather) = .ok broker →
    broker.grants.standings = standingsOf events ∨ broker.grants.standings = fun _ => none

theorem follows_replays (follows : Follows session entries)
    (free : CollisionFree session.broker.ls.store session.device) :
    Replays session.broker.ls session.device (entries.map AuditEntry.event) := by
  intro weather policy broker opened
  have keeps := weather_keeps session.broker.ls.store session.device weather
  obtain ⟨_, read, replayed⟩ := open_broker_reads policy _ broker opened
  obtain ⟨same | lost, _⟩ := names_get_ref (inWeather session.device weather)
    session.broker.head broker.head follows.names read
  · left
    rw [same] at replayed
    apply replay_linked session.broker.ls _ _ entries _ _ (keeps.sound follows.sound) free
      (follows.linked.grow keeps) _ replayed
    intro entry member
    have textual := (follows.encodable entry member).textual
    cases event : entry.event with
    | grant id principal resource rights expiresUnix maxUses =>
        rw [event] at textual
        exact textual
    | _ => trivial
  · right
    rw [lost] at replayed
    have table : broker.grants = tableOf [] := (Prod.mk.inj (Except.ok.inj replayed)).1.symm
    rw [table]
    exact table_of_standings []

end Follows

end HorizonOs.Weave
